import ChainCalc.Proofs.Renaming.Runs
import ChainCalc.Proofs.Standard.Unseen
/-!
# Inlining — arguments in the place of parameters

The body of a function without a name can be compiled in the scope of its parameters, for a call with given arguments, or
right where the function is written, with the parameters bound to the arguments as constants.  Both ways make the same
scopes and functions under the same numbers, but what is made inside the body is one function deeper the first way.

An `Inlining` is such a place in a workspace.  Things are inlined if the first has arisen in the first way and the second
one correspondingly in the second: what was there before stands for itself, and what is inside the body is shifted by one
depth.  A relation for what a piece of code refers to comes in two kinds, for code outside the body and for code inside; code inside
sees the frames of the body, in which the first side has the arguments as an activation of its own and the second has none.
-/
namespace ChainCalc

/-! ### Workspaces with the computations of the standard registry -/

/-- Nodes with the computations of the standard registry; of sources nothing is asked. -/
def Discipline.standard : Discipline where
  rules := Discipline.blind.rules
  node
    | .kernel _ _ _ compute => Standard.IsKernel compute
    | _ => True
  value _ := True
  function _ _ := True
  error _ := True

theorem Discipline.lawful_standard : Discipline.standard.Lawful where
  mild := Discipline.lawful_blind.mild
  literal _ := trivial
  param _ _ _ := trivial
  reference _ _ := trivial
  invocation _ _ _ _ := trivial
  application _ _ _ := trivial
  sequence _ _ := trivial
  lambda _ _ _ _ _ := trivial
  value _ _ := trivial
  function _ _ _ := trivial
  built _ _ found _ _ made := by
    cases Standard.product_of_find? found made with
    | kernel known => exact known
    | _ => trivial
  unbuilt _ _ _ _ _ _ := trivial
  unnamed _ _ _ _ := trivial
  refusal _ := trivial

/-- **A place where a function is called on the spot**: a workspace, an environment in use, and the arguments. -/
structure Inlining where
  world : World
  workspace : Workspace
  env : Env
  args : List Value
  ok : world.Ok (fun _ _ => True) (fun _ => False) workspace
  holds : Discipline.standard.Holds workspace
  live : world.live env
  sound : ∀ v ∈ args, v.Sound world workspace

def Inlining.depth (ι : Inlining) : Nat := ι.env.depth

/-! ### Values and frames -/

def Definition.deeper (d : Definition) : Definition := { d with depth := d.depth + 1 }

section

variable (ι : Inlining)

/-- A function from outside the body is itself; one that is made inside is deeper on the first side. -/
inductive Definition.Inlined : Bool → Definition → Definition → Prop
  | outside {d : Definition} {env : Env} (home : ι.world.home d env) : Definition.Inlined false d d
  | inside {d : Definition} (new : ι.workspace.bodies.size ≤ d.id) (deep : ι.depth < d.depth) :
      Definition.Inlined true d.deeper d

mutual

/-- **The same value, but for functions that were made inside the body.** -/
inductive Value.Inlined : Value → Value → Prop
  | plain {v : Value} (h : v.asFunction? = none) : Value.Inlined v v
  | function {inside : Bool} {d d' : Definition} {captured captured' : Frame} {applied applied' : List Value}
      (definition : d.Inlined ι inside d') (captures : Frame.Inlined inside captured captured')
      (given : List.Forall₂ Value.Inlined applied applied') :
      Value.Inlined (.function ⟨d, captured, applied⟩) (.function ⟨d', captured', applied'⟩)

inductive Activation.Inlined : Activation → Activation → Prop
  | mk (depth : Nat) {args args' : List Value} (given : List.Forall₂ Value.Inlined args args') :
      Activation.Inlined ⟨depth, args⟩ ⟨depth, args'⟩

/-- **The same activations.**  Inside the body the first side has the arguments in reach and what is around the function;
the second may have more than that around it, which is cut off. -/
inductive Frame.Inlined : Bool → Frame → Frame → Prop
  | outside {frame frame' : Frame} (pointwise : List.Forall₂ Activation.Inlined frame frame') : Frame.Inlined false frame frame'
  | body {outer frame' : Frame} (around : List.Forall₂ Activation.Inlined outer (frame'.truncate ι.depth)) :
      Frame.Inlined true (⟨ι.depth + 1, ι.args⟩ :: outer) frame'
  | enter {depth : Nat} (deep : ι.depth < depth) {args args' : List Value} (given : List.Forall₂ Value.Inlined args args')
      {frame frame' : Frame} (rest : Frame.Inlined true frame frame') :
      Frame.Inlined true (⟨depth + 1, args⟩ :: frame) (⟨depth, args'⟩ :: frame')

end

/-! ### Code -/

/-- A function that code refers to.  Code inside the body refers to no function that is deeper than the body itself. -/
inductive Definition.Reached (inside : Bool) : Definition → Definition → Prop
  | outside {d : Definition} {env : Env} (home : ι.world.home d env) (shallow : inside = true → d.depth ≤ ι.depth + 1) :
      Definition.Reached inside d d
  | inside {d : Definition} (here : inside = true) (new : ι.workspace.bodies.size ≤ d.id) (deep : ι.depth < d.depth) :
      Definition.Reached inside d.deeper d

/-- **An environment inside the body**: the scope of the parameters, or a new scope inside such an environment. -/
inductive Env.Inlined : Env → Env → Prop
  | body : Env.Inlined ⟨⟨ι.workspace.scopes.size, ι.depth + 1⟩, ι.env.path⟩ ⟨⟨ι.workspace.scopes.size, ι.depth⟩, ι.env.path⟩
  | inner {env env' : Env} {id depth : Nat} (new : ι.workspace.scopes.size ≤ id) (deep : ι.depth ≤ depth)
      (around : Env.Inlined env env') : Env.Inlined ⟨⟨id, depth + 1⟩, env.path⟩ ⟨⟨id, depth⟩, env'.path⟩

/-- An environment that code looks names up in. -/
inductive Env.Reached (inside : Bool) : Env → Env → Prop
  | outside {env : Env} (live : ι.world.live env) (shallow : inside = true → env.depth ≤ ι.depth) : Env.Reached inside env env
  | inside {env env' : Env} (here : inside = true) (inlined : env.Inlined ι env') : Env.Reached inside env env'

/-- **The same node, but for what was made inside the body.**  There, parameters of inner functions are deeper on the first
side, and the parameters of the body itself are constants on the second. -/
inductive Node.Inlined (inside : Bool) : Node → Node → Prop
  | constant {v v' : Value} (value : v.Inlined ι v') : Node.Inlined inside (.constant v) (.constant v')
  | param (name : String) {depth : Nat} (index : Nat) (shallow : inside = true → depth ≤ ι.depth) :
      Node.Inlined inside (.param name depth index) (.param name depth index)
  | deeper (name : String) {depth : Nat} (index : Nat) (here : inside = true) (deep : ι.depth < depth) :
      Node.Inlined inside (.param name (depth + 1) index) (.param name depth index)
  | own (name : String) {index : Nat} {v : Value} (here : inside = true) (given : ι.args[index]? = some v) :
      Node.Inlined inside (.param name (ι.depth + 1) index) (.constant v)
  | kernel (name label : String) {operands operands' : List Node} {compute : Kernel} (known : Standard.IsKernel compute)
      (children : List.Forall₂ (Node.Inlined inside) operands operands') :
      Node.Inlined inside (.kernel name label operands compute) (.kernel name label operands' compute)
  | conditional (label : String) {c y n c' y' n' : Node} (condition : Node.Inlined inside c c') (yes : Node.Inlined inside y y')
      (no : Node.Inlined inside n n') : Node.Inlined inside (.conditional label c y n) (.conditional label c' y' n')
  | sequence (label : String) {items items' : List Node} (children : List.Forall₂ (Node.Inlined inside) items items') :
      Node.Inlined inside (.sequence label items) (.sequence label items')
  | lambda {d d' : Definition} (body body' : Option Node) (definition : d.Reached ι inside d') :
      Node.Inlined inside (.lambda d body) (.lambda d' body')
  | functionRef (name : String) {env env' : Env} (reached : env.Reached ι inside env') :
      Node.Inlined inside (.functionRef name env) (.functionRef name env')
  | invoke (name site : String) {env env' : Env} {args args' : List Node} (reached : env.Reached ι inside env')
      (children : List.Forall₂ (Node.Inlined inside) args args') :
      Node.Inlined inside (.invoke name site env args) (.invoke name site env' args')
  | apply (site : String) {callee callee' : Node} {args args' : List Node} (head : Node.Inlined inside callee callee')
      (children : List.Forall₂ (Node.Inlined inside) args args') :
      Node.Inlined inside (.apply site callee args) (.apply site callee' args')
  | worker (query : WorkerQuery) (label : String) : Node.Inlined inside (.worker query label) (.worker query label)
  | fetch (label : String) {key key' : Node} (child : Node.Inlined inside key key') :
      Node.Inlined inside (.fetch label key) (.fetch label key')

inductive Binding.Inlined (inside : Bool) : Binding → Binding → Prop
  | value {x x' : Node} (node : x.Inlined ι inside x') : Binding.Inlined inside (.value x) (.value x')
  | function {d d' : Definition} (definition : d.Reached ι inside d') : Binding.Inlined inside (.function d) (.function d')
  | param {depth : Nat} (index : Nat) (shallow : inside = true → depth ≤ ι.depth) :
      Binding.Inlined inside (.param depth index) (.param depth index)
  | deeper {depth : Nat} (index : Nat) (here : inside = true) (deep : ι.depth < depth) :
      Binding.Inlined inside (.param (depth + 1) index) (.param depth index)
  | own {index : Nat} {v : Value} (here : inside = true) (given : ι.args[index]? = some v) :
      Binding.Inlined inside (.param (ι.depth + 1) index) (.value (.constant v))

end

/-! ### What is seen of values -/

section

variable {ι : Inlining}

namespace Definition.Inlined

variable {inside : Bool} {d d' : Definition} (h : d.Inlined ι inside d')

include h

theorem id : d'.id = d.id := by cases h <;> rfl

theorem name : d'.name = d.name := by cases h <;> rfl

theorem params : d'.params = d.params := by cases h <;> rfl

end Definition.Inlined

/-- The numbers of functions are the same on both sides, so **no computation sees which way a function was made**. -/
theorem Value.counterparts_inlined (ι : Inlining) : Counterparts (Value.Inlined ι) where
  shape h := by
    cases h with
    | plain plain => exact .inl ⟨rfl, plain⟩
    | function definition _ given => exact .inr ⟨_, _, rfl, rfl, definition.name, definition.params, given⟩
  apart h h' := by
    cases h with
    | plain plain => cases plain
    | function definition _ _ =>
      cases h' with
      | plain plain => cases plain
      | function definition' _ _ =>
        dsimp only
        rw [definition.id, definition'.id]

/-! ### Frames -/

theorem Activation.Inlined.same {a a' : Activation} (h : a.Inlined ι a') :
    a'.depth = a.depth ∧ List.Forall₂ (Value.Inlined ι) a.args a'.args := by
  cases h with
  | mk depth given => exact ⟨rfl, given⟩

namespace Frame

theorem arg?_shallow {depth : Nat} (shallow : depth ≤ ι.depth) (index : Nat) : ∀ {frame frame' : Frame},
    Frame.Inlined ι true frame frame' → Option.Rel (Value.Inlined ι) (frame.arg? depth index) (frame'.arg? depth index)
  | _, frame', .body around => by
    rw [arg?_cons_of_lt _ (by show depth < ι.depth + 1; omega), ← arg?_truncate shallow index frame']
    exact arg?_forall₂ Activation.Inlined.same around depth index
  | _, _, .enter deep _ rest => by
    rw [arg?_cons_of_lt _ (by dsimp only; omega), arg?_cons_of_lt _ (by dsimp only; omega)]
    exact arg?_shallow shallow index rest

theorem arg?_own (index : Nat) : ∀ {frame frame' : Frame}, Frame.Inlined ι true frame frame' →
    frame.arg? (ι.depth + 1) index = ι.args[index]?
  | _, _, .body _ => by rw [Frame.arg?, if_pos rfl]
  | _, _, .enter deep _ rest => by
    rw [arg?_cons_of_lt _ (by dsimp only; omega)]
    exact arg?_own index rest

theorem arg?_deep {depth : Nat} (deep : ι.depth < depth) (index : Nat) : ∀ {frame frame' : Frame},
    Frame.Inlined ι true frame frame' → ∀ v, frame.arg? (depth + 1) index = some v →
      ∃ v', frame'.arg? depth index = some v' ∧ v.Inlined ι v'
  | _, _, .body _, v, h => by
    rw [Frame.arg?, if_neg (by omega), if_pos (by omega)] at h
    cases h
  | _, ⟨d, args'⟩ :: _, .enter hd given rest, v, h => by
    rw [Frame.arg?] at h
    rw [Frame.arg?]
    rcases Nat.lt_trichotomy d depth with hlt | rfl | hlt
    · rw [if_neg (by omega), if_pos (by omega)] at h
      cases h
    · rw [if_pos rfl] at h ⊢
      have found := optionRel_getElem? given index
      rw [h] at found
      generalize args'[index]? = v' at found ⊢
      cases found with
      | some hv => exact ⟨_, rfl, hv⟩
    · rw [if_neg (by omega), if_neg (by omega)] at h ⊢
      exact arg?_deep deep index rest v h

theorem truncate_shallow {depth : Nat} (shallow : depth ≤ ι.depth) : ∀ {frame frame' : Frame},
    Frame.Inlined ι true frame frame' → List.Forall₂ (Activation.Inlined ι) (frame.truncate depth) (frame'.truncate depth)
  | _, frame', .body around => by
    rw [truncate_cons_of_lt _ (by show depth < ι.depth + 1; omega), ← truncate_truncate shallow frame']
    exact truncate_forall₂ (fun h => h.same.1) around depth
  | _, _, .enter deep _ rest => by
    rw [truncate_cons_of_lt _ (by dsimp only; omega), truncate_cons_of_lt _ (by dsimp only; omega)]
    exact truncate_shallow shallow rest

theorem truncate_deep {depth : Nat} (deep : ι.depth ≤ depth) : ∀ {frame frame' : Frame},
    Frame.Inlined ι true frame frame' → Frame.Inlined ι true (frame.truncate (depth + 1)) (frame'.truncate depth)
  | _, frame', .body around => by
    rw [truncate_cons_of_le _ (by show ι.depth + 1 ≤ depth + 1; omega)]
    exact .body (by rw [truncate_truncate deep]; exact around)
  | _, ⟨d, _⟩ :: _, .enter hd given rest => by
    rcases Nat.lt_or_ge depth d with hlt | hge
    · rw [truncate_cons_of_lt _ (by show depth + 1 < d + 1; omega), truncate_cons_of_lt _ hlt]
      exact truncate_deep deep rest
    · rw [truncate_cons_of_le _ (by show d + 1 ≤ depth + 1; omega), truncate_cons_of_le _ hge]
      exact .enter hd given rest

end Frame

/-- **A function made where it is mentioned**, by inlined code in inlined frames. -/
theorem inlined_close {inside : Bool} {d d' : Definition} (reached : d.Reached ι inside d') {frame frame' : Frame}
    (hframe : Frame.Inlined ι inside frame frame') : (close d frame).Inlined ι (close d' frame') := by
  cases reached with
  | outside home shallow =>
    refine .function (.outside home) (.outside ?_) .nil
    cases inside with
    | false =>
      obtain ⟨pointwise⟩ := hframe
      exact Frame.truncate_forall₂ (fun h => h.same.1) pointwise _
    | true => exact Frame.truncate_shallow (by have := shallow rfl; omega) hframe
  | inside here new deep =>
    subst here
    refine .function (.inside new deep) ?_ .nil
    have cut : d'.deeper.depth - 1 = (d'.depth - 1) + 1 := by
      show d'.depth + 1 - 1 = d'.depth - 1 + 1
      omega
    rw [cut]
    exact Frame.truncate_deep (by omega) hframe

/-! ### What was there before stands for itself -/

theorem Value.Sound.inlined {v : Value} (sound : v.Sound ι.world ι.workspace) : v.Inlined ι v := by
  induction sound with
  | plain h => exact .plain h
  | function home _ _ _ _ _ inside given =>
    refine .function (.outside home) (.outside (List.forall₂_same.2 ?_)) (List.forall₂_same.2 given)
    rintro ⟨depth, args⟩ mem
    exact .mk depth (List.forall₂_same.2 (inside _ mem))

section

variable {inside : Bool} {L : Layout} (shallow : inside = true → L.length ≤ ι.depth)

include shallow

theorem Inlining.depth_le {env : Env} (live : ι.world.live env) (layout : ι.workspace.layout env.path <+: L) :
    inside = true → env.depth ≤ ι.depth := by
  intro here
  rw [← ι.ok.depth env live]
  exact Nat.le_trans layout.length_le (shallow here)

theorem Inlining.param_depth_le {depth index : Nat} (has : L.Has depth index) : inside = true → depth ≤ ι.depth := by
  intro here
  obtain ⟨k, m, rfl, found, -⟩ := has
  have := (List.getElem?_eq_some_iff.1 found).1
  have := shallow here
  omega

theorem Inlining.reached {d : Definition} {env : Env} (home : ι.world.home d env) (layout : ι.workspace.layout env.path <+: L) :
    d.Reached ι inside d := by
  obtain ⟨live, depth, -⟩ := ι.ok.homes d env home
  refine .outside home (fun here => ?_)
  have := ι.depth_le shallow live layout here
  omega

/-- **Code that was there before** does the same on both sides, inside the body if it can be used there. -/
theorem Node.Addressed.inlined {node : Node} (addressed : node.Addressed ι.world ι.workspace (fun _ _ => True) L)
    (every : node.Every Discipline.standard.node) : node.Inlined ι inside node := by
  induction addressed with
  | @mk node root refers _ ih =>
    have children : ∀ x ∈ node.children, x.Inlined ι inside x := fun x hx => ih x hx (every.children x hx)
    have looked : ∀ {name env}, ι.world.Names ι.workspace L name env → env.Reached ι inside env :=
      fun names => .outside names.1 (ι.depth_le shallow names.1 names.2.1)
    cases node with
    | constant v => exact .constant (Value.Sound.inlined refers)
    | param name depth index => exact .param name index (ι.param_depth_le shallow refers)
    | kernel name label operands compute => exact .kernel name label every.here (List.forall₂_same.2 children)
    | conditional label condition yes no =>
      exact .conditional label (children _ (by simp [Node.children])) (children _ (by simp [Node.children]))
        (children _ (by simp [Node.children]))
    | sequence label items => exact .sequence label (List.forall₂_same.2 children)
    | lambda d body =>
      obtain ⟨env, home, -, layout⟩ := refers
      exact .lambda body body (ι.reached shallow home layout)
    | functionRef name env => exact .functionRef name (looked refers)
    | invoke name site env args => exact .invoke name site (looked refers) (List.forall₂_same.2 children)
    | apply site callee args =>
      exact .apply site (children callee List.mem_cons_self)
        (List.forall₂_same.2 (fun x hx => children x (List.mem_cons_of_mem _ hx)))
    | worker query label => exact .worker query label
    | fetch label key => exact .fetch label (children key List.mem_cons_self)

end

namespace Inlining

variable (ι : Inlining) {inside : Bool}

theorem lookup_old {env : Env} (live : ι.world.live env) (shallow : inside = true → env.depth ≤ ι.depth) (name : String) :
    Option.Rel (Binding.Inlined ι inside) (ι.workspace.lookup env name) (ι.workspace.lookup env name) := by
  cases bound : ι.workspace.lookup env name with
  | none => exact .none
  | some b =>
    obtain ⟨env₀, live₀, layout, sound⟩ := ι.ok.lookup live bound
    have shallow₀ : inside = true → (ι.workspace.layout env₀.path).length ≤ ι.depth := by
      intro here
      have := layout.length_le
      rw [ι.ok.depth env live] at this
      exact Nat.le_trans this (shallow here)
    cases b with
    | value node =>
      exact .some (.value (sound.inlined shallow₀ ((ι.holds.lookup_value bound).imp (fun _ h => h.1))))
    | function d => exact .some (.function (ι.reached shallow₀ sound List.prefix_rfl))
    | param depth index => exact .some (.param index (ι.param_depth_le shallow₀ sound))

theorem body_old {d : Definition} {env : Env} (home : ι.world.home d env) :
    ∃ body, ι.workspace.body? d = some body ∧ body.Inlined ι false body := by
  obtain ⟨body, known, addressed⟩ := ι.ok.bodies d env home id
  exact ⟨body, known, addressed.inlined (fun h => by cases h) ((ι.holds.body known).imp (fun _ h => h.1))⟩

end Inlining

end

end ChainCalc
