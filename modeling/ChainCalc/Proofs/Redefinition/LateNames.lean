import ChainCalc.Proofs.Addressing.History
/-!
# Late names — the function names that a call can come to look up

A variable is part of the nodes that mention it, but a function is looked up by its name each time.  The nodes and
functions that a call can come to are those in the tree of what is called, in the functions that it holds or makes, and in
whatever the names among them stand for now (`Workspace.MeetsNode`, `Workspace.MeetsFunction`).  In two workspaces that
agree on the bodies of these functions and on these names the call goes the same way, step by step (`Closed.lawful`).
-/
namespace ChainCalc

/-! ### What a call can come to -/

/-- The functions that a value holds: itself, those it has captured, and those it has been given. -/
inductive Value.Holds (d : Definition) : Value → Prop
  | self (captured : List Activation) (applied : List Value) : Holds d (.function ⟨d, captured, applied⟩)
  | captured {e : Definition} {captured : List Activation} {applied : List Value} {a : Activation} {v : Value}
      (mem : a ∈ captured) (arg : v ∈ a.args) (h : Holds d v) : Holds d (.function ⟨e, captured, applied⟩)
  | applied {e : Definition} {captured : List Activation} {applied : List Value} {v : Value} (mem : v ∈ applied)
      (h : Holds d v) : Holds d (.function ⟨e, captured, applied⟩)

/-- The function name that a node looks up when it is evaluated, and where. -/
def Node.late? : Node → Option (String × Env)
  | .functionRef name env => some (name, env)
  | .invoke name _ env _ => some (name, env)
  | _ => none

namespace Workspace

mutual

/-- **The nodes that a call can come to**, from given values on. -/
inductive MeetsNode (w : Workspace) (roots : List Value) : Node → Prop
  | body {d : Definition} {node : Node} (met : MeetsFunction w roots d) (known : w.body? d = some node) :
      MeetsNode w roots node
  | child {node x : Node} (met : MeetsNode w roots node) (mem : x ∈ node.children) : MeetsNode w roots x
  | mention {node x : Node} {name : String} {env : Env} (met : MeetsNode w roots node)
      (late : node.late? = some (name, env)) (bound : w.lookup env name = some (.value x)) : MeetsNode w roots x

/-- **The functions that a call can come to**, from given values on. -/
inductive MeetsFunction (w : Workspace) (roots : List Value) : Definition → Prop
  | root {v : Value} {d : Definition} (mem : v ∈ roots) (holds : v.Holds d) : MeetsFunction w roots d
  | constant {v : Value} {d : Definition} (met : MeetsNode w roots (.constant v)) (holds : v.Holds d) :
      MeetsFunction w roots d
  | lambda {d : Definition} {body : Option Node} (met : MeetsNode w roots (.lambda d body)) : MeetsFunction w roots d
  | function {node : Node} {name : String} {env : Env} {d : Definition} (met : MeetsNode w roots node)
      (late : node.late? = some (name, env)) (bound : w.lookup env name = some (.function d)) : MeetsFunction w roots d
  | stored {label key : String} {x : Node} {s : Store} {v : Value} {d : Definition}
      (met : MeetsNode w roots (.fetch label x)) (store : w.store = some s) (found : s.get? key = some v)
      (holds : v.Holds d) : MeetsFunction w roots d

end

/-- **A late name of a call**: a function name that a node which the call can come to looks up. -/
def LateName (w : Workspace) (roots : List Value) (name : String) : Prop :=
  ∃ node env, w.MeetsNode roots node ∧ node.late? = some (name, env)

structure Closed (w : Workspace) (N : Node → Prop) (D : Definition → Prop) : Prop where
  body : ∀ {d node}, D d → w.body? d = some node → N node
  child : ∀ {node x}, N node → x ∈ node.children → N x
  mention : ∀ {node x name env}, N node → node.late? = some (name, env) → w.lookup env name = some (.value x) → N x
  constant : ∀ {v d}, N (.constant v) → v.Holds d → D d
  lambda : ∀ {d body}, N (.lambda d body) → D d
  function : ∀ {node name env d}, N node → node.late? = some (name, env) → w.lookup env name = some (.function d) → D d
  stored : ∀ {label x s key v d}, N (.fetch label x) → w.store = some s → s.get? key = some v → v.Holds d → D d

theorem closed_meets (w : Workspace) (roots : List Value) : w.Closed (w.MeetsNode roots) (w.MeetsFunction roots) :=
  ⟨.body, .child, .mention, .constant, .lambda, .function, .stored⟩

section

variable {w : Workspace} {N : Node → Prop} {D : Definition → Prop} {roots : List Value}

mutual

/-- What a call can come to is the least that is closed. -/
theorem Closed.node (closed : w.Closed N D) (start : ∀ v ∈ roots, ∀ d, v.Holds d → D d) :
    ∀ {node : Node}, w.MeetsNode roots node → N node
  | _, .body met known => closed.body (closed.definition start met) known
  | _, .child met mem => closed.child (closed.node start met) mem
  | _, .mention met late bound => closed.mention (closed.node start met) late bound

theorem Closed.definition (closed : w.Closed N D) (start : ∀ v ∈ roots, ∀ d, v.Holds d → D d) :
    ∀ {d : Definition}, w.MeetsFunction roots d → D d
  | _, .root mem holds => start _ mem _ holds
  | _, .constant met holds => closed.constant (closed.node start met) holds
  | _, .lambda met => closed.lambda (closed.node start met)
  | _, .function met late bound => closed.function (closed.node start met) late bound
  | _, .stored met store found holds => closed.stored (closed.node start met) store found holds

end

end

end Workspace

/-! ### Values and frames that hold no other functions -/

def Value.Within (D : Definition → Prop) (v : Value) : Prop := ∀ d, v.Holds d → D d

def Frame.Within (D : Definition → Prop) (frame : Frame) : Prop := ∀ a ∈ frame, ∀ v ∈ a.args, v.Within D

theorem Value.within_of_plain {D : Definition → Prop} {v : Value} (h : v.asFunction? = none) : v.Within D := by
  intro d holds
  cases holds <;> cases h

theorem Value.within_function {D : Definition → Prop} {d : Definition} {captured : List Activation} {applied : List Value}
    (definition : D d) (frame : Frame.Within D captured) (args : ∀ v ∈ applied, v.Within D) :
    (Value.function ⟨d, captured, applied⟩).Within D := by
  intro d' holds
  cases holds with
  | self => exact definition
  | captured mem arg h => exact frame _ mem _ arg _ h
  | applied mem h => exact args _ mem _ h

theorem Frame.mem_of_arg? {depth index : Nat} {v : Value} : ∀ {frame : Frame}, frame.arg? depth index = some v →
    ∃ a ∈ frame, v ∈ a.args
  | ⟨d, args⟩ :: outer, h => by
    rw [Frame.arg?] at h
    split at h
    · exact ⟨_, List.mem_cons_self, List.mem_of_getElem? h⟩
    · split at h
      · cases h
      · obtain ⟨a, ha, hv⟩ := Frame.mem_of_arg? h
        exact ⟨a, List.mem_cons_of_mem _ ha, hv⟩

section

variable {D : Definition → Prop} {frame : Frame}

theorem within_close (within : frame.Within D) {d : Definition} (definition : D d) : (close d frame).Within D :=
  Value.within_function definition (fun a ha => within a (Frame.mem_truncate ha)) (fun _ hv => by cases hv)

theorem Frame.Within.arg? (within : frame.Within D) (depth index : Nat) :
    Option.Rel (fun v v' => v.Within D ∧ v = v') (frame.arg? depth index) (frame.arg? depth index) := by
  cases found : frame.arg? depth index with
  | none => exact .none
  | some v =>
    obtain ⟨a, ha, hv⟩ := Frame.mem_of_arg? found
    exact .some ⟨within a ha v hv, rfl⟩

end

/-! ### Calls that go the same way -/

def Workspace.confined (w : Workspace) (N : Node → Prop) (D : Definition → Prop) : Tandem where
  value v v' := v.Within D ∧ v = v'
  context ctx ctx' := ctx.store = w.store ∧ ctx = ctx'
  node x frame ctx x' frame' ctx' := (N x ∧ frame.Within D ∧ ctx.store = w.store) ∧ x = x' ∧ frame = frame' ∧ ctx = ctx'
  text := Eq

theorem eq_of_forall₂_and {α : Type} {P : α → Prop} {as bs : List α} (h : List.Forall₂ (fun a b => P a ∧ a = b) as bs) :
    (∀ a ∈ as, P a) ∧ as = bs := by
  obtain ⟨each, same⟩ := (List.forall₂_and_left as bs).1 h
  exact ⟨each, by rwa [← List.forall₂_eq_eq_eq]⟩

namespace Workspace.Closed

variable {w w' : Workspace} {N : Node → Prop} {D : Definition → Prop} (closed : w.Closed N D)

include closed

section

variable {node : Node} {frame : Frame} {ctx : Context} (met : N node) (within : frame.Within D) (store : ctx.store = w.store)

include met within store

theorem bound {name : String} {env : Env} (late : node.late? = some (name, env))
    (same : w'.lookup env name = w.lookup env name) :
    Option.Rel ((w.confined N D).Bound .agrees w' frame ctx frame ctx name) (w.lookup env name) (w'.lookup env name) := by
  rw [same]
  cases found : w.lookup env name with
  | none => exact .none
  | some b =>
    refine .some ?_
    cases b with
    | value x => exact .value ⟨⟨closed.mention met late found, within, store⟩, rfl, rfl, rfl⟩
    | function d => exact .function ⟨within_close within (closed.function met late found), rfl⟩
    | param depth index => exact .param (Tandem.argument_holds (Run.agrees_fail _ _) (within.arg? depth index))

/-- **A node that can be come to goes abreast with itself**, if its name stands for the same on both sides. -/
theorem abreast (plain : ∀ name label xs compute, N (.kernel name label xs compute) → compute.Plain)
    (names : ∀ node name env, N node → node.late? = some (name, env) → w'.lookup env name = w.lookup env name) :
    (w.confined N D).Abreast .agrees w w' frame ctx frame ctx node node := by
  have here : ∀ x ∈ node.children, (w.confined N D).node x frame ctx x frame ctx :=
    fun x hx => ⟨⟨closed.child met hx, within, store⟩, rfl, rfl, rfl⟩
  have bound : ∀ {name env}, node.late? = some (name, env) →
      Option.Rel ((w.confined N D).Bound .agrees w' frame ctx frame ctx name) (w.lookup env name) (w'.lookup env name) :=
    fun late => closed.bound met within store late (names _ _ _ met late)
  cases node with
  | constant v => exact .leaf (fun _ _ => Run.agrees_pure ⟨fun d holds => closed.constant met holds, rfl⟩)
  | param name depth index =>
    exact .leaf (fun _ _ => Tandem.argument_holds (Run.agrees_fail _ _) (within.arg? depth index))
  | kernel name label operands compute =>
    refine .kernel (List.forall₂_same.2 here) rfl (fun vs vs' hvs => ?_)
    obtain ⟨-, rfl⟩ := eq_of_forall₂_and hvs
    cases hc : compute vs with
    | ok v => exact .ok ⟨Value.within_of_plain ((plain _ _ _ _ met vs).1 v hc), rfl⟩
    | error fault => exact .error fault
  | conditional label condition yes no =>
    exact .conditional (here condition (by simp [Node.children])) (here yes (by simp [Node.children]))
      (here no (by simp [Node.children]))
  | sequence label items => exact .sequence (List.forall₂_same.2 here)
  | lambda d body => exact .leaf (fun _ _ => Run.agrees_pure ⟨within_close within (closed.lambda met), rfl⟩)
  | functionRef name env => exact .functionRef (bound rfl)
  | invoke name site env args => exact .invoke (bound rfl) (List.forall₂_same.2 here) rfl
  | apply site callee args =>
    exact .apply (here callee List.mem_cons_self) rfl
      (List.forall₂_same.2 (fun x hx => here x (List.mem_cons_of_mem _ hx))) rfl
  | worker query label => exact .worker
  | fetch label key =>
    refine .fetch (here key List.mem_cons_self) ?_
    cases stored : ctx.store with
    | none => exact .none
    | some s =>
      refine .some (fun key => ?_)
      cases found : s.get? key with
      | none => exact .none
      | some v => exact .some ⟨fun d holds => closed.stored met (store ▸ stored) found holds, rfl⟩

end

/-- **A function that can be come to** is entered in the same way on both sides. -/
theorem entered (bodies : ∀ d, D d → w'.body? d = w.body? d) {f : Closure} (hf : (Value.function f).Within D) :
    (w.confined N D).Entered w w' f f := by
  obtain ⟨d, captured, applied⟩ := f
  have definition : D d := hf d (.self _ _)
  have frame : Frame.Within D captured := fun a ha v hv e he => hf e (.captured ha hv he)
  refine ⟨rfl, rfl, List.forall₂_same.2 (fun v hv => ⟨fun e he => hf e (.applied hv he), rfl⟩), fun vs vs' hvs => ?_,
    fun vs vs' hvs => ?_⟩
  · obtain ⟨all, rfl⟩ := eq_of_forall₂_and hvs
    exact ⟨Value.within_function definition frame all, rfl⟩
  · obtain ⟨all, rfl⟩ := eq_of_forall₂_and hvs
    rw [bodies d definition]
    cases known : w.body? d with
    | none => exact .none
    | some body =>
      refine .some (fun inner _ hinner => ?_)
      obtain ⟨store, rfl⟩ := hinner
      exact ⟨⟨closed.body definition known, List.forall_mem_cons.2 ⟨all, frame⟩, store⟩, rfl, rfl, rfl⟩

/-- **Where two workspaces agree on all names and bodies that a call can come to, it goes the same way in both**: every value
on the way holds only functions that can be come to. -/
theorem lawful (plain : ∀ name label xs compute, N (.kernel name label xs compute) → compute.Plain)
    (names : ∀ node name env, N node → node.late? = some (name, env) → w'.lookup env name = w.lookup env name)
    (bodies : ∀ d, D d → w'.body? d = w.body? d) : (w.confined N D).Lawful .agrees w w' where
  shape {v _} h := by
    obtain ⟨-, rfl⟩ := h
    exact Tandem.shape_refl v
  plain h := ⟨Value.within_of_plain h, rfl⟩
  text _ := rfl
  fail hctx text fault := by
    obtain ⟨-, rfl⟩ := hctx
    cases text
    exact Run.agrees_fail _ _ fault
  push {ctx _ name _ site _} hctx named called := by
    obtain ⟨store, rfl⟩ := hctx
    cases named
    cases called
    refine Run.agrees_ofExcept ?_
    cases pushed : ctx.push name site with
    | ok inner => exact .ok ⟨(Context.store_of_push pushed).trans store, rfl⟩
    | error e => exact .error e
  locality hctx := by
    obtain ⟨-, rfl⟩ := hctx
    rfl
  context h := ⟨h.1.2.2, h.2.2.2⟩
  node := by
    rintro x frame ctx _ _ _ ⟨⟨met, within, store⟩, rfl, rfl, rfl⟩
    exact closed.abreast met within store plain names
  call {f _} hf := by
    obtain ⟨within, same⟩ := hf
    cases same
    exact closed.entered bodies within

end Workspace.Closed

end ChainCalc
