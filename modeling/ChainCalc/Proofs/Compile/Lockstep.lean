import ChainCalc.Proofs.Compile.Outcome
import ChainCalc.Proofs.Table
import Mathlib.Data.List.Forall2
/-!
# Compilations side by side

A correspondence says which workspaces, environments, nodes and functions stand for which others; it may grow while both
sides make new scopes and functions.  If what stands for each other means the same to the compiler (the fields of
`Correspondence`) and the factories of a registry respect it (`Correspondence.Suits`), then an expression compiled on both
sides gives nodes that stand for each other, or is refused on both sides with the same error (`mirrors_compile`), and so
does a unit (`mirrors_compileUnit`).
-/
namespace ChainCalc

open CompileM

/-! ### Correspondences -/

def Binding.reference (name : String) : Binding → Option Node
  | .value node => some node
  | .function _ => none
  | .param depth index => some (.param name depth index)

/-- **What stands for what on two sides**, as far as both have come; all of it stays as it is when they go on. -/
structure Correspondence (κ : Type) where
  le : κ → κ → Prop
  workspace : κ → Workspace → Workspace → Prop
  env : κ → Env → Env → Prop
  definition : κ → Definition → Definition → Prop
  node : κ → Node → Node → Prop
  binding : κ → Binding → Binding → Prop
  refl : ∀ k, le k k
  trans : ∀ {k k₁ k₂}, le k k₁ → le k₁ k₂ → le k k₂
  env_mono : ∀ {k k₁ e e'}, le k k₁ → env k e e' → env k₁ e e'
  definition_mono : ∀ {k k₁ d d'}, le k k₁ → definition k d d' → definition k₁ d d'
  node_mono : ∀ {k k₁ x x'}, le k k₁ → node k x x' → node k₁ x x'
  binding_mono : ∀ {k k₁ b b'}, le k k₁ → binding k b b' → binding k₁ b b'
  literal : ∀ {k} (l : Literal), node k (.constant l.value) (.constant l.value)
  sequence : ∀ {k xs xs'} label, List.Forall₂ (node k) xs xs' → node k (.sequence label xs) (.sequence label xs')
  apply : ∀ {k x x' xs xs'} site, node k x x' → List.Forall₂ (node k) xs xs' → node k (.apply site x xs) (.apply site x' xs')
  functionRef : ∀ {k e e'} name, env k e e' → node k (.functionRef name e) (.functionRef name e')
  invoke : ∀ {k e e' xs xs'} name site, env k e e' → List.Forall₂ (node k) xs xs' →
    node k (.invoke name site e xs) (.invoke name site e' xs')
  lambda : ∀ {k d d'} body body', definition k d d' → node k (.lambda d body) (.lambda d' body')
  value : ∀ {k x x'}, node k x x' → binding k (.value x) (.value x')
  function : ∀ {k d d'}, definition k d d' → binding k (.function d) (.function d')
  reference : ∀ {k b b'}, binding k b b' → ∀ name, Option.Rel (node k) (b.reference name) (b'.reference name)
  lookup : ∀ {k w w' e e'}, workspace k w w' → env k e e' → ∀ name,
    Option.Rel (binding k) (w.lookup e name) (w'.lookup e' name)
  childEnv : ∀ {k w w' e e'}, workspace k w w' → env k e e' → ∃ k₁, le k k₁ ∧
    workspace k₁ (w.childEnv e).2 (w'.childEnv e').2 ∧ env k₁ (w.childEnv e).1 (w'.childEnv e').1
  functionEnv : ∀ {k w w' e e'}, workspace k w w' → env k e e' → ∀ params, ∃ k₁, le k k₁ ∧
    workspace k₁ (w.functionEnv e params).2 (w'.functionEnv e' params).2 ∧
    env k₁ (w.functionEnv e params).1 (w'.functionEnv e' params).1
  declare : ∀ {k w w' e e'}, workspace k w w' → env k e e' → ∀ name params, ∃ k₁, le k k₁ ∧
    workspace k₁ (w.declare name params (e.depth + 1)).2 (w'.declare name params (e'.depth + 1)).2 ∧
    definition k₁ (w.declare name params (e.depth + 1)).1 (w'.declare name params (e'.depth + 1)).1
  define : ∀ {k w w' e e' b b'}, workspace k w w' → env k e e' → binding k b b' → ∀ name,
    workspace k (w.define e name b).2 (w'.define e' name b').2 ∧
    Option.Rel (binding k) (w.define e name b).1 (w'.define e' name b').1
  restore : ∀ {k w w' e e' p p'}, workspace k w w' → env k e e' → Option.Rel (binding k) p p' → ∀ name,
    workspace k (w.restore e name p) (w'.restore e' name p')
  setBody : ∀ {k w w' d d' x x'}, workspace k w w' → definition k d d' → node k x x' →
    workspace k (w.setBody d x) (w'.setBody d' x')

structure Bound.Alike (N : Node → Node → Prop) (b b' : Bound) : Prop where
  primitive : b'.primitive = b.primitive
  nodes : b.nodes.Parallel (List.Forall₂ N) b'.nodes

namespace Correspondence

variable {κ α β γ δ : Type} (C : Correspondence κ)

/-- **The factories of a registry make of what stands for each other what stands for each other.** -/
def Suits (registry : Registry) : Prop :=
  ∀ entry ∈ registry.entries, ∀ k b b' name label, Bound.Alike (C.node k) b b' →
    Concur (C.node k) (entry.factory b name label) (entry.factory b' name label)

def Ended {ε : Type} (R : κ → α → β → Prop) (k : κ) (p : Except ε α × Workspace) (q : Except ε β × Workspace) : Prop :=
  ∃ k₁, C.le k k₁ ∧ C.workspace k₁ p.2 q.2 ∧ Concur (R k₁) p.1 q.1

/-- **The two computations go alike** from any workspaces that correspond further on than `k`: both run out of steps, or
both come to the same end. -/
def Mirrors (R : κ → α → β → Prop) (k : κ) (x : CompileM α) (y : CompileM β) : Prop :=
  ∀ k₁, C.le k k₁ → ∀ w w' : Workspace, C.workspace k₁ w w' → Option.Rel (C.Ended R k₁) (x.run w) (y.run w')

variable {C} {R : κ → α → β → Prop} {S : κ → γ → δ → Prop} {k : κ}

theorem Mirrors.mono {x : CompileM α} {y : CompileM β} (h : C.Mirrors R k x y) {k₁ : κ} (le : C.le k k₁) :
    C.Mirrors R k₁ x y := fun k₂ le₂ => h k₂ (C.trans le le₂)

theorem Mirrors.gives {x : CompileM α} {y : CompileM β} (h : C.Mirrors R k x y) {w w' w₁ : Workspace}
    (hw : C.workspace k w w') {a : α} (made : x.Gives w a w₁) :
    ∃ b w₁' k₁, y.Gives w' b w₁' ∧ C.workspace k₁ w₁ w₁' ∧ R k₁ a b := by
  have hrun := h k (C.refl k) w w' hw
  rw [show x.run w = some (.ok a, w₁) from made] at hrun
  generalize hr : y.run w' = r at hrun
  cases hrun with
  | @some _ q ended =>
    obtain ⟨s, w₁'⟩ := q
    obtain ⟨k₁, -, hw₁, concur⟩ := ended
    cases concur with
    | ok hab => exact ⟨_, w₁', k₁, hr, hw₁, hab⟩

theorem Mirrors.gives' {x : CompileM α} {y : CompileM β} (h : C.Mirrors R k x y) {w w' w₁' : Workspace}
    (hw : C.workspace k w w') {b : β} (made : y.Gives w' b w₁') :
    ∃ a w₁ k₁, x.Gives w a w₁ ∧ C.workspace k₁ w₁ w₁' ∧ R k₁ a b := by
  have hrun := h k (C.refl k) w w' hw
  rw [show y.run w' = some (.ok b, w₁') from made] at hrun
  generalize hr : x.run w = r at hrun
  cases hrun with
  | @some p _ ended =>
    obtain ⟨s, w₁⟩ := p
    obtain ⟨k₁, -, hw₁, concur⟩ := ended
    cases concur with
    | ok hab => exact ⟨_, w₁, k₁, hr, hw₁, hab⟩

theorem mirrors_outOfSteps : C.Mirrors R k (outOfSteps : CompileM α) (outOfSteps : CompileM β) := fun _ _ _ _ _ => .none

theorem mirrors_settled {r : Except CompileError α} {s : Except CompileError β}
    (h : ∀ k₁, C.le k k₁ → Concur (R k₁) r s) : C.Mirrors R k (settled r) (settled s) :=
  fun k₁ le _ _ hw => .some ⟨k₁, C.refl k₁, hw, h k₁ le⟩

theorem mirrors_pure {a : α} {b : β} (h : ∀ k₁, C.le k k₁ → R k₁ a b) : C.Mirrors R k (pure a : CompileM α) (pure b) :=
  mirrors_settled (fun k₁ le => .ok (h k₁ le))

theorem mirrors_fail (e : CompileError) : C.Mirrors R k (fail e : CompileM α) (fail e : CompileM β) :=
  mirrors_settled (fun _ _ => .error e)

theorem Mirrors.bind {x : CompileM α} {y : CompileM β} {f : α → CompileM γ} {g : β → CompileM δ} (hxy : C.Mirrors R k x y)
    (hfg : ∀ k₁, C.le k k₁ → ∀ a b, R k₁ a b → C.Mirrors S k₁ (f a) (g b)) : C.Mirrors S k (x >>= f) (y >>= g) := by
  intro k₁ le₁ w w' hw
  have hrun := hxy k₁ le₁ w w' hw
  rw [run_bind, run_bind]
  generalize x.run w = p at hrun ⊢
  generalize y.run w' = q at hrun ⊢
  cases hrun with
  | none => exact .none
  | @some p q h =>
    obtain ⟨r, w₁⟩ := p
    obtain ⟨s, w₁'⟩ := q
    obtain ⟨k₂, le₂, hw₁, hrs⟩ := h
    cases hrs with
    | error e => exact .some ⟨k₂, le₂, hw₁, .error e⟩
    | ok hab =>
      have hnext := hfg k₂ (C.trans le₁ le₂) _ _ hab k₂ (C.refl k₂) w₁ w₁' hw₁
      exact optionRel_imp (fun _ _ ⟨k₃, le₃, h⟩ => ⟨k₃, C.trans le₂ le₃, h⟩) hnext

theorem mirrors_same {x : CompileM α} {r : Except CompileError α} (h : x = settled r) {f g : α → CompileM γ}
    {S : κ → γ → γ → Prop} (hfg : ∀ a, r = .ok a → C.Mirrors S k (f a) (g a)) : C.Mirrors S k (x >>= f) (x >>= g) := by
  subst h
  refine Mirrors.bind (R := fun _ a b => b = a ∧ r = .ok a) (mirrors_settled (fun _ _ => ?_)) (fun k₁ le₁ a b hab => ?_)
  · cases r with
    | ok a => exact .ok ⟨rfl, rfl⟩
    | error e => exact .error e
  · obtain ⟨rfl, hr⟩ := hab
    exact (hfg _ hr).mono le₁

theorem mirrors_update {f : Workspace → α × Workspace} {g : Workspace → β × Workspace}
    (h : ∀ k₁, C.le k k₁ → ∀ w w' : Workspace, C.workspace k₁ w w' →
      ∃ k₂, C.le k₁ k₂ ∧ C.workspace k₂ (f w).2 (g w').2 ∧ R k₂ (f w).1 (g w').1) :
    C.Mirrors R k (update f) (update g) := by
  intro k₁ le₁ w w' hw
  obtain ⟨k₂, le₂, hw₂, hR⟩ := h k₁ le₁ w w' hw
  exact .some ⟨k₂, le₂, hw₂, .ok hR⟩

theorem Mirrors.onError {x : CompileM α} {y : CompileM β} {cleanup cleanup' : Workspace → Workspace}
    (hxy : C.Mirrors R k x y)
    (hc : ∀ k₁, C.le k k₁ → ∀ w w' : Workspace, C.workspace k₁ w w' → C.workspace k₁ (cleanup w) (cleanup' w')) :
    C.Mirrors R k (onError x cleanup) (onError y cleanup') := by
  intro k₁ le₁ w w' hw
  have hrun := hxy k₁ le₁ w w' hw
  rw [run_onError, run_onError]
  generalize x.run w = p at hrun ⊢
  generalize y.run w' = q at hrun ⊢
  cases hrun with
  | none => exact .none
  | @some p q h =>
    obtain ⟨r, w₁⟩ := p
    obtain ⟨s, w₁'⟩ := q
    obtain ⟨k₂, le₂, hw₁, hrs⟩ := h
    cases hrs with
    | error e => exact .some ⟨k₂, le₂, hc k₂ (C.trans le₁ le₂) _ _ hw₁, .error e⟩
    | ok hab => exact .some ⟨k₂, le₂, hw₁, .ok hab⟩

theorem mirrors_mapM {ι : Type} {f : ι → CompileM α} {g : ι → CompileM β}
    (mono : ∀ {k k₁ : κ} {a : α} {b : β}, C.le k k₁ → R k a b → R k₁ a b) :
    ∀ {k : κ}, (∀ i, C.Mirrors R k (f i) (g i)) → ∀ l : List ι,
      C.Mirrors (fun k => List.Forall₂ (R k)) k (l.mapM f) (l.mapM g)
  | _, _, [] => by
    rw [List.mapM_nil, List.mapM_nil]
    exact mirrors_pure (fun _ _ => .nil)
  | _, h, i :: l => by
    rw [List.mapM_cons, List.mapM_cons]
    refine (h i).bind (fun k₁ le₁ a b hab => ?_)
    refine (mirrors_mapM mono (fun i => (h i).mono le₁) l).bind (fun k₂ le₂ as bs hrest => ?_)
    exact mirrors_pure (fun k₃ le₃ => .cons (mono (C.trans le₂ le₃) hab) (hrest.imp (fun _ _ h => mono le₃ h)))

/-! ### Changes to workspaces -/

section

variable {env env' : Env} (henv : C.env k env env')

include henv

theorem mirrors_childEnv : C.Mirrors C.env k (update (fun w => w.childEnv env)) (update (fun w => w.childEnv env')) :=
  mirrors_update (fun _ le _ _ hw => C.childEnv hw (C.env_mono le henv))

theorem mirrors_functionEnv (params : List String) :
    C.Mirrors (fun k s s' => C.env k s s' ∧ s.depth = env.depth + 1 ∧ s'.depth = env'.depth + 1) k
      (update (fun w => w.functionEnv env params)) (update (fun w => w.functionEnv env' params)) := by
  refine mirrors_update (fun k₁ le w w' hw => ?_)
  obtain ⟨k₂, le₂, hw₂, hscope⟩ := C.functionEnv hw (C.env_mono le henv) params
  exact ⟨k₂, le₂, hw₂, hscope, rfl, rfl⟩

theorem mirrors_declare (name : String) (params : List String) :
    C.Mirrors C.definition k (update (fun w => w.declare name params (env.depth + 1)))
      (update (fun w => w.declare name params (env'.depth + 1))) :=
  mirrors_update (fun _ le _ _ hw => C.declare hw (C.env_mono le henv) name params)

theorem mirrors_define (name : String) {b b' : Binding} (hb : C.binding k b b') :
    C.Mirrors (fun k => Option.Rel (C.binding k)) k (update (fun w => w.define env name b))
      (update (fun w => w.define env' name b')) := by
  refine mirrors_update (fun k₁ le w w' hw => ?_)
  obtain ⟨hw₁, hp⟩ := C.define hw (C.env_mono le henv) (C.binding_mono le hb) name
  exact ⟨k₁, C.refl k₁, hw₁, hp⟩

theorem mirrors_lookup (name : String) :
    C.Mirrors (fun k => Option.Rel (C.binding k)) k (view (fun w => w.lookup env name)) (view (fun w => w.lookup env' name)) :=
  mirrors_update (fun k₁ le _ _ hw => ⟨k₁, C.refl k₁, hw, C.lookup hw (C.env_mono le henv) name⟩)

end

theorem mirrors_setBody {d d' : Definition} (hd : C.definition k d d') {x x' : Node} (hx : C.node k x x') :
    C.Mirrors (fun _ _ _ => True) k (update (fun w => ((), w.setBody d x))) (update (fun w => ((), w.setBody d' x'))) :=
  mirrors_update (fun k₁ le _ _ hw =>
    ⟨k₁, C.refl k₁, C.setBody hw (C.definition_mono le hd) (C.node_mono le hx), trivial⟩)

/-! ### The parts of the compiler -/

inductive Statement (C : Correspondence κ) (k : κ) : ChainCalc.Statement → ChainCalc.Statement → Prop
  | defined (name : String) : Statement C k (.defined name) (.defined name)
  | expr {x x' : Node} (node : C.node k x x') : Statement C k (.expr x) (.expr x')

def Redefined (C : Correspondence κ) (k : κ) (p q : String × Option Binding) : Prop :=
  q.1 = p.1 ∧ Option.Rel (C.binding k) p.2 q.2

theorem Redefined.mono {k₁ : κ} (le : C.le k k₁) {p q : String × Option Binding} (h : C.Redefined k p q) :
    C.Redefined k₁ p q := ⟨h.1, optionRel_imp (fun _ _ hb => C.binding_mono le hb) h.2⟩

theorem nodes_mono {k₁ : κ} (le : C.le k k₁) {xs xs' : List Node} (h : List.Forall₂ (C.node k) xs xs') :
    List.Forall₂ (C.node k₁) xs xs' := h.imp (fun _ _ hx => C.node_mono le hx)

theorem paramNames_eq (problem : FormProblem) (whole : Expr) (args : List Expr) :
    ∃ r, paramNames problem whole args = settled r := by
  unfold paramNames
  split
  · exact ⟨.ok _, rfl⟩
  · exact ⟨.error _, rfl⟩

theorem formCaptures_settled (form candidate : Expr) : ∃ r, formCaptures form candidate = settled r := by
  unfold formCaptures
  split
  · exact ⟨.ok _, rfl⟩
  · exact ⟨.error _, rfl⟩

theorem formCapture_settled (c : Captures) (placeholder : String) : ∃ r, formCapture c placeholder = settled r := by
  unfold formCapture
  split
  · exact ⟨.ok _, rfl⟩
  · exact ⟨.error _, rfl⟩

section

variable {registry : Registry} {sub : Expr → Env → CompileM Node} (suits : C.Suits registry)
  (mirrors : ∀ {k : κ} (e : Expr) {env env' : Env}, C.env k env env' → C.Mirrors C.node k (sub e env) (sub e env'))
  {env env' : Env} (henv : C.env k env env')

include mirrors henv

theorem mirrors_compileAll (es : List Expr) :
    C.Mirrors (fun k => List.Forall₂ (C.node k)) k (compileAll sub es env) (compileAll sub es env') :=
  mirrors_mapM (R := C.node) (fun le h => C.node_mono le h) (fun e => mirrors e henv) es

theorem mirrors_compileCaptures (c : Captures) :
    C.Mirrors (fun k => Table.Parallel (List.Forall₂ (C.node k))) k (compileCaptures sub c env)
      (compileCaptures sub c env') := by
  unfold compileCaptures
  refine Mirrors.bind (R := fun k => List.Forall₂ (fun a b => a.1 = b.1 ∧ List.Forall₂ (C.node k) a.2 b.2)) ?_
    (fun k₁ le₁ groups groups' hgroups => mirrors_pure (fun k₂ le₂ => .ofList (hgroups.imp ?_)))
  · refine mirrors_mapM (fun le h => ⟨h.1, nodes_mono le h.2⟩) (fun (name, es) => ?_) _
    refine (mirrors_compileAll mirrors henv es).bind (fun k₁ le₁ nodes nodes' hnodes => ?_)
    exact mirrors_pure (fun k₂ le₂ => ⟨rfl, nodes_mono le₂ hnodes⟩)
  · exact fun _ _ h => ⟨h.1, nodes_mono le₂ h.2⟩

include suits

theorem mirrors_fromRegistry (c : Expr) :
    C.Mirrors (fun k => Option.Rel (C.node k)) k (fromRegistry registry sub c env) (fromRegistry registry sub c env') := by
  unfold fromRegistry
  cases hfind : registry.find? c with
  | none => exact mirrors_pure (fun _ _ => .none)
  | some found =>
    obtain ⟨entry, captures⟩ := found
    have hmem : entry ∈ registry.entries := by
      obtain ⟨entry', hmem, hmap⟩ := List.exists_of_findSome?_eq_some hfind
      obtain ⟨captures', -, heq⟩ := Option.map_eq_some_iff.1 hmap
      cases heq
      exact hmem
    refine (mirrors_compileCaptures mirrors henv captures).bind (fun k₁ le₁ nodes nodes' hnodes => ?_)
    refine Mirrors.bind (R := C.node) (mirrors_settled (fun k₂ le₂ => ?_))
      (fun k₂ le₂ x x' hx => mirrors_pure (fun k₃ le₃ => .some (C.node_mono le₃ hx)))
    exact suits entry hmem k₂ _ _ _ _ ⟨rfl, hnodes.imp (fun _ _ h => nodes_mono le₂ h)⟩

theorem mirrors_fromRegistryOr (c : Expr) (error : CompileError) :
    C.Mirrors C.node k (fromRegistryOr registry sub c env error) (fromRegistryOr registry sub c env' error) := by
  refine (mirrors_fromRegistry suits mirrors henv c).bind (fun k₁ le₁ x x' hx => ?_)
  cases hx with
  | some hx => exact mirrors_pure (fun k₂ le₂ => C.node_mono le₂ hx)
  | none => exact mirrors_fail error

omit suits

theorem mirrors_compileBody (body : Expr) {d d' : Definition} (hd : C.definition k d d') :
    C.Mirrors C.node k (compileBody sub body env d) (compileBody sub body env' d') := by
  refine (mirrors body henv).bind (fun k₁ le₁ x x' hx => ?_)
  refine (mirrors_setBody (C.definition_mono le₁ hd) hx).bind (fun k₂ le₂ _ _ _ => ?_)
  exact mirrors_pure (fun k₃ le₃ => C.node_mono (C.trans le₂ le₃) hx)

theorem mirrors_compileDefine (e : Expr) :
    C.Mirrors C.Redefined k (compileDefine sub e env) (compileDefine sub e env') := by
  unfold compileDefine
  cases defineForm.captures? e with
  | none => exact mirrors_fail _
  | some captures =>
    obtain ⟨named, hnamed⟩ := formCapture_settled captures "_name"
    obtain ⟨valued, hvalued⟩ := formCapture_settled captures "_value"
    refine mirrors_same hnamed (fun target _ => mirrors_same hvalued (fun value _ => ?_))
    cases target.asIdent? with
    | some name =>
      refine (mirrors value henv).bind (fun k₁ le₁ x x' hx => ?_)
      refine (mirrors_define (C.env_mono le₁ henv) name (C.value hx)).bind (fun k₂ le₂ previous previous' hp => ?_)
      exact mirrors_pure (fun k₃ le₃ => Redefined.mono le₃ ⟨rfl, hp⟩)
    | none =>
      cases target.asCall? with
      | none => exact mirrors_fail _
      | some called =>
        obtain ⟨name, args⟩ := called
        obtain ⟨names, hnames⟩ := paramNames_eq .defineParams e args
        refine mirrors_same hnames (fun params _ => ?_)
        refine (mirrors_functionEnv henv params).bind (fun k₁ le₁ scope scope' hscope => ?_)
        obtain ⟨hscope, hdepth, hdepth'⟩ := hscope
        rw [hdepth, hdepth']
        refine (mirrors_declare (C.env_mono le₁ henv) name params).bind (fun k₂ le₂ d d' hd => ?_)
        have henv₂ := C.env_mono (C.trans le₁ le₂) henv
        refine (mirrors_define henv₂ name (C.function hd)).bind (fun k₃ le₃ previous previous' hp => ?_)
        have hscope₃ := C.env_mono (C.trans le₂ le₃) hscope
        refine Mirrors.bind (R := C.node)
          ((mirrors_compileBody mirrors hscope₃ value (C.definition_mono le₃ hd)).onError ?_)
          (fun k₄ le₄ _ _ _ => mirrors_pure (fun k₅ le₅ => Redefined.mono (C.trans le₄ le₅) ⟨rfl, hp⟩))
        intro k₄ le₄ w w' hw
        exact C.restore hw (C.env_mono (C.trans le₃ le₄) henv₂) (optionRel_imp (fun _ _ hb => C.binding_mono le₄ hb) hp) name

theorem mirrors_compileStatement (e : Expr) :
    C.Mirrors C.Statement k (compileStatement sub e env) (compileStatement sub e env') := by
  unfold compileStatement
  split
  · refine (mirrors_compileDefine mirrors henv e).bind (fun k₁ le₁ p q hpq => ?_)
    obtain ⟨name, previous⟩ := p
    obtain ⟨name', previous'⟩ := q
    obtain ⟨rfl, -⟩ : name' = name ∧ _ := hpq
    exact mirrors_pure (fun _ _ => .defined _)
  · exact (mirrors e henv).bind (fun k₁ le₁ x x' hx => mirrors_pure (fun k₂ le₂ => .expr (C.node_mono le₂ hx)))

omit henv in
theorem mirrors_compileStatements : ∀ (ss : List Expr) (ends : Bool) {k : κ} {env env' : Env}, C.env k env env' →
    C.Mirrors (fun k p q => List.Forall₂ (C.node k) p.1 q.1 ∧ q.2 = p.2) k (compileStatements sub env ss ends)
      (compileStatements sub env' ss ends)
  | [], ends, _, _, _, _ => mirrors_pure (fun _ _ => ⟨.nil, rfl⟩)
  | s :: rest, ends, k, env, env', henv => by
    unfold compileStatements
    refine (mirrors_compileStatement mirrors henv s).bind (fun k₁ le₁ st st' hst => ?_)
    cases hst with
    | defined name => exact mirrors_compileStatements rest false (C.env_mono le₁ henv)
    | expr hx =>
      refine (mirrors_compileStatements rest true (C.env_mono le₁ henv)).bind (fun k₂ le₂ p q hpq => ?_)
      obtain ⟨nodes, endsInExpr⟩ := p
      obtain ⟨nodes', endsInExpr'⟩ := q
      exact mirrors_pure (fun k₃ le₃ => ⟨.cons (C.node_mono (C.trans le₂ le₃) hx) (nodes_mono le₃ hpq.1), hpq.2⟩)

theorem mirrors_compileLambda (args : List Expr) (e : Expr) :
    C.Mirrors C.node k (compileLambda sub args e env) (compileLambda sub args e env') := by
  unfold compileLambda
  cases args.getLast? with
  | none => exact mirrors_fail _
  | some body =>
    obtain ⟨names, hnames⟩ := paramNames_eq .lambdaParams e args.dropLast
    refine mirrors_same hnames (fun params _ => ?_)
    refine (mirrors_functionEnv henv params).bind (fun k₁ le₁ scope scope' hscope => ?_)
    obtain ⟨hscope, hdepth, hdepth'⟩ := hscope
    refine (mirrors body hscope).bind (fun k₂ le₂ x x' hx => ?_)
    rw [hdepth, hdepth']
    refine (mirrors_declare (C.env_mono (C.trans le₁ le₂) henv) "lambda" params).bind (fun k₃ le₃ d d' hd => ?_)
    refine (mirrors_setBody hd (C.node_mono le₃ hx)).bind (fun k₄ le₄ _ _ _ => ?_)
    exact mirrors_pure (fun k₅ le₅ => C.lambda _ _ (C.definition_mono (C.trans le₄ le₅) hd))

theorem mirrors_compileBlock (statements : List Expr) (e : Expr) :
    C.Mirrors C.node k (compileBlock sub statements e env) (compileBlock sub statements e env') := by
  unfold compileBlock
  refine (mirrors_childEnv henv).bind (fun k₁ le₁ scope scope' hscope => ?_)
  refine (mirrors_compileStatements mirrors statements false hscope).bind (fun k₂ le₂ p q hpq => ?_)
  obtain ⟨nodes, ends⟩ := p
  obtain ⟨nodes', ends'⟩ := q
  obtain ⟨hnodes, rfl⟩ : List.Forall₂ (C.node k₂) nodes nodes' ∧ ends' = ends := hpq
  dsimp only
  split
  · exact mirrors_pure (fun k₃ le₃ => C.sequence _ (nodes_mono le₃ hnodes))
  · exact mirrors_fail _

include suits

theorem mirrors_compileName (name : String) (e : Expr) :
    C.Mirrors C.node k (compileName registry sub name e env) (compileName registry sub name e env') := by
  unfold compileName
  refine (mirrors_lookup henv name).bind (fun k₁ le₁ b b' hb => ?_)
  cases hb with
  | none =>
    dsimp only
    split
    · exact mirrors_fail _
    · exact mirrors_fromRegistryOr suits mirrors (C.env_mono le₁ henv) e _
  | @some b b' hb =>
    -- a name that is no function is compiled to the node that it stands for
    have href := C.reference hb name
    cases b <;> cases b' <;> cases href
    case some.function.function.none => exact mirrors_pure (fun k₂ le₂ => C.functionRef name (C.env_mono (C.trans le₁ le₂) henv))
    all_goals
      rename_i hx
      exact mirrors_pure (fun k₂ le₂ => C.node_mono le₂ hx)

theorem mirrors_compileBoundCall (name : String) (args : List Expr) (e : Expr) :
    C.Mirrors C.node k (compileBoundCall registry sub name args e env) (compileBoundCall registry sub name args e env') := by
  unfold compileBoundCall
  refine (mirrors_lookup henv name).bind (fun k₁ le₁ b b' hb => ?_)
  have all := mirrors_compileAll mirrors (C.env_mono le₁ henv) args
  cases hb with
  | none => exact mirrors_fromRegistryOr suits mirrors (C.env_mono le₁ henv) e _
  | @some b b' hb =>
    have href := C.reference hb name
    cases b <;> cases b' <;> cases href
    case some.function.function.none =>
      refine all.bind (fun k₂ le₂ xs xs' hxs => mirrors_pure (fun k₃ le₃ => ?_))
      exact C.invoke name _ (C.env_mono (C.trans le₁ (C.trans le₂ le₃)) henv) (nodes_mono le₃ hxs)
    all_goals
      rename_i hx
      refine all.bind (fun k₂ le₂ xs xs' hxs => mirrors_pure (fun k₃ le₃ => ?_))
      exact C.apply _ (C.node_mono (C.trans le₂ le₃) hx) (nodes_mono le₃ hxs)

theorem mirrors_compileCall (name : String) (args : List Expr) (e : Expr) :
    C.Mirrors C.node k (compileCall registry sub name args e env) (compileCall registry sub name args e env') := by
  unfold compileCall
  split
  · exact mirrors_fail _
  · split
    · obtain ⟨_, hcaptures⟩ := formCaptures_settled lambdaForm e
      exact mirrors_same hcaptures (fun captures _ => mirrors_compileLambda mirrors henv _ e)
    · split
      · obtain ⟨_, hcaptures⟩ := formCaptures_settled blockForm e
        exact mirrors_same hcaptures (fun captures _ => mirrors_compileBlock mirrors henv _ e)
      · exact mirrors_compileBoundCall suits mirrors henv name args e

theorem mirrors_compileStep (e : Expr) :
    C.Mirrors C.node k (compileStep registry sub e env) (compileStep registry sub e env') := by
  unfold compileStep
  split
  · refine (mirrors_fromRegistry suits mirrors henv e.bare).bind (fun k₁ le₁ x x' hx => ?_)
    cases hx with
    | some hx => exact mirrors_pure (fun k₂ le₂ => C.node_mono le₂ hx)
    | none =>
      cases e.bare.regroup? with
      | none => exact mirrors_fail _
      | some grouped => exact mirrors_fromRegistryOr suits mirrors (C.env_mono le₁ henv) grouped _
  · unfold compileOperand
    cases e.bare.first with
    | lit value => exact mirrors_pure (fun _ _ => C.literal value)
    | ident name => exact mirrors_compileName suits mirrors henv name e.bare
    | call name args => exact mirrors_compileCall suits mirrors henv name args e.bare
    | paren inner => exact mirrors inner henv
    | unary op operand => exact mirrors_fromRegistryOr suits mirrors henv e.bare _

end

/-! ### Expressions and units -/

section

variable {registry : Registry} (suits : C.Suits registry)

include suits

/-- **An expression compiled on both sides** gives nodes that stand for each other, or is refused alike. -/
theorem mirrors_compile : ∀ (n : Nat) {k : κ} (e : Expr) {env env' : Env},
    C.env k env env' → C.Mirrors C.node k (compile registry n e env) (compile registry n e env')
  | 0, _, _, _, _, _ => mirrors_outOfSteps
  | n + 1, _, e, _, _, henv => mirrors_compileStep suits (mirrors_compile n) henv e

omit suits in
theorem workspace_rollback {env env' : Env} (henv : C.env k env env') {undo undo' : List (String × Option Binding)}
    (h : List.Forall₂ (C.Redefined k) undo undo') :
    ∀ {w w' : Workspace}, C.workspace k w w' → C.workspace k (rollback env undo w) (rollback env' undo' w') := by
  induction h with
  | nil => exact fun hw => hw
  | @cons p q undo undo' head _ ih =>
    intro w w' hw
    obtain ⟨name, previous⟩ := p
    obtain ⟨name', previous'⟩ := q
    obtain ⟨rfl, hp⟩ : name' = name ∧ Option.Rel (C.binding k) previous previous' := head
    exact ih (C.restore hw henv hp _)

theorem mirrors_unitNodes (n : Nat) : ∀ (ss : List Expr) {k : κ} {env env' : Env} {undo undo' : List (String × Option Binding)},
    C.env k env env' → List.Forall₂ (C.Redefined k) undo undo' →
    C.Mirrors (fun k => List.Forall₂ (C.node k)) k (unitNodes registry n env ss undo) (unitNodes registry n env' ss undo')
  | [], _, _, _, _, _, _, _ => mirrors_pure (fun _ _ => .nil)
  | s :: rest, k, env, env', undo, undo', henv, hundo => by
    have undone : ∀ k₁, C.le k k₁ → ∀ w w' : Workspace, C.workspace k₁ w w' →
        C.workspace k₁ (rollback env undo w) (rollback env' undo' w') :=
      fun k₁ le w w' hw => workspace_rollback (C.env_mono le henv) (hundo.imp (fun _ _ h => h.mono le)) hw
    unfold unitNodes
    split
    · refine ((mirrors_compileDefine (mirrors_compile suits n) henv s).onError undone).bind (fun k₁ le₁ p q hpq => ?_)
      exact mirrors_unitNodes n rest (C.env_mono le₁ henv) (.cons hpq (hundo.imp (fun _ _ h => h.mono le₁)))
    · refine ((mirrors_compile suits n s henv).onError undone).bind (fun k₁ le₁ x x' hx => ?_)
      refine (mirrors_unitNodes n rest (C.env_mono le₁ henv) (hundo.imp (fun _ _ h => h.mono le₁))).bind
        (fun k₂ le₂ xs xs' hxs => ?_)
      exact mirrors_pure (fun k₃ le₃ => .cons (C.node_mono (C.trans le₂ le₃) hx) (nodes_mono le₃ hxs))

/-- **A unit compiled on both sides** gives main functions that stand for each other, or is refused alike. -/
theorem mirrors_compileUnit (n : Nat) (ss : List Expr) {env env' : Env} (henv : C.env k env env') :
    C.Mirrors (fun k f f' => C.definition k f.definition f'.definition ∧ f = ⟨f.definition, [], []⟩ ∧ f' = ⟨f'.definition, [], []⟩)
      k (compileUnit registry n ss env) (compileUnit registry n ss env') := by
  refine (mirrors_unitNodes suits n ss henv .nil).bind (fun k₁ le₁ xs xs' hxs => ?_)
  refine (mirrors_declare (C.env_mono le₁ henv) "main" []).bind (fun k₂ le₂ d d' hd => ?_)
  refine (mirrors_setBody hd (C.sequence "main" (nodes_mono le₂ hxs))).bind (fun k₃ le₃ _ _ _ => ?_)
  exact mirrors_pure (fun k₄ le₄ => ⟨C.definition_mono (C.trans le₃ le₄) hd, rfl, rfl⟩)

end

end Correspondence

end ChainCalc
