import ChainCalc.Proofs.Addressing.Growth
import ChainCalc.Proofs.Compile.Steps
import ChainCalc.Proofs.Matching.Rules
import ChainCalc.Proofs.Standard.Factories
/-!
# Disciplines — what holds of everything that sources of one kind are compiled to

A discipline says how sources are spelled, and what then holds of nodes, of the names of variables and functions, and of
compile errors.  If it holds of a workspace, it holds after every compilation of such a source, however that ends
(`upholds_compileUnit`): failed compilations leave scopes and bodies behind, and these are included.

Each part of the compiler has one lemma about what it upholds, from a number of scopes on that are there already.
-/
namespace ChainCalc

open CompileM

/-! ### Nodes -/

inductive Node.Every (P : Node → Prop) : Node → Prop
  | mk {node : Node} (here : P node) (children : ∀ x ∈ node.children, Every P x) : Every P node

theorem Node.Every.here {P : Node → Prop} {node : Node} (h : node.Every P) : P node := by
  cases h
  assumption

theorem Node.Every.children {P : Node → Prop} {node : Node} (h : node.Every P) : ∀ x ∈ node.children, x.Every P := by
  cases h
  assumption

theorem Node.Every.imp {P P' : Node → Prop} (h : ∀ node, P node → P' node) {node : Node} (every : node.Every P) :
    node.Every P' := by
  induction every with
  | mk here _ ih => exact .mk (h _ here) ih

def Env.Below (n : Nat) (env : Env) : Prop := ∀ s ∈ env.path, s.id < n

theorem Env.Below.mono {n m : Nat} (h : n ≤ m) {env : Env} (below : env.Below n) : env.Below m :=
  fun s hs => Nat.lt_of_lt_of_le (below s hs) h

theorem Env.Below.cons {n : Nat} {env : Env} (below : env.Below n) (depth : Nat) : (⟨⟨n, depth⟩, env.path⟩ : Env).Below (n + 1) := by
  intro s hs
  rcases List.mem_cons.1 hs with rfl | hs
  · exact Nat.lt_succ_self n
  · exact Nat.lt_succ_of_lt (below s hs)

theorem Env.Below.functionEnv {w : Workspace} {env : Env} (below : env.Below w.scopes.size) (params : List String) :
    (w.functionEnv env params).1.Below (w.functionEnv env params).2.scopes.size := by
  simpa [Workspace.functionEnv, Workspace.addScope] using below.cons (env.depth + 1)

theorem Env.Below.childEnv {w : Workspace} {env : Env} (below : env.Below w.scopes.size) :
    (w.childEnv env).1.Below (w.childEnv env).2.scopes.size := by
  simpa [Workspace.childEnv, Workspace.addScope] using below.cons env.depth

def Node.Reaches (n : Nat) : Node → Prop
  | .functionRef _ env => env.Below n
  | .invoke _ _ env _ => env.Below n
  | _ => True

theorem Node.Reaches.mono {n m : Nat} (h : n ≤ m) {node : Node} (reaches : node.Reaches n) : node.Reaches m := by
  cases node with
  | functionRef name env => exact Env.Below.mono h reaches
  | invoke name site env args => exact Env.Below.mono h reaches
  | _ => trivial

theorem Standard.Product.reaches {b : Bound} {name label : String} {node : Node} (h : Standard.Product b name label node)
    (n : Nat) : node.Reaches n := by
  cases h <;> trivial

/-! ### Disciplines -/

def CompileError.isInternal : CompileError → Bool
  | .missingBinding _ _ => true
  | .formMismatch _ _ => true
  | .formUnbound _ => true
  | _ => false

/-- How sources are spelled, what a node is by itself, which names are variables, which names with which parameters are
functions, and how a compilation may fail. -/
structure Discipline where
  rules : Rules
  node : Node → Prop
  value : String → Prop
  function : String → List String → Prop
  error : CompileError → Prop

abbrev Parallel (groups : List (String × List Expr)) (made : List (String × List Node)) : Prop :=
  List.Forall₂ (fun g h => h.1 = g.1 ∧ h.2.length = g.2.length) groups made

namespace Discipline

/-- **What the standard registry and the forms of the language have to agree with.** -/
structure Lawful (D : Discipline) : Prop where
  mild : D.rules.Mild
  literal : ∀ l : Literal, D.node (.constant l.value)
  param : ∀ name depth index, D.node (.param name depth index)
  reference : ∀ {f params}, D.function f params → ∀ env, D.node (.functionRef f env)
  invocation : ∀ {f params}, D.function f params → ∀ site env args, D.node (.invoke f site env args)
  application : ∀ site callee args, D.node (.apply site callee args)
  sequence : ∀ label items, D.node (.sequence label items)
  lambda : ∀ {args params}, D.rules.call "lambda" args → (args.map Expr.bare).dropLast.mapM Expr.asIdent? = some params →
    ∀ {d : Definition}, d.params = params → ∀ body, D.node (.lambda d body)
  value : ∀ {target value rest x}, D.rules.call "define" (target :: value :: rest) → target.asIdent? = some x → D.value x
  function : ∀ {target value rest f names params}, D.rules.call "define" (target :: value :: rest) →
    target.asCall? = some (f, names) → names.mapM Expr.asIdent? = some params → D.function f params
  built : ∀ {candidate entry captures made node}, candidate.Heeds D.rules → candidate.placeholder? = none →
    Registry.standard.find? candidate = some (entry, captures) → Parallel captures.entries made →
    ∀ label, entry.factory ⟨entry.name, .ofList made⟩ entry.name label = .ok node → D.node node
  unbuilt : ∀ {candidate entry captures made e}, candidate.Heeds D.rules → candidate.placeholder? = none →
    Registry.standard.find? candidate = some (entry, captures) → Parallel captures.entries made →
    ∀ label, entry.factory ⟨entry.name, .ofList made⟩ entry.name label = .error e → D.error e
  unnamed : ∀ {args c hole}, D.rules.call "define" args → defineForm.captures? (.call "define" args) = some c →
    hole = "_name" ∨ hole = "_value" → (c.of hole).head? = none → D.error (.formUnbound hole)
  refusal : ∀ {e : CompileError}, e.isInternal = false → D.error e

variable (D : Discipline)

abbrev Fits (n : Nat) (node : Node) : Prop := node.Every (fun x => D.node x ∧ x.Reaches n)

def Binds (n : Nat) (name : String) : Binding → Prop
  | .value node => D.value name ∧ D.Fits n node
  | .function d => D.function name d.params
  | .param _ _ => True

/-- **The discipline holds of all bindings and bodies of a workspace**, whether they are in use or not. -/
structure Holds (w : Workspace) : Prop where
  binding : ∀ {i name b}, (name, b) ∈ (w.scope i).entries → D.Binds w.scopes.size name b
  body : ∀ {i : Nat} {node}, (w.bodies[i]?).join = some node → D.Fits w.scopes.size node

variable {D}

theorem Fits.mono {n m : Nat} (h : n ≤ m) {node : Node} (fits : D.Fits n node) : D.Fits m node :=
  fits.imp (fun _ hx => ⟨hx.1, hx.2.mono h⟩)

theorem Binds.mono {n m : Nat} (h : n ≤ m) {name : String} {b : Binding} (binds : D.Binds n name b) : D.Binds m name b := by
  cases b with
  | value node => exact ⟨binds.1, binds.2.mono h⟩
  | function d => exact binds
  | param depth index => trivial

/-! ### Changes to a workspace -/

namespace Holds

variable {w : Workspace}

theorem lookup (h : D.Holds w) {env : Env} {name : String} {b : Binding} (hb : w.lookup env name = some b) :
    D.Binds w.scopes.size name b := by
  obtain ⟨s, outer, -, hb⟩ := World.lookupPath_eq_some hb
  exact h.binding (Table.mem_of_get? hb)

theorem lookup_value (h : D.Holds w) {env : Env} {name : String} {node : Node} (hb : w.lookup env name = some (.value node)) :
    D.Fits w.scopes.size node := (h.lookup hb).2

theorem lookup_function (h : D.Holds w) {env : Env} {name : String} {d : Definition}
    (hb : w.lookup env name = some (.function d)) : D.function name d.params := h.lookup hb

theorem addScope (h : D.Holds w) {s : Scope} (hs : ∀ {name b}, (name, b) ∈ s.entries → D.Binds 0 name b) :
    D.Holds (w.addScope s) := by
  have grows := (w.extends_addScope s).scopes
  refine ⟨fun {i name b} hb => ?_, fun hn => (h.body hn).mono grows⟩
  rcases Nat.lt_trichotomy i w.scopes.size with hi | rfl | hi
  · rw [Workspace.scope_addScope_of_lt w s hi] at hb
    exact (h.binding hb).mono grows
  · rw [Workspace.scope_addScope_self] at hb
    exact (hs hb).mono (Nat.zero_le _)
  · rw [Workspace.scope_eq_empty (by simp [Workspace.addScope]; omega)] at hb
    cases hb

theorem addParams (h : D.Holds w) (depth : Nat) (params : List String) :
    D.Holds (w.addScope (Workspace.paramScope depth params)) := by
  refine h.addScope (fun hb => ?_)
  obtain ⟨i, -, rfl⟩ := Workspace.mem_paramScope hb
  trivial

theorem declare (h : D.Holds w) (name : String) (params : List String) (depth : Nat) : D.Holds (w.declare name params depth).2 := by
  refine ⟨h.binding, fun {i node} hn => h.body (i := i) ?_⟩
  change ((w.bodies.push none)[i]?).join = some node at hn
  rw [Array.getElem?_push] at hn
  split at hn
  · cases hn
  · exact hn

theorem setBody (h : D.Holds w) (d : Definition) {node : Node} (fits : D.Fits w.scopes.size node) : D.Holds (w.setBody d node) := by
  refine ⟨h.binding, fun {i node'} hn => ?_⟩
  change ((w.bodies.setIfInBounds d.id (some node))[i]?).join = some node' at hn
  rw [Array.getElem?_setIfInBounds] at hn
  split at hn
  · split at hn
    · cases hn
      exact fits
    · cases hn
  · exact h.body hn

theorem updateScope (h : D.Holds w) (id : Nat) {f : Scope → Scope}
    (hf : ∀ {s : Scope} {name b}, (name, b) ∈ (f s).entries → (name, b) ∈ s.entries ∨ D.Binds w.scopes.size name b) :
    D.Holds (w.updateScope id f) := by
  refine ⟨fun {i name b} hb => ?_, fun hn => ?_⟩
  · rw [Workspace.size_scopes_updateScope]
    by_cases hi : i = id ∧ id < w.scopes.size
    · rw [hi.1, Workspace.scope_updateScope_self w hi.2] at hb
      exact (hf hb).elim h.binding (fun hb => hb)
    · by_cases hid : i = id
      · rw [Workspace.scope_eq_empty (by rw [Workspace.size_scopes_updateScope]; omega)] at hb
        cases hb
      · rw [Workspace.scope_updateScope_ne w hid] at hb
        exact h.binding hb
  · rw [Workspace.size_scopes_updateScope]
    exact h.body hn

theorem define (h : D.Holds w) (env : Env) {name : String} {b : Binding} (hb : D.Binds w.scopes.size name b) :
    D.Holds (w.define env name b).2 := by
  obtain ⟨warnings, hw⟩ := w.define_snd env name b
  have update : D.Holds (w.updateScope env.here.id (fun s => s.insert name b)) := by
    refine h.updateScope _ (fun {s other b'} hmem => ?_)
    rcases Table.mem_put hmem with heq | hmem
    · cases heq
      exact .inr hb
    · exact .inl hmem
  rw [hw]
  exact ⟨update.binding, update.body⟩

theorem restore (h : D.Holds w) (env : Env) {name : String} {previous : Option Binding}
    (hb : ∀ b, previous = some b → D.Binds w.scopes.size name b) : D.Holds (w.restore env name previous) := by
  refine h.updateScope _ (fun {s other b'} hmem => ?_)
  cases previous with
  | none => exact .inl (List.mem_filter.1 hmem).1
  | some b =>
    rcases Table.mem_put hmem with heq | hmem
    · cases heq
      exact .inr (hb _ rfl)
    · exact .inl hmem

end Holds

end Discipline

end ChainCalc
