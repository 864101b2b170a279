import ChainCalc.Proofs.Compile.Lockstep
import ChainCalc.Proofs.Table
import ChainCalc.Frame
import ChainCalc.Message
import ChainCalc.Registry
import ChainCalc.Workspace
import Mathlib.Data.List.Forall2
/-!
# Pairings — the same things under other numbers

Scopes and functions are numbered in the order in which they are made, so whatever is made in between shifts the
numbers.  A pairing says which numbers of one workspace stand for which of another.  Values, nodes and bindings are
paired if they differ in such numbers only; a paired value then travels as the same message.
-/
namespace ChainCalc

/-! ### Numbers -/

/-- Which scopes and which functions of one workspace stand for which of another, one to one.  A foreign scope of the
first stands for none. -/
structure Pairing where
  scope : Nat → Nat → Prop
  definition : Nat → Nat → Prop
  foreign : Nat → Prop
  scope_iff : ∀ {i j i' j' : Nat}, scope i j → scope i' j' → (i = i' ↔ j = j')
  definition_iff : ∀ {i j i' j' : Nat}, definition i j → definition i' j' → (i = i' ↔ j = j')
  apart : ∀ {i j : Nat}, scope i j → ¬ foreign i

namespace Pairing

structure Le (ρ ρ' : Pairing) : Prop where
  scope : ∀ {i j : Nat}, ρ.scope i j → ρ'.scope i j
  definition : ∀ {i j : Nat}, ρ.definition i j → ρ'.definition i j
  foreign : ∀ {i : Nat}, ρ.foreign i → ρ'.foreign i

theorem Le.refl (ρ : Pairing) : ρ.Le ρ := ⟨id, id, id⟩

theorem Le.trans {ρ₁ ρ₂ ρ₃ : Pairing} (h : ρ₁.Le ρ₂) (h' : ρ₂.Le ρ₃) : ρ₁.Le ρ₃ :=
  ⟨fun hs => h'.scope (h.scope hs), fun hd => h'.definition (h.definition hd), fun hf => h'.foreign (h.foreign hf)⟩

theorem iff_of_new {R : Nat → Nat → Prop} {a b : Nat} (one : ∀ {i j i' j' : Nat}, R i j → R i' j' → (i = i' ↔ j = j'))
    (below : ∀ {i j : Nat}, R i j → i < a ∧ j < b) {i j i' j' : Nat} (h : R i j ∨ (i = a ∧ j = b))
    (h' : R i' j' ∨ (i' = a ∧ j' = b)) : i = i' ↔ j = j' := by
  rcases h with h | ⟨rfl, rfl⟩ <;> rcases h' with h' | ⟨rfl, rfl⟩
  · exact one h h'
  · have := below h
    omega
  · have := below h'
    omega
  · simp

def withScope (ρ : Pairing) (a b : Nat) (below : ∀ {i j : Nat}, ρ.scope i j → i < a ∧ j < b)
    (foreign : ∀ {i : Nat}, ρ.foreign i → i < a) : Pairing where
  scope i j := ρ.scope i j ∨ (i = a ∧ j = b)
  definition := ρ.definition
  foreign := ρ.foreign
  scope_iff := iff_of_new ρ.scope_iff below
  definition_iff := ρ.definition_iff
  apart h hf := by
    rcases h with h | ⟨rfl, -⟩
    · exact ρ.apart h hf
    · exact Nat.lt_irrefl _ (foreign hf)

def withDefinition (ρ : Pairing) (a b : Nat) (below : ∀ {i j : Nat}, ρ.definition i j → i < a ∧ j < b) : Pairing where
  scope := ρ.scope
  definition i j := ρ.definition i j ∨ (i = a ∧ j = b)
  foreign := ρ.foreign
  scope_iff := ρ.scope_iff
  definition_iff := iff_of_new ρ.definition_iff below
  apart := ρ.apart

def withForeign (ρ : Pairing) (a : Nat) (unpaired : ∀ j, ¬ ρ.scope a j) : Pairing where
  scope := ρ.scope
  definition := ρ.definition
  foreign i := ρ.foreign i ∨ i = a
  scope_iff := ρ.scope_iff
  definition_iff := ρ.definition_iff
  apart h hf := by
    rcases hf with hf | rfl
    · exact ρ.apart h hf
    · exact unpaired _ h

end Pairing

/-! ### Values -/

section

variable (ρ : Pairing)

structure Definition.Paired (d d' : Definition) : Prop where
  id : ρ.definition d.id d'.id
  rest : d' = { d with id := d'.id }

mutual

/-- **The same value, but for the numbers of functions.** -/
inductive Value.Paired : Value → Value → Prop
  | plain {v : Value} (h : v.asFunction? = none) : Value.Paired v v
  | function {d d' : Definition} {captured captured' : List Activation} {applied applied' : List Value}
      (definition : d.Paired ρ d') (captures : List.Forall₂ Activation.Paired captured captured')
      (given : List.Forall₂ Value.Paired applied applied') :
      Value.Paired (.function ⟨d, captured, applied⟩) (.function ⟨d', captured', applied'⟩)

inductive Activation.Paired : Activation → Activation → Prop
  | mk (depth : Nat) {args args' : List Value} (args_paired : List.Forall₂ Value.Paired args args') :
      Activation.Paired ⟨depth, args⟩ ⟨depth, args'⟩

end

structure ScopeRef.Paired (s s' : ScopeRef) : Prop where
  id : ρ.scope s.id s'.id
  depth : s'.depth = s.depth

def Env.Paired (env env' : Env) : Prop := List.Forall₂ (ScopeRef.Paired ρ) env.path env'.path

end

/-- A computation that does the same with the same values, whatever the numbers of functions. -/
def Kernel.Uniform (compute : Kernel) : Prop :=
  ∀ (ρ : Pairing) (vs vs' : List Value), List.Forall₂ (Value.Paired ρ) vs vs' →
    Concur (Value.Paired ρ) (compute vs) (compute vs')

section

variable (ρ : Pairing)

/-- **The same node, but for the numbers of scopes and functions.**  The body that a function without a name was made
with is not looked at when the node is evaluated. -/
inductive Node.Paired : Node → Node → Prop
  | constant {v v' : Value} (value : v.Paired ρ v') : Paired (.constant v) (.constant v')
  | param (name : String) (depth index : Nat) : Paired (.param name depth index) (.param name depth index)
  | kernel (name label : String) {xs xs' : List Node} {compute : Kernel} (uniform : compute.Uniform)
      (operands : List.Forall₂ Paired xs xs') : Paired (.kernel name label xs compute) (.kernel name label xs' compute)
  | conditional (label : String) {c c' y y' n n' : Node} (condition : Paired c c') (yes : Paired y y') (no : Paired n n') :
      Paired (.conditional label c y n) (.conditional label c' y' n')
  | sequence (label : String) {xs xs' : List Node} (items : List.Forall₂ Paired xs xs') :
      Paired (.sequence label xs) (.sequence label xs')
  | lambda {d d' : Definition} (body body' : Option Node) (definition : d.Paired ρ d') :
      Paired (.lambda d body) (.lambda d' body')
  | functionRef (name : String) {env env' : Env} (env_paired : env.Paired ρ env') :
      Paired (.functionRef name env) (.functionRef name env')
  | invoke (name site : String) {env env' : Env} {xs xs' : List Node} (env_paired : env.Paired ρ env')
      (args : List.Forall₂ Paired xs xs') : Paired (.invoke name site env xs) (.invoke name site env' xs')
  | apply (site : String) {x x' : Node} {xs xs' : List Node} (callee : Paired x x') (args : List.Forall₂ Paired xs xs') :
      Paired (.apply site x xs) (.apply site x' xs')
  | worker (query : WorkerQuery) (label : String) : Paired (.worker query label) (.worker query label)
  | fetch (label : String) {x x' : Node} (key : Paired x x') : Paired (.fetch label x) (.fetch label x')

inductive Binding.Paired : Binding → Binding → Prop
  | value {node node' : Node} (h : node.Paired ρ node') : Paired (.value node) (.value node')
  | function {d d' : Definition} (h : d.Paired ρ d') : Paired (.function d) (.function d')
  | param (depth index : Nat) : Paired (.param depth index) (.param depth index)

structure Bound.Paired (b b' : Bound) : Prop where
  primitive : b'.primitive = b.primitive
  nodes : b.nodes.Parallel (List.Forall₂ (Node.Paired ρ)) b'.nodes

end

def Factory.Uniform (factory : Factory) : Prop :=
  ∀ (ρ : Pairing) (b b' : Bound) (name label : String), b.Paired ρ b' →
    Concur (Node.Paired ρ) (factory b name label) (factory b' name label)

/-- **A registry that does not look at numbers.** -/
def Registry.Uniform (registry : Registry) : Prop := ∀ entry ∈ registry.entries, entry.factory.Uniform

/-! ### Pairings of more -/

theorem Definition.Paired.mono {ρ ρ' : Pairing} (le : ρ.Le ρ') {d d' : Definition} (h : d.Paired ρ d') : d.Paired ρ' d' :=
  ⟨le.definition h.id, h.rest⟩

theorem Env.Paired.mono {ρ ρ' : Pairing} (le : ρ.Le ρ') {env env' : Env} (h : env.Paired ρ env') : env.Paired ρ' env' :=
  List.Forall₂.imp (fun _ _ hs => ⟨le.scope hs.id, hs.depth⟩) h

mutual

theorem Value.Paired.mono {ρ ρ' : Pairing} (le : ρ.Le ρ') : ∀ {v v' : Value}, v.Paired ρ v' → v.Paired ρ' v'
  | _, _, .plain h => .plain h
  | _, _, .function definition captures given =>
    .function (definition.mono le) (Activation.Paired.monoAll le captures) (Value.Paired.monoAll le given)

theorem Value.Paired.monoAll {ρ ρ' : Pairing} (le : ρ.Le ρ') : ∀ {vs vs' : List Value},
    List.Forall₂ (Value.Paired ρ) vs vs' → List.Forall₂ (Value.Paired ρ') vs vs'
  | _, _, .nil => .nil
  | _, _, .cons head tail => .cons (head.mono le) (Value.Paired.monoAll le tail)

theorem Activation.Paired.mono {ρ ρ' : Pairing} (le : ρ.Le ρ') : ∀ {a a' : Activation}, a.Paired ρ a' → a.Paired ρ' a'
  | _, _, .mk depth args => .mk depth (Value.Paired.monoAll le args)

theorem Activation.Paired.monoAll {ρ ρ' : Pairing} (le : ρ.Le ρ') : ∀ {as as' : List Activation},
    List.Forall₂ (Activation.Paired ρ) as as' → List.Forall₂ (Activation.Paired ρ') as as'
  | _, _, .nil => .nil
  | _, _, .cons head tail => .cons (head.mono le) (Activation.Paired.monoAll le tail)

end

mutual

theorem Node.Paired.mono {ρ ρ' : Pairing} (le : ρ.Le ρ') : ∀ {x x' : Node}, x.Paired ρ x' → x.Paired ρ' x'
  | _, _, .constant value => .constant (value.mono le)
  | _, _, .param name depth index => .param name depth index
  | _, _, .kernel name label uniform operands => .kernel name label uniform (Node.Paired.monoAll le operands)
  | _, _, .conditional label condition yes no => .conditional label (condition.mono le) (yes.mono le) (no.mono le)
  | _, _, .sequence label items => .sequence label (Node.Paired.monoAll le items)
  | _, _, .lambda body body' definition => .lambda body body' (definition.mono le)
  | _, _, .functionRef name env => .functionRef name (Env.Paired.mono le env)
  | _, _, .invoke name site env args => .invoke name site (Env.Paired.mono le env) (Node.Paired.monoAll le args)
  | _, _, .apply site callee args => .apply site (callee.mono le) (Node.Paired.monoAll le args)
  | _, _, .worker query label => .worker query label
  | _, _, .fetch label key => .fetch label (key.mono le)

theorem Node.Paired.monoAll {ρ ρ' : Pairing} (le : ρ.Le ρ') : ∀ {xs xs' : List Node},
    List.Forall₂ (Node.Paired ρ) xs xs' → List.Forall₂ (Node.Paired ρ') xs xs'
  | _, _, .nil => .nil
  | _, _, .cons head tail => .cons (head.mono le) (Node.Paired.monoAll le tail)

end

theorem Binding.Paired.mono {ρ ρ' : Pairing} (le : ρ.Le ρ') {b b' : Binding} (h : b.Paired ρ b') : b.Paired ρ' b' := by
  cases h with
  | value h => exact .value (h.mono le)
  | function h => exact .function (h.mono le)
  | param depth index => exact .param depth index

/-! ### What is seen of paired values -/

namespace Definition.Paired

variable {ρ : Pairing} {d d' : Definition} (h : d.Paired ρ d')

include h

theorem name : d'.name = d.name := by rw [h.rest]

theorem params : d'.params = d.params := by rw [h.rest]

theorem depth : d'.depth = d.depth := by rw [h.rest]

end Definition.Paired

namespace Value.Paired

variable {ρ : Pairing} {v v' : Value}

theorem arity {d d' : Definition} {captured captured' : List Activation} {applied applied' : List Value} (hd : d.Paired ρ d')
    (given : List.Forall₂ (Value.Paired ρ) applied applied') :
    (Closure.mk d' captured' applied').arity = (Closure.mk d captured applied).arity := by
  show d'.params.length - applied'.length = d.params.length - applied.length
  rw [hd.params, given.length_eq]

/-- **A paired value travels as the same message.** -/
theorem payload (h : v.Paired ρ v') : Payload.ofValue v' = Payload.ofValue v := by
  cases h with
  | plain _ => rfl
  | function hd captures given =>
    unfold Payload.ofValue
    dsimp only
    rw [arity hd given, hd.name]

end Value.Paired

theorem Node.Paired.name {ρ : Pairing} : ∀ {x x' : Node}, x.Paired ρ x' → x'.name = x.name
  | _, _, .constant _ | _, _, .param _ _ _ | _, _, .kernel _ _ _ _ | _, _, .conditional _ _ _ _ | _, _, .sequence _ _
  | _, _, .functionRef _ _ | _, _, .invoke _ _ _ _ | _, _, .worker _ _ | _, _, .fetch _ _ => rfl
  | _, _, .lambda _ _ hd => hd.name
  | _, _, .apply _ callee _ => callee.name

end ChainCalc
