import ChainCalc.Proofs.Standard.Entries
/-!
# Anonymous values — what is left of a value without the names of parameters

Two runs of programs that differ in the names of parameters meet values that are the same but for those names.
`Value.anon` forgets them.  No computation of the standard registry can tell a value from its anonymous one
(`blind_of_isKernel`).
-/
namespace ChainCalc

/-- A definition without the names of its parameters; their number stays. -/
def Definition.anon (d : Definition) : Definition := { d with params := d.params.map (fun _ => "") }

mutual

def Value.anon : Value → Value
  | .function f => .function f.anon
  | .nil => .nil
  | .bool b => .bool b
  | .int n => .int n
  | .float x => .float x
  | .str s => .str s
  | .array items => .array items

def Closure.anon : Closure → Closure
  | ⟨d, captured, applied⟩ => ⟨d.anon, Activation.anonAll captured, Value.anonAll applied⟩

def Activation.anon : Activation → Activation
  | ⟨depth, args⟩ => ⟨depth, Value.anonAll args⟩

def Activation.anonAll : List Activation → List Activation
  | [] => []
  | a :: rest => a.anon :: Activation.anonAll rest

def Value.anonAll : List Value → List Value
  | [] => []
  | v :: rest => v.anon :: Value.anonAll rest

end

theorem Value.anonAll_eq_map : ∀ vs : List Value, Value.anonAll vs = vs.map Value.anon
  | [] => by rw [Value.anonAll, List.map_nil]
  | v :: vs => by rw [Value.anonAll, Value.anonAll_eq_map vs, List.map_cons]

theorem Activation.anonAll_eq_map : ∀ as : List Activation, Activation.anonAll as = as.map Activation.anon
  | [] => by rw [Activation.anonAll, List.map_nil]
  | a :: as => by rw [Activation.anonAll, Activation.anonAll_eq_map as, List.map_cons]

theorem Closure.anon_mk (d : Definition) (captured : List Activation) (applied : List Value) :
    Closure.anon ⟨d, captured, applied⟩ = ⟨d.anon, captured.map Activation.anon, applied.map Value.anon⟩ := by
  rw [Closure.anon, Activation.anonAll_eq_map, Value.anonAll_eq_map]

theorem Activation.anon_mk (depth : Nat) (args : List Value) :
    Activation.anon ⟨depth, args⟩ = ⟨depth, args.map Value.anon⟩ := by
  rw [Activation.anon, Value.anonAll_eq_map]

/-! ### What does not depend on names -/

namespace Value

@[simp] theorem anon_of_plain {v : Value} (h : v.asFunction? = none) : v.anon = v := by
  cases v with
  | function f => cases h
  | _ => rw [anon]

@[simp] theorem asFunction?_anon (v : Value) : v.anon.asFunction? = v.asFunction?.map Closure.anon := by
  cases v <;> rfl

theorem eq_of_anon_eq {v u : Value} (h : u.anon = v.anon) (plain : v.asFunction? = none) : u = v := by
  have hu : u.asFunction? = none := by
    have := congrArg asFunction? h
    rw [asFunction?_anon, asFunction?_anon, plain] at this
    simpa using this
  rwa [anon_of_plain hu, anon_of_plain plain] at h

@[simp] theorem typeName_anon (v : Value) : v.anon.typeName = v.typeName := by
  cases v <;> rfl

@[simp] theorem expectFloat_anon (v : Value) : v.anon.expectFloat = v.expectFloat := by
  cases v <;> rfl

@[simp] theorem expectBool_anon (v : Value) : v.anon.expectBool = v.expectBool := by
  cases v <;> rfl

@[simp] theorem expectArray_anon (v : Value) : v.anon.expectArray = v.expectArray := by
  cases v <;> rfl

@[simp] theorem text_anon (v : Value) : v.anon.text = v.text := by
  cases v with
  | function f =>
    obtain ⟨d, captured, applied⟩ := f
    rw [anon, Closure.anon_mk]
    simp [text, Closure.arity, Definition.anon]
  | _ => rw [anon]

mutual

theorem beq_anon : ∀ v u : Value, v.anon.beq u.anon = v.beq u
  | .function ⟨d, _, xs⟩, .function ⟨e, _, ys⟩ => by
    rw [anon, anon, Closure.anon, Closure.anon, beq, beq, beqList_anon xs ys]
    rfl
  | .nil, u | .bool _, u | .int _, u | .float _, u | .str _, u | .array _, u => by
    cases u <;> simp [anon, beq]
  | .function ⟨d, _, xs⟩, .nil | .function ⟨d, _, xs⟩, .bool _ | .function ⟨d, _, xs⟩, .int _
  | .function ⟨d, _, xs⟩, .float _ | .function ⟨d, _, xs⟩, .str _ | .function ⟨d, _, xs⟩, .array _ => by
    simp [anon, beq]

theorem beqList_anon : ∀ vs us : List Value, beqList (anonAll vs) (anonAll us) = beqList vs us
  | [], [] => by simp [anonAll, beqList]
  | [], _ :: _ => by simp [anonAll, beqList]
  | _ :: _, [] => by simp [anonAll, beqList]
  | v :: vs, u :: us => by rw [anonAll, anonAll, beqList, beqList, beq_anon v u, beqList_anon vs us]

end

end Value

/-! ### Computations -/

/-- A computation that cannot tell a value from its anonymous one. -/
def Kernel.Blind (compute : Kernel) : Prop := ∀ vs : List Value, compute (vs.map Value.anon) = compute vs

theorem Kernel.Blind.eq_of_anon {compute : Kernel} (blind : compute.Blind) {vs us : List Value}
    (h : us.map Value.anon = vs.map Value.anon) : compute us = compute vs := by
  rw [← blind us, h, blind vs]

namespace Arithmetic

@[simp] theorem arithmetic_anon (op : Operator) (v u : Value) : arithmetic op v.anon u.anon = arithmetic op v u := by
  cases v <;> cases u <;> rfl

@[simp] theorem equal_anon (v u : Value) : equal v.anon u.anon = equal v u := by
  have hbeq : (v.anon == u.anon) = (v == u) := Value.beq_anon v u
  cases v <;> cases u <;> first | rfl | exact hbeq

@[simp] theorem compareValues_anon (v u : Value) : compareValues v.anon u.anon = compareValues v u := by
  cases v <;> cases u <;> rfl

@[simp] theorem binary_anon (op : Operator) (v u : Value) : binary op v.anon u.anon = binary op v u := by
  unfold binary
  split <;> simp

@[simp] theorem negate_anon (v : Value) : negate v.anon = negate v := by
  cases v <;> rfl

@[simp] theorem complement_anon (v : Value) : complement v.anon = complement v := by
  cases v <;> rfl

end Arithmetic

namespace Standard

theorem blind_raiseKernel : Kernel.Blind raiseKernel := by
  intro vs
  cases vs <;> simp [raiseKernel]

theorem blind_fusedKernel : Kernel.Blind fusedKernel := by
  intro vs
  rcases vs with _ | ⟨a, _ | ⟨b, _ | ⟨c, _ | ⟨d, vs⟩⟩⟩⟩
  · rfl
  · rfl
  · rfl
  · have hsum : ∀ p, Arithmetic.binary .add p c.anon = Arithmetic.binary .add p c := by
      intro p
      show Arithmetic.arithmetic .add p c.anon = Arithmetic.arithmetic .add p c
      cases p <;> cases c <;> rfl
    simp [fusedKernel, hsum]
  · simp [fusedKernel, wrongCount]

theorem blind_binaryKernel (op : Operator) : Kernel.Blind (binaryKernel op) := by
  intro vs
  rcases vs with _ | ⟨a, _ | ⟨b, _ | ⟨c, vs⟩⟩⟩
  · rfl
  · rfl
  · simp [binaryKernel]
  · simp [binaryKernel, wrongCount]

theorem blind_negateKernel : Kernel.Blind negateKernel := by
  intro vs
  rcases vs with _ | ⟨a, _ | ⟨b, vs⟩⟩
  · rfl
  · simp [negateKernel]
  · simp [negateKernel, wrongCount]

theorem blind_complementKernel : Kernel.Blind complementKernel := by
  intro vs
  rcases vs with _ | ⟨a, _ | ⟨b, vs⟩⟩
  · rfl
  · simp [complementKernel]
  · simp [complementKernel, wrongCount]

theorem blind_arrayKernel : Kernel.Blind arrayKernel := by
  intro vs
  have hmap : (vs.map Value.anon).mapM Value.expectFloat = vs.mapM Value.expectFloat := by
    rw [List.mapM_map]
    simp [Function.comp_def]
  unfold arrayKernel
  rw [hmap]

theorem blind_lengthKernel : Kernel.Blind lengthKernel := by
  intro vs
  rcases vs with _ | ⟨a, _ | ⟨b, vs⟩⟩
  · rfl
  · cases a <;> rfl
  · simp [lengthKernel]

theorem blind_sumKernel : Kernel.Blind sumKernel := by
  intro vs
  rcases vs with _ | ⟨a, _ | ⟨b, vs⟩⟩
  · rfl
  · simp [sumKernel]
  · rfl

theorem allInts?_anon (vs : List Value) : allInts? (vs.map Value.anon) = allInts? vs := by
  unfold allInts?
  rw [List.mapM_map, List.isEmpty_map]
  congr 2
  funext v
  cases v <;> rfl

theorem blind_maxKernel : Kernel.Blind maxKernel := by
  intro vs
  have hfold : ∀ x : Float, (vs.map Value.anon).foldlM (fun x v => do return Arithmetic.maxFloat x (← v.expectFloat)) x =
      vs.foldlM (fun x v => do return Arithmetic.maxFloat x (← v.expectFloat)) x := by
    intro x
    rw [List.foldlM_map]
    simp
  have hints := allInts?_anon vs
  rcases vs with _ | ⟨a, _ | ⟨b, vs⟩⟩
  · rfl
  · cases a <;> rfl
  · simp only [List.map_cons] at hints hfold ⊢
    generalize a.anon = a' at hints hfold ⊢
    generalize b.anon = b' at hints hfold ⊢
    simp only [maxKernel, hints, hfold]

theorem blind_rangeKernel : Kernel.Blind rangeKernel := by
  intro vs
  rcases vs with _ | ⟨a, _ | ⟨b, vs⟩⟩
  · rfl
  · cases a with
    | function f =>
      have htext := Value.text_anon (.function f)
      simp only [Value.anon] at htext
      simp [rangeKernel, Value.anon, htext]
    | _ => rfl
  · simp [rangeKernel]

/-- **No computation of the standard registry looks at the names of parameters.** -/
theorem blind_of_isKernel {compute : Kernel} (h : IsKernel compute) : compute.Blind := by
  cases h with
  | raise => exact blind_raiseKernel
  | fused => exact blind_fusedKernel
  | binary op => exact blind_binaryKernel op
  | negate => exact blind_negateKernel
  | complement => exact blind_complementKernel
  | array => exact blind_arrayKernel
  | length => exact blind_lengthKernel
  | sum => exact blind_sumKernel
  | max => exact blind_maxKernel
  | range => exact blind_rangeKernel

end Standard

end ChainCalc
