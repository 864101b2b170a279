import ChainCalc.Proofs.Compile.Lockstep
import ChainCalc.Proofs.Standard.Factories
/-!
# What the standard registry sees

The computations of the standard registry ask for the kind of a value, for what a plain value holds, for its text, or
compare two values.  So they give the same for values that differ in nothing of that (`same_of_isKernel`): a function may
be replaced by another of the same text, as long as functions are equal where they were.  That is so for a function that
has kept its name and its parameters (`Counterparts.unseen`).

Its factories hand on what was captured, so they suit every correspondence of nodes that goes from the parts of a node to
the whole (`suits_standard`).
-/
namespace ChainCalc

/-- **A difference between values that no computation sees**: plain values do not differ at all, functions have the same
text, and comparisons come out the same. -/
structure Unseen (R : Value → Value → Prop) : Prop where
  shape : ∀ {v v' : Value}, R v v' → (v' = v ∧ v.asFunction? = none) ∨
    ∃ f f', v = .function f ∧ v' = .function f' ∧ v'.text = v.text
  beq : ∀ {v v' u u' : Value}, R v v' → R u u' → v'.beq u' = v.beq u

/-- **Counterparts**: the same plain value, or functions of one name and the same parameters that were given counterparts and
are told apart from other functions where those are told apart from theirs. -/
structure Counterparts (R : Value → Value → Prop) : Prop where
  shape : ∀ {v v' : Value}, R v v' → (v' = v ∧ v.asFunction? = none) ∨ ∃ f f' : Closure, v = .function f ∧ v' = .function f' ∧
    f'.definition.name = f.definition.name ∧ f'.definition.params = f.definition.params ∧ List.Forall₂ R f.applied f'.applied
  apart : ∀ {f f' g g' : Closure}, R (.function f) (.function f') → R (.function g) (.function g') →
    (f.definition.id = g.definition.id ↔ f'.definition.id = g'.definition.id)

namespace Counterparts

variable {R : Value → Value → Prop}

mutual

theorem beq (same : Counterparts R) : ∀ {v v' u u' : Value}, R v v' → R u u' → v'.beq u' = v.beq u
  | .function ⟨d, captured, applied⟩, v', u, u', hv, hu => by
    obtain ⟨-, plain⟩ | ⟨_, ⟨d', captured', applied'⟩, form, rfl, -, -, given⟩ := same.shape hv
    · cases plain
    cases form
    obtain ⟨rfl, plain⟩ | ⟨⟨e, _, _⟩, ⟨e', _, _⟩, rfl, rfl, -, -, given'⟩ := same.shape hu
    · cases u' with
      | function g => cases plain
      | _ => simp [Value.beq]
    · have hid : (d'.id == e'.id) = (d.id == e.id) := by
        rw [Bool.eq_iff_iff, beq_iff_eq, beq_iff_eq]
        exact (same.apart hv hu).symm
      rw [Value.beq, Value.beq, beqList same given given', hid]
  | .nil, v', u, u', hv, hu | .bool _, v', u, u', hv, hu | .int _, v', u, u', hv, hu | .float _, v', u, u', hv, hu
  | .str _, v', u, u', hv, hu | .array _, v', u, u', hv, hu => by
    obtain ⟨rfl, -⟩ | ⟨_, _, h, -⟩ := same.shape hv
    · obtain ⟨rfl, -⟩ | ⟨_, _, rfl, rfl, -⟩ := same.shape hu
      · rfl
      · simp [Value.beq]
    · cases h

theorem beqList (same : Counterparts R) : ∀ {vs vs' us us' : List Value}, List.Forall₂ R vs vs' → List.Forall₂ R us us' →
    Value.beqList vs' us' = Value.beqList vs us
  | [], _, [], _, .nil, .nil => rfl
  | [], _, _ :: _, _, .nil, .cons _ _ => rfl
  | _ :: _, _, [], _, .cons _ _, .nil => rfl
  | _ :: _, _, _ :: _, _, .cons h t, .cons h' t' => by
    rw [Value.beqList, Value.beqList, beq same h h', beqList same t t']

end

/-- **Between counterparts no computation sees a difference.** -/
theorem unseen (same : Counterparts R) : Unseen R where
  shape h := by
    obtain plain | ⟨f, f', rfl, rfl, name, params, given⟩ := same.shape h
    · exact .inl plain
    · refine .inr ⟨f, f', rfl, rfl, ?_⟩
      show "<fn " ++ _ ++ "/" ++ toString (_ - _) ++ ">" = "<fn " ++ _ ++ "/" ++ toString (_ - _) ++ ">"
      rw [name, params, given.length_eq]
  beq := same.beq

end Counterparts

section

variable {R : Value → Value → Prop}

variable (unseen : Unseen R)

include unseen

theorem Unseen.congr {α : Type} {F : Value → α} (same : ∀ f f', F (.function f') = F (.function f)) {v v' : Value}
    (h : R v v') : F v' = F v := by
  obtain ⟨rfl, -⟩ | ⟨f, f', rfl, rfl, -⟩ := unseen.shape h
  · rfl
  · exact same f f'

theorem Unseen.text {v v' : Value} (h : R v v') : v'.text = v.text := by
  obtain ⟨rfl, -⟩ | ⟨-, -, -, -, text⟩ := unseen.shape h
  · rfl
  · exact text

namespace Arithmetic

variable {v v' u u' : Value}

theorem arithmetic_right (op : Operator) (v : Value) (hu : R u u') : arithmetic op v u' = arithmetic op v u :=
  unseen.congr (fun _ _ => by cases v <;> rfl) hu

theorem arithmetic_unseen (op : Operator) (hv : R v v') (hu : R u u') : arithmetic op v' u' = arithmetic op v u := by
  have hleft : arithmetic op v' u' = arithmetic op v u' :=
    unseen.congr (F := (arithmetic op · u')) (fun _ _ => by cases u' <;> rfl) hv
  rw [hleft, arithmetic_right unseen op v hu]

theorem compareValues_unseen (hv : R v v') (hu : R u u') : compareValues v' u' = compareValues v u := by
  have hleft : compareValues v' u' = compareValues v u' :=
    unseen.congr (F := (compareValues · u')) (fun _ _ => by cases u' <;> rfl) hv
  have hright : compareValues v u' = compareValues v u := unseen.congr (fun _ _ => by cases v <;> rfl) hu
  rw [hleft, hright]

theorem equal_unseen (hv : R v v') (hu : R u u') : equal v' u' = equal v u := by
  have hbeq : (v' == u') = (v == u) := unseen.beq hv hu
  obtain ⟨rfl, plain⟩ | ⟨f, f', rfl, rfl, -⟩ := unseen.shape hv
  · cases v' with
    | function f => cases plain
    | _ => exact unseen.congr (fun _ _ => rfl) hu
  · exact hbeq

theorem binary_unseen (op : Operator) (hv : R v v') (hu : R u u') : binary op v' u' = binary op v u := by
  have bool : v'.expectBool = v.expectBool := unseen.congr (fun _ _ => rfl) hv
  have bool' : u'.expectBool = u.expectBool := unseen.congr (fun _ _ => rfl) hu
  unfold binary
  split
  · rw [equal_unseen unseen hv hu]
  · rw [equal_unseen unseen hv hu]
  · rw [bool, bool']
  · rw [bool, bool']
  · rw [compareValues_unseen unseen hv hu]
  · rw [compareValues_unseen unseen hv hu]
  · rw [compareValues_unseen unseen hv hu]
  · rw [compareValues_unseen unseen hv hu]
  · exact arithmetic_unseen unseen _ hv hu

end Arithmetic

theorem mapM_expectFloat_unseen {vs vs' : List Value} (h : List.Forall₂ R vs vs') :
    vs'.mapM Value.expectFloat = vs.mapM Value.expectFloat := by
  induction h with
  | nil => rfl
  | cons head _ ih =>
    have float := unseen.congr (F := Value.expectFloat) (fun _ _ => rfl) head
    rw [List.mapM_cons, List.mapM_cons, ih, float]

namespace Standard

theorem allInts?_unseen {vs vs' : List Value} (h : List.Forall₂ R vs vs') : allInts? vs' = allInts? vs := by
  unfold allInts?
  rw [isEmpty_eq_of_forall₂ h]
  congr 1
  induction h with
  | nil => rfl
  | cons head _ ih =>
    rw [List.mapM_cons, List.mapM_cons, ih]
    obtain ⟨rfl, -⟩ | ⟨f, f', rfl, rfl, -⟩ := unseen.shape head
    · rfl
    · rfl

theorem foldlM_max_unseen {vs vs' : List Value} (h : List.Forall₂ R vs vs') : ∀ x : Float,
    vs'.foldlM (fun x v => do return Arithmetic.maxFloat x (← v.expectFloat)) x =
      vs.foldlM (fun x v => do return Arithmetic.maxFloat x (← v.expectFloat)) x := by
  induction h with
  | nil => exact fun _ => rfl
  | cons head _ ih =>
    intro x
    have float := unseen.congr (F := Value.expectFloat) (fun _ _ => rfl) head
    simp only [List.foldlM_cons, float, ih]

/-- **No computation of the standard registry sees such a difference.** -/
theorem same_of_isKernel {compute : Kernel} (known : IsKernel compute) {vs vs' : List Value} (h : List.Forall₂ R vs vs') :
    compute vs' = compute vs := by
  cases known with
  | raise =>
    cases h with
    | nil => rfl
    | cons head _ => simp [raiseKernel, unseen.text head]
  | fused =>
    rcases h with _ | ⟨ha, _ | ⟨hb, _ | ⟨hc, _ | ⟨hd, hrest⟩⟩⟩⟩
    · rfl
    · rfl
    · rfl
    · have hsum : ∀ p, Arithmetic.binary .add p _ = Arithmetic.binary .add p _ :=
        fun p => Arithmetic.arithmetic_right unseen .add p hc
      simp only [fusedKernel, Arithmetic.binary_unseen unseen .mul ha hb, hsum]
    · simp [fusedKernel, wrongCount, hrest.length_eq]
  | binary op =>
    rcases h with _ | ⟨ha, _ | ⟨hb, _ | ⟨hc, hrest⟩⟩⟩
    · rfl
    · rfl
    · exact Arithmetic.binary_unseen unseen op ha hb
    · simp [binaryKernel, wrongCount, hrest.length_eq]
  | negate =>
    rcases h with _ | ⟨ha, _ | ⟨hb, hrest⟩⟩
    · rfl
    · exact unseen.congr (F := Arithmetic.negate) (fun _ _ => rfl) ha
    · simp [negateKernel, wrongCount, hrest.length_eq]
  | complement =>
    rcases h with _ | ⟨ha, _ | ⟨hb, hrest⟩⟩
    · rfl
    · exact unseen.congr (F := Arithmetic.complement) (fun _ _ => rfl) ha
    · simp [complementKernel, wrongCount, hrest.length_eq]
  | array => simp only [arrayKernel, mapM_expectFloat_unseen unseen h]
  | length =>
    rcases h with _ | ⟨ha, _ | ⟨hb, hrest⟩⟩
    · rfl
    · exact unseen.congr (F := fun v => lengthKernel [v]) (fun _ _ => rfl) ha
    · simp [lengthKernel]
  | sum =>
    rcases h with _ | ⟨ha, _ | ⟨hb, hrest⟩⟩
    · rfl
    · exact unseen.congr (F := fun v => sumKernel [v]) (fun _ _ => rfl) ha
    · rfl
  | max =>
    have hints := allInts?_unseen unseen h
    have hfold := foldlM_max_unseen unseen h lowest
    rcases h with _ | ⟨ha, _ | ⟨hb, hrest⟩⟩
    · rfl
    · exact unseen.congr (F := fun v => maxKernel [v]) (fun _ _ => rfl) ha
    · simp only [maxKernel, hints, hfold]
  | range =>
    rcases h with _ | ⟨ha, _ | ⟨hb, hrest⟩⟩
    · rfl
    · have text := unseen.text ha
      obtain ⟨rfl, -⟩ | ⟨f, f', rfl, rfl, -⟩ := unseen.shape ha
      · rfl
      · simp only [rangeKernel, text]
    · simp [rangeKernel]

end Standard

end

/-! ### Factories -/

section

variable {N : Node → Node → Prop} {b b' : Bound} (h : b.Alike N b')

include h

theorem Bound.Alike.one (placeholder : String) : Concur N (b.one placeholder) (b'.one placeholder) := by
  have found := h.nodes.get? placeholder
  unfold Bound.one
  rw [h.primitive]
  generalize b.nodes.get? placeholder = g at found ⊢
  generalize b'.nodes.get? placeholder = g' at found ⊢
  cases found with
  | none => exact .error _
  | some nodes =>
    cases nodes with
    | nil => exact .error _
    | cons head _ => exact .ok head

theorem Bound.Alike.ordered : List.Forall₂ N b.ordered b'.ordered := List.rel_flatten h.nodes.values

end

namespace Standard

/-- A relation of nodes that goes from the parts to the whole, for the nodes that the standard registry makes. -/
structure Respects (N : Node → Node → Prop) : Prop where
  conditional : ∀ label {c y n c' y' n'}, N c c' → N y y' → N n n' → N (.conditional label c y n) (.conditional label c' y' n')
  fetch : ∀ label {key key'}, N key key' → N (.fetch label key) (.fetch label key')
  constant : ∀ x, N (.constant (.float x)) (.constant (.float x))
  worker : ∀ query label, N (.worker query label) (.worker query label)
  kernel : ∀ name label {xs xs' compute}, IsKernel compute → List.Forall₂ N xs xs' →
    N (.kernel name label xs compute) (.kernel name label xs' compute)

/-- **The factories of the standard registry make alike of alike.** -/
theorem concur_of_isStandard {N : Node → Node → Prop} (respects : Respects N) {factory : Factory} (h : IsStandard factory)
    {b b' : Bound} (alike : b.Alike N b') (name label : String) : Concur N (factory b name label) (factory b' name label) := by
  cases h with
  | conditional =>
    refine (alike.one "_cond").bind (fun c c' hc => ?_)
    refine (alike.one "_then").bind (fun y y' hy => ?_)
    exact (alike.one "_else").bind (fun n n' hn => .ok (respects.conditional label hc hy hn))
  | fetch => exact (alike.one "_key").bind (fun key key' hkey => .ok (respects.fetch label hkey))
  | pi => exact .ok (respects.constant _)
  | worker query => exact .ok (respects.worker query label)
  | kernel known => exact .ok (respects.kernel name label known alike.ordered)

end Standard

theorem Correspondence.suits_standard {κ : Type} {C : Correspondence κ} (respects : ∀ k, Standard.Respects (C.node k)) :
    C.Suits .standard :=
  fun _ mem k _ _ name label alike =>
    Standard.concur_of_isStandard (respects k) (Standard.isStandard_of_mem mem) alike name label

end ChainCalc
