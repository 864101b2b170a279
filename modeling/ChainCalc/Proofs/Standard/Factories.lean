import ChainCalc.Proofs.Addressing.World
import ChainCalc.Proofs.Standard.Entries
/-!
# The nodes of the standard registry

Whatever entry of the standard registry makes a node, the nodes inside it are nodes that its placeholders were bound to, and
its computation neither makes functions nor fails for want of an address (`sound_of_isStandard`).  Given the number of values
that it is made for, a computation fails only for what these values are (`Kernel.Takes`).
-/
namespace ChainCalc

/-! ### Computations -/

def Fault.isOrdinary : Fault → Bool
  | .dimensionMismatch _ _ | .typeMismatch _ _ | .divisionByZero | .raised _ => true
  | _ => false

def PlainFaults {α : Type} (r : Except Fault α) : Prop := ∀ f, r = .error f → f.isOrdinary = true

def TidyResult (r : Except Fault Value) : Prop := (∀ v, r = .ok v → v.asFunction? = none) ∧ PlainFaults r

namespace TidyResult

theorem ok {v : Value} (h : v.asFunction? = none) : TidyResult (.ok v) :=
  ⟨fun _ hv => (by cases hv; exact h), fun _ hf => (by cases hf)⟩

theorem error {f : Fault} (h : f.isOrdinary = true) : TidyResult (.error f) :=
  ⟨fun _ hv => (by cases hv), fun _ hf => (by cases hf; exact h)⟩

theorem bind {α : Type} {x : Except Fault α} {g : α → Except Fault Value} (hx : PlainFaults x) (hg : ∀ a, TidyResult (g a)) :
    TidyResult (x >>= g) := by
  cases x with
  | error f => exact error (hx f rfl)
  | ok a => exact hg a

theorem plain {r : Except Fault Value} (h : TidyResult r) : PlainResult r := by
  refine ⟨h.1, fun f hf => ?_⟩
  have ordinary := h.2 f hf
  cases f with
  | unbound name => cases ordinary
  | internal cause => cases ordinary
  | _ => rfl

end TidyResult

theorem PlainResult.error {f : Fault} (h : f.isAddressing = false) : PlainResult (.error f) :=
  ⟨fun _ hv => (by cases hv), fun _ hf => (by cases hf; exact h)⟩

namespace PlainFaults

theorem bind {α β : Type} {x : Except Fault α} {g : α → Except Fault β} (hx : PlainFaults x) (hg : ∀ a, PlainFaults (g a)) :
    PlainFaults (x >>= g) := by
  cases x with
  | error f => intro f' h; cases h; exact hx f rfl
  | ok a => exact hg a

theorem ok {α : Type} (a : α) : PlainFaults (.ok a) := fun _ h => by cases h

theorem error {α : Type} {f : Fault} (h : f.isOrdinary = true) : PlainFaults (.error f : Except Fault α) :=
  fun _ hf => by cases hf; exact h

theorem expectFloat (v : Value) : PlainFaults v.expectFloat := by
  unfold Value.expectFloat
  split
  · exact ok _
  · exact error rfl

theorem expectBool (v : Value) : PlainFaults v.expectBool := by
  unfold Value.expectBool
  split
  · exact ok _
  · exact error rfl

theorem expectArray (v : Value) : PlainFaults v.expectArray := by
  unfold Value.expectArray
  split
  · exact ok _
  · exact error rfl

theorem mapM {α β : Type} {f : α → Except Fault β} (h : ∀ a, PlainFaults (f a)) : ∀ l : List α, PlainFaults (l.mapM f)
  | [] => by
    rw [List.mapM_nil]
    exact ok _
  | a :: l => by
    rw [List.mapM_cons]
    exact (h a).bind (fun _ => (mapM h l).bind (fun _ => ok _))

theorem foldlM {α β : Type} {f : β → α → Except Fault β} (h : ∀ b a, PlainFaults (f b a)) :
    ∀ (l : List α) (b : β), PlainFaults (l.foldlM f b)
  | [], b => by
    rw [List.foldlM_nil]
    exact ok _
  | a :: l, b => by
    rw [List.foldlM_cons]
    exact (h b a).bind (fun b' => foldlM h l b')

theorem compareValues (v u : Value) : PlainFaults (Arithmetic.compareValues v u) := by
  unfold Arithmetic.compareValues
  split
  · exact ok _
  · exact ok _
  · exact (expectFloat _).bind (fun _ => (expectFloat _).bind (fun _ => ok _))

end PlainFaults

open TidyResult PlainFaults

theorem tidyResult_arithmetic (op : Operator) (v u : Value) : TidyResult (Arithmetic.arithmetic op v u) := by
  unfold Arithmetic.arithmetic
  split
  · split
    · exact .error rfl
    · split
      · exact .ok rfl
      · exact .ok rfl
  · split
    · exact .ok rfl
    · exact .error rfl
  · exact .bind (expectFloat _) (fun _ => .ok rfl)
  · exact .bind (expectFloat _) (fun _ => .ok rfl)
  · split
    · exact .ok rfl
    · exact .error rfl
  · exact .bind (expectFloat _) (fun _ => .bind (expectFloat _) (fun _ => .ok rfl))

theorem tidyResult_binary (op : Operator) (v u : Value) : TidyResult (Arithmetic.binary op v u) := by
  unfold Arithmetic.binary
  split
  · exact .ok rfl
  · exact .ok rfl
  · refine .bind (expectBool _) (fun b => ?_)
    split
    · exact .bind (expectBool _) (fun _ => .ok rfl)
    · exact .ok rfl
  · refine .bind (expectBool _) (fun b => ?_)
    split
    · exact .ok rfl
    · exact .bind (expectBool _) (fun _ => .ok rfl)
  · exact .bind (compareValues v u) (fun _ => .ok rfl)
  · exact .bind (compareValues v u) (fun _ => .ok rfl)
  · exact .bind (compareValues v u) (fun _ => .ok rfl)
  · exact .bind (compareValues v u) (fun _ => .ok rfl)
  · exact tidyResult_arithmetic _ v u

/-- **A computation made for `n` values**: given as many, it has nothing to complain about but the values. -/
def Kernel.Takes (compute : Kernel) (n : Nat) : Prop := ∀ args, args.length = n → TidyResult (compute args)

namespace Standard

theorem takes_fusedKernel : Kernel.Takes fusedKernel 3 := by
  intro args h
  obtain ⟨a, b, c, rfl⟩ := List.length_eq_three.1 h
  exact .bind (tidyResult_binary _ _ _).2 (fun _ => tidyResult_binary _ _ _)

theorem takes_binaryKernel (op : Operator) : Kernel.Takes (binaryKernel op) 2 := by
  intro args h
  obtain ⟨a, b, rfl⟩ := List.length_eq_two.1 h
  exact tidyResult_binary _ _ _

theorem takes_negateKernel : Kernel.Takes negateKernel 1 := by
  intro args h
  obtain ⟨v, rfl⟩ := List.length_eq_one_iff.1 h
  show TidyResult (Arithmetic.negate v)
  unfold Arithmetic.negate
  split
  · split
    · exact .ok rfl
    · exact .ok rfl
  · exact .ok rfl
  · exact .bind (expectFloat _) (fun _ => .ok rfl)

theorem takes_complementKernel : Kernel.Takes complementKernel 1 := by
  intro args h
  obtain ⟨v, rfl⟩ := List.length_eq_one_iff.1 h
  exact .bind (expectBool _) (fun _ => .ok rfl)

theorem takes_raiseKernel (n : Nat) : Kernel.Takes raiseKernel n := fun _ _ => TidyResult.error rfl

theorem takes_arrayKernel (n : Nat) : Kernel.Takes arrayKernel n := fun args _ =>
  TidyResult.bind (PlainFaults.mapM expectFloat args) (fun _ => .ok rfl)

theorem takes_lengthKernel : Kernel.Takes lengthKernel 1 := by
  intro args h
  obtain ⟨v, rfl⟩ := List.length_eq_one_iff.1 h
  cases v with
  | array items => exact .ok rfl
  | str s => exact .ok rfl
  | _ => exact .error rfl

theorem takes_sumKernel : Kernel.Takes sumKernel 1 := by
  intro args h
  obtain ⟨v, rfl⟩ := List.length_eq_one_iff.1 h
  exact .bind (expectArray _) (fun _ => .ok rfl)

theorem takes_maxKernel (n : Nat) : Kernel.Takes maxKernel n := by
  intro args _
  unfold maxKernel
  split
  · exact .error rfl
  · exact .ok rfl
  · split
    · exact .ok rfl
    · exact .bind (PlainFaults.foldlM (fun _ v => (expectFloat v).bind (fun _ => .ok _)) _ _) (fun _ => .ok rfl)

theorem takes_rangeKernel : Kernel.Takes rangeKernel 1 := by
  intro args h
  obtain ⟨v, rfl⟩ := List.length_eq_one_iff.1 h
  cases v with
  | int n =>
    show TidyResult (if _ then _ else _)
    split
    · exact .ok rfl
    · exact .error rfl
  | _ => exact .error rfl

end Standard

/-- A result that is no function or an ordinary fault, unless the number of values was wrong and nothing else is said. -/
def CountedResult (r : Except Fault Value) : Prop :=
  TidyResult r ∨ ∃ cause, r = .error (.internal cause) ∧ (Fault.internal cause).isAddressing = false

theorem Kernel.Takes.counted {compute : Kernel} {n : Nat} (h : compute.Takes n)
    (else' : ∀ args, args.length ≠ n →
      ∃ cause, compute args = .error (.internal cause) ∧ (Fault.internal cause).isAddressing = false) (args : List Value) :
    CountedResult (compute args) := by
  by_cases hn : args.length = n
  · exact .inl (h args hn)
  · exact .inr (else' args hn)

theorem CountedResult.plain {r : Except Fault Value} (h : CountedResult r) : PlainResult r := by
  rcases h with tidy | ⟨cause, rfl, addressed⟩
  · exact tidy.plain
  · exact .error addressed

theorem CountedResult.ne_stackOverflow {r : Except Fault Value} (h : CountedResult r) (limit : Nat) :
    r ≠ .error (.stackOverflow limit) := by
  rintro rfl
  rcases h with tidy | ⟨cause, h, -⟩
  · cases tidy.2 _ rfl
  · cases h

/-! ### Factories -/

/-- A factory that is sound: what it makes refers to nothing by itself, and is made of what it was given. -/
structure Factory.Sound (f : Factory) : Prop where
  refers : ∀ {b name label node}, f b name label = .ok node → ∀ G w L, node.Refers G w L
  children : ∀ {b name label node}, f b name label = .ok node → ∀ x ∈ node.children, ∃ g ∈ b.nodes.values, x ∈ g

theorem Factory.sound_ofKernel {compute : Kernel} (h : compute.Plain) : (Factory.ofKernel compute).Sound where
  refers hnode G w L := by cases hnode; exact h
  children hnode x hx := by
    cases hnode
    exact List.mem_flatten.1 hx

namespace Standard

/-- **The computations of the standard registry** complain about their values or about how many they are. -/
theorem counted_of_isKernel {compute : Kernel} (h : IsKernel compute) : ∀ args, CountedResult (compute args) := by
  cases h with
  | raise => exact fun args => .inl (takes_raiseKernel _ args rfl)
  | array => exact fun args => .inl (takes_arrayKernel _ args rfl)
  | max => exact fun args => .inl (takes_maxKernel _ args rfl)
  | fused =>
    refine takes_fusedKernel.counted (fun args hn => ?_)
    unfold fusedKernel
    split
    · exact absurd rfl hn
    · exact ⟨_, rfl, rfl⟩
  | binary op =>
    refine (takes_binaryKernel op).counted (fun args hn => ?_)
    unfold binaryKernel
    split
    · exact absurd rfl hn
    · exact ⟨_, rfl, rfl⟩
  | negate =>
    refine takes_negateKernel.counted (fun args hn => ?_)
    unfold negateKernel
    split
    · exact absurd rfl hn
    · exact ⟨_, rfl, rfl⟩
  | complement =>
    refine takes_complementKernel.counted (fun args hn => ?_)
    unfold complementKernel
    split
    · exact absurd rfl hn
    · exact ⟨_, rfl, rfl⟩
  | length =>
    refine takes_lengthKernel.counted (fun args hn => ?_)
    unfold lengthKernel
    split
    · exact absurd rfl hn
    · exact absurd rfl hn
    · exact absurd rfl hn
    · exact ⟨_, rfl, rfl⟩
  | sum =>
    refine takes_sumKernel.counted (fun args hn => ?_)
    unfold sumKernel
    split
    · exact absurd rfl hn
    · exact ⟨_, rfl, rfl⟩
  | range =>
    refine takes_rangeKernel.counted (fun args hn => ?_)
    unfold rangeKernel
    split
    · exact absurd rfl hn
    · exact absurd rfl hn
    · exact ⟨_, rfl, rfl⟩

theorem plain_of_isKernel {compute : Kernel} (h : IsKernel compute) : compute.Plain :=
  fun args => (counted_of_isKernel h args).plain

/-- **Every factory of the standard registry makes sound nodes.** -/
theorem sound_of_isStandard {f : Factory} (h : IsStandard f) : f.Sound := by
  cases h with
  | conditional =>
    constructor
    · intro b name label node hnode G w L
      obtain ⟨c, y, n, -, -, -, rfl⟩ := ifEntry_eq_ok.1 hnode
      trivial
    · intro b name label node hnode x hx
      obtain ⟨c, y, n, hc, hy, hn, rfl⟩ := ifEntry_eq_ok.1 hnode
      simp only [Node.children, List.mem_cons, List.not_mem_nil, or_false] at hx
      rcases hx with rfl | rfl | rfl
      · exact Bound.mem_of_one hc
      · exact Bound.mem_of_one hy
      · exact Bound.mem_of_one hn
  | fetch =>
    constructor
    · intro b name label node hnode G w L
      obtain ⟨key, -, rfl⟩ := fetchEntry_eq_ok.1 hnode
      trivial
    · intro b name label node hnode x hx
      obtain ⟨key, hkey, rfl⟩ := fetchEntry_eq_ok.1 hnode
      cases List.mem_singleton.1 hx
      exact Bound.mem_of_one hkey
  | pi => exact ⟨fun hnode G w L => by cases hnode; exact .plain rfl, fun hnode x hx => by cases hnode; cases hx⟩
  | worker query => exact ⟨fun hnode G w L => by cases hnode; trivial, fun hnode x hx => by cases hnode; cases hx⟩
  | kernel known => exact Factory.sound_ofKernel (plain_of_isKernel known)

end Standard

end ChainCalc
