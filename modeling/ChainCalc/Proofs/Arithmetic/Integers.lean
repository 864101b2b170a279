import Mathlib
import ChainCalc.Arithmetic
/-!
# Integers that stay integers — the exact result while it fits

An operator on two integers gives the integer that is the exact result wherever that fits in 64 bits, and a double
elsewhere (`ints_stay_ints`), but for two slips.  The remainder of the least integer by minus one is zero, and the powers
of zero, one and minus one are among these three whatever the exponent; of the first, and of exponents that need more than
32 bits, a double is made all the same (`fitting_results_become_doubles`).
-/
namespace ChainCalc
namespace Arithmetic

/-! ### What fits -/

def Fits (n : Int) : Prop := -2 ^ 63 ≤ n ∧ n < 2 ^ 63

instance (n : Int) : Decidable (Fits n) := inferInstanceAs (Decidable (_ ∧ _))

theorem fits_toInt (n : Int64) : Fits n.toInt := ⟨n.le_toInt, n.toInt_lt⟩

theorem fits?_eq_ite (n : Int) : fits? n = if Fits n then some (Int64.ofInt n) else none := rfl

theorem fits?_eq_some {n : Int} {m : Int64} : fits? n = some m ↔ m.toInt = n := by
  rw [fits?_eq_ite]
  constructor
  · intro h
    split at h
    · rename_i fits
      cases h
      exact Int64.toInt_ofInt_of_le fits.1 fits.2
    · cases h
  · rintro rfl
    rw [if_pos (fits_toInt m), Int64.ofInt_toInt]

theorem fits?_eq_none {n : Int} : fits? n = none ↔ ¬ Fits n := by
  rw [fits?_eq_ite]
  split
  · rename_i fits
    simp [fits]
  · rename_i misfit
    simp [misfit]

/-! ### Powers -/

theorem pow_of_small {base : Int} (small : base.natAbs ≤ 1) (e : Nat) : base ^ (min e (2 - e % 2)) = base ^ e := by
  rcases Nat.eq_zero_or_pos e with rfl | he
  · rfl
  obtain rfl | rfl | rfl : base = 0 ∨ base = 1 ∨ base = -1 := by omega
  · rw [zero_pow (by omega), zero_pow (by omega)]
  · rw [one_pow, one_pow]
  · rcases Nat.even_or_odd e with even | odd
    · have least : min e (2 - e % 2) = 2 := by
        have := Nat.even_iff.1 even
        omega
      rw [least, even.neg_one_pow, even_two.neg_one_pow]
    · have least : min e (2 - e % 2) = 1 := by
        have := Nat.odd_iff.1 odd
        omega
      rw [least, odd.neg_one_pow, pow_one]

theorem not_fits_pow {base : Int} (large : ¬ base.natAbs ≤ 1) {e : Nat} (high : 64 ≤ e) : ¬ Fits (base ^ e) := by
  intro fits
  have grows : 2 ^ 64 ≤ base.natAbs ^ e :=
    calc 2 ^ 64 ≤ 2 ^ e := Nat.pow_le_pow_right (by decide) high
      _ ≤ base.natAbs ^ e := Nat.pow_le_pow_left (by omega) e
  rw [← Int.natAbs_pow] at grows
  unfold Fits at fits
  generalize base ^ e = p at fits grows
  omega

theorem pow?_eq_some {base : Int} {e : Nat} {n : Int64} : pow? base e = some n ↔ n.toInt = base ^ e := by
  unfold pow?
  split
  · rename_i small
    rw [fits?_eq_some]
    exact iff_of_eq (congrArg _ (pow_of_small small e))
  · rename_i large
    split
    · rename_i high
      refine iff_of_false (by simp) (fun hn => not_fits_pow large high ?_)
      rw [← hn]
      exact fits_toInt n
    · exact fits?_eq_some

/-! ### The exact result -/

/-- The exact result of an operator on two integers, where it is defined: nothing is divided by zero, and no exponent is
negative.  The remainder has the sign of the dividend. -/
def exactly (op : Operator) (a b : Int) : Option Int :=
  match op with
  | .add => some (a + b)
  | .sub => some (a - b)
  | .mul => some (a * b)
  | .mod => if b = 0 then none else some (a.tmod b)
  | .pow => if b < 0 then none else some (a ^ b.toNat)
  | _ => none

/-- The result fits and a double is made of it nevertheless. -/
inductive Slips : Operator → Int → Int → Prop
  | remainder : Slips .mod (-2 ^ 63) (-1)
  | power {a b : Int} (small : a.natAbs ≤ 1) (high : 2 ^ 32 ≤ b) : Slips .pow a b

theorem slips_mod {a b : Int} : Slips .mod a b ↔ a = -2 ^ 63 ∧ b = -1 := by
  constructor
  · rintro ⟨⟩
    exact ⟨rfl, rfl⟩
  · rintro ⟨rfl, rfl⟩
    exact .remainder

theorem slips_pow {a b : Int} : Slips .pow a b ↔ a.natAbs ≤ 1 ∧ 2 ^ 32 ≤ b := by
  constructor
  · rintro ⟨⟩
    exact ⟨‹_›, ‹_›⟩
  · exact fun h => .power h.1 h.2

/-- Every slip is one: its result fits. -/
theorem Slips.fits {op : Operator} {a b : Int} (slips : Slips op a b) : ∃ r, exactly op a b = some r ∧ Fits r := by
  cases slips with
  | remainder => exact ⟨0, rfl, by decide⟩
  | power small high =>
    refine ⟨a ^ b.toNat, if_neg (by omega), ?_⟩
    have bounded : (a ^ b.toNat).natAbs ≤ 1 := by
      rw [Int.natAbs_pow]
      exact pow_le_one₀ (Nat.zero_le _) small
    unfold Fits
    generalize a ^ b.toNat = p at bounded
    omega

theorem onInts?_eq_some {op : Operator} {a b n : Int64} {r : Int} (hr : exactly op a.toInt b.toInt = some r) :
    onInts? op a b = some n ↔ n.toInt = r ∧ ¬ Slips op a.toInt b.toInt := by
  cases op with
  | add | sub | mul =>
    cases hr
    refine fits?_eq_some.trans (and_iff_left ?_).symm
    rintro ⟨⟩
  | mod =>
    simp only [exactly] at hr
    split at hr
    · cases hr
    · cases hr
      simp only [onInts?, slips_mod]
      split
      · rename_i least
        exact iff_of_false (by simp) (fun h => h.2 least)
      · rename_i other
        exact fits?_eq_some.trans (and_iff_left other).symm
  | pow =>
    simp only [exactly] at hr
    split at hr
    · cases hr
    · cases hr
      simp only [onInts?, slips_pow]
      split
      · rename_i low
        exact pow?_eq_some.trans (and_iff_left (fun h => absurd h.2 (Int.not_le.2 low.2))).symm
      · rename_i high
        refine iff_of_false (by simp) (fun h => ?_)
        have high : 2 ^ 32 ≤ b.toInt := by
          by_contra low
          exact high ⟨by omega, Int.not_le.1 low⟩
        refine not_fits_pow (fun small => h.2 ⟨small, high⟩) (e := b.toInt.toNat) (by omega) ?_
        rw [← h.1]
        exact fits_toInt n
  | _ => cases hr

theorem binary_ints {op : Operator} {a b : Int64} {r : Int} (hr : exactly op a.toInt b.toInt = some r) :
    binary op (.int a) (.int b) =
      match onInts? op a b with
      | some n => .ok (.int n)
      | none => .ok (.float (onFloats op a.toFloat b.toFloat)) := by
  have divides : ¬ (op = .mod ∧ b = 0) := by
    rintro ⟨rfl, rfl⟩
    cases hr
  have reaches : binary op (.int a) (.int b) = arithmetic op (.int a) (.int b) := by
    cases op with
    | add | sub | mul | mod | pow => rfl
    | _ => cases hr
  rw [reaches, arithmetic]
  exact if_neg divides

/-- **Two integers give the exact integer just where it fits**, and a double elsewhere, but for the slips; and so does
negation, without any. -/
theorem ints_stay_ints (op : Operator) (a b : Int64) :
    (∀ r, exactly op a.toInt b.toInt = some r →
      (∀ n, binary op (.int a) (.int b) = .ok (.int n) ↔ n.toInt = r ∧ ¬ Slips op a.toInt b.toInt) ∧
      (¬ Fits r → binary op (.int a) (.int b) = .ok (.float (onFloats op a.toFloat b.toFloat))) ∧
      (Slips op a.toInt b.toInt → Fits r ∧ binary op (.int a) (.int b) = .ok (.float (onFloats op a.toFloat b.toFloat)))) ∧
    (∀ n, negate (.int a) = .ok (.int n) ↔ n.toInt = -a.toInt) ∧
    (¬ Fits (-a.toInt) → negate (.int a) = .ok (.float (-a.toFloat))) := by
  refine ⟨fun r hr => ?_, fun n => ?_, fun misfit => ?_⟩
  · have double : (∀ n, onInts? op a b ≠ some n) →
        binary op (.int a) (.int b) = .ok (.float (onFloats op a.toFloat b.toFloat)) := by
      intro missed
      rw [binary_ints hr, Option.eq_none_iff_forall_ne_some.2 missed]
    refine ⟨fun n => ?_, fun misfit => double (fun n hn => ?_), fun slips => ⟨?_, double (fun n hn => ?_)⟩⟩
    · rw [binary_ints hr, ← onInts?_eq_some hr]
      cases onInts? op a b <;> simp
    · obtain ⟨rfl, -⟩ := (onInts?_eq_some hr).1 hn
      exact misfit (fits_toInt n)
    · obtain ⟨r', hr', fits⟩ := slips.fits
      cases hr.symm.trans hr'
      exact fits
    · exact ((onInts?_eq_some hr).1 hn).2 slips
  · rw [negate, ← fits?_eq_some]
    cases fits? (-a.toInt) <;> simp
  · rw [negate, fits?_eq_none.2 misfit]

theorem ints_stay_ints_power :
    exactly .pow (Int64.toInt (-2)) (Int64.toInt 63) = some (-2 ^ 63) ∧
      binary .pow (.int (-2)) (.int 63) = .ok (.int .minValue) ∧
      exactly .pow (Int64.toInt 2) (Int64.toInt 63) = some (2 ^ 63) ∧
      binary .pow (.int 2) (.int 63) = .ok (.float (onFloats .pow (Int64.toFloat 2) (Int64.toFloat 63))) :=
  ⟨by decide, (((ints_stay_ints .pow (-2) 63).1 _ rfl).1 _).2 ⟨by decide, by rw [slips_pow]; decide⟩,
    by decide, ((ints_stay_ints .pow 2 63).1 _ rfl).2.1 (by decide)⟩

/-- **Results that fit become doubles**: the remainder of the least integer by minus one, and one raised to the power of
two to the 32. -/
theorem fitting_results_become_doubles :
    (exactly .mod Int64.minValue.toInt (Int64.toInt (-1)) = some 0 ∧
      ∀ n, binary .mod (.int .minValue) (.int (-1)) ≠ .ok (.int n)) ∧
    (exactly .pow (Int64.toInt 1) (Int64.toInt 4294967296) = some 1 ∧
      ∀ n, binary .pow (.int 1) (.int 4294967296) ≠ .ok (.int n)) := by
  refine ⟨⟨by decide, fun n h => ?_⟩, ⟨?_, fun n h => ?_⟩⟩
  · cases h
  · show (if Int64.toInt 4294967296 < 0 then none else some (1 ^ (Int64.toInt 4294967296).toNat)) = some 1
    rw [one_pow, if_neg (by decide)]
  · cases h

end Arithmetic
end ChainCalc
