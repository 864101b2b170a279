import Mathlib.Algebra.Order.Field.Power
import Mathlib.Algebra.Order.Field.Rat
import Mathlib.Algebra.Order.Archimedean.Basic
import Mathlib.Tactic.Linarith
import Mathlib.Tactic.NormNum
import Mathlib.Tactic.Ring
import Mathlib.Tactic.Qify
import Mathlib.Tactic.Positivity
import Mathlib.Tactic.FieldSimp
import ChainCalc.Decimal.Dyadic
/-!
# Rounding — which fractions read as a given double

A double that is not negative is `m * 2 ^ q` in one way only, `Canonical m q`.  `Rounds m q r` is the interval of numbers
around it that are nearer to it than to its neighbours, ends included when `m` is even.  The main fact is `nearestBits_eq`:
`nearestBits` takes every fraction in that interval to the bits of the double.
-/
namespace ChainCalc
namespace Dyadic

/-! ### Powers -/

theorem zpow_eq_div (b : ℚ) (q : ℤ) : b ^ q = b ^ q.toNat / b ^ (-q).toNat := by
  rcases le_total 0 q with h | h
  · obtain ⟨n, rfl⟩ := Int.eq_ofNat_of_zero_le h
    simp
  · obtain ⟨n, hn⟩ := Int.eq_ofNat_of_zero_le (neg_nonneg.mpr h)
    obtain rfl : q = -n := by omega
    simp

theorem two_zpow_succ (q : ℤ) : (2 : ℚ) ^ (q + 1) = 2 * 2 ^ q := by
  rw [zpow_add_one₀ (by norm_num)]
  ring

/-! ### Rounding a quotient -/

/-- **The number nearest to a quotient**, given by the half-unit interval around it. -/
theorem roundDiv_eq {num den m : Nat} (pos : 0 < den) (low : 2 * m * den ≤ 2 * num + den)
    (high : 2 * num ≤ 2 * m * den + den)
    (odd : m % 2 = 1 → 2 * m * den < 2 * num + den ∧ 2 * num < 2 * m * den + den) :
    roundDiv num den = m := by
  have split : den * (num / den) + num % den = num := Nat.div_add_mod num den
  have rest : num % den < den := Nat.mod_lt num pos
  simp only [roundDiv]
  generalize num / den = f at *
  generalize num % den = r at *
  subst split
  -- only the floor and its successor are within half a unit
  have near : m = f ∨ m = f + 1 := by
    have above : m ≤ f + 1 := by
      by_contra h
      have : den * (f + 2) ≤ den * m := Nat.mul_le_mul_left den (by omega)
      nlinarith
    have below : f ≤ m := by
      by_contra h
      have : den * (m + 1) ≤ den * f := Nat.mul_le_mul_left den (by omega)
      nlinarith
    omega
  obtain rfl | rfl := near
  · have half : 2 * r ≤ den := by nlinarith
    have tie : m % 2 = 1 → 2 * r < den := fun h => by nlinarith [(odd h).2]
    split_ifs <;> omega
  · have half : den ≤ 2 * r := by nlinarith
    have tie : (f + 1) % 2 = 1 → den < 2 * r := fun h => by nlinarith [(odd h).1]
    split_ifs <;> omega

theorem roundDiv_scaled {num den m : Nat} {q : ℤ} (pos : 0 < den)
    (low : ((m : ℚ) - 1 / 2) * 2 ^ q ≤ num / den) (high : (num : ℚ) / den ≤ (m + 1 / 2) * 2 ^ q)
    (odd : m % 2 = 1 → ((m : ℚ) - 1 / 2) * 2 ^ q < num / den ∧ (num : ℚ) / den < (m + 1 / 2) * 2 ^ q) :
    roundDiv (num * Nat.pow 2 (-q).toNat) (den * Nat.pow 2 q.toNat) = m := by
  have hd : (0 : ℚ) < den := by exact_mod_cast pos
  have hu : (0 : ℚ) < 2 ^ (-q).toNat := by positivity
  simp only [zpow_eq_div 2 q, ← mul_div_assoc] at low high odd
  rw [div_le_div_iff₀ hu hd] at low
  rw [div_le_div_iff₀ hd hu] at high
  rw [div_lt_div_iff₀ hu hd, div_lt_div_iff₀ hd hu] at odd
  simp only [Nat.pow_eq]
  apply roundDiv_eq (Nat.mul_pos pos (Nat.pow_pos (by norm_num)))
  · qify
    linarith
  · qify
    linarith
  · intro h
    obtain ⟨above, below⟩ := odd h
    qify
    constructor <;> linarith

/-! ### The exponent of a fraction -/

theorem log2_bounds {n : Nat} (h : n ≠ 0) : (2 : ℚ) ^ (n.log2 : ℤ) ≤ n ∧ (n : ℚ) < 2 ^ ((n.log2 : ℤ) + 1) := by
  constructor
  · rw [zpow_natCast]
    exact_mod_cast Nat.log2_self_le h
  · rw [show ((n.log2 : ℤ) + 1) = ((n.log2 + 1 : Nat) : ℤ) by push_cast; ring, zpow_natCast]
    exact_mod_cast Nat.lt_log2_self

/-- **A fraction has 53 binary places at its exponent**, unless that would be below the least one. -/
theorem exponentOf_eq {num den : Nat} {t : ℤ} (hn : num ≠ 0) (hd : den ≠ 0)
    (low : (2 : ℚ) ^ (t + 52) ≤ num / den) (high : (num : ℚ) / den < 2 ^ (t + 53)) :
    exponentOf num den = max t minExponent := by
  obtain ⟨guess, hguess⟩ : ∃ g : ℤ, g = (num.log2 : ℤ) - den.log2 - 52 := ⟨_, rfl⟩
  have hden : (0 : ℚ) < den := by exact_mod_cast Nat.pos_of_ne_zero hd
  have two : (1 : ℚ) < 2 := by norm_num
  -- counting places gives the exponent up to one
  have above : (num : ℚ) / den < 2 ^ (guess + 53) := by
    rw [div_lt_iff₀ hden]
    calc (num : ℚ) < 2 ^ ((num.log2 : ℤ) + 1) := (log2_bounds hn).2
      _ = 2 ^ (guess + 53) * 2 ^ (den.log2 : ℤ) := by
        rw [← zpow_add₀ (by norm_num)]
        congr 1
        omega
      _ ≤ 2 ^ (guess + 53) * den := by gcongr; exact (log2_bounds hd).1
  have below : (2 : ℚ) ^ (guess + 51) < num / den := by
    rw [lt_div_iff₀ hden]
    calc (2 : ℚ) ^ (guess + 51) * den < 2 ^ (guess + 51) * 2 ^ ((den.log2 : ℤ) + 1) := by
          gcongr; exact (log2_bounds hd).2
      _ = 2 ^ (num.log2 : ℤ) := by
        rw [← zpow_add₀ (by norm_num)]
        congr 1
        omega
      _ ≤ num := (log2_bounds hn).1
  have test : num * Nat.pow 2 (-guess).toNat < den * Nat.pow 2 (guess.toNat + 52) ↔
      (num : ℚ) / den < 2 ^ (guess + 52) := by
    have hu : (0 : ℚ) < 2 ^ (-guess).toNat := by positivity
    rw [zpow_add₀ (by norm_num), zpow_eq_div 2 guess, div_mul_eq_mul_div, div_lt_div_iff₀ hden hu]
    simp only [Nat.pow_eq, pow_add]
    qify
    rw [mul_comm (den : ℚ)]
    norm_num
  have order {a b : ℤ} (h : (2 : ℚ) ^ a < 2 ^ b) : a < b := (zpow_lt_zpow_iff_right₀ two).mp h
  simp only [exponentOf, ← hguess, test]
  split_ifs with small
  · have h₁ := order (low.trans_lt small)
    have h₂ := order (below.trans high)
    congr 1
    omega
  · have h₁ := order (low.trans_lt above)
    have h₂ := order ((not_lt.mp small).trans_lt high)
    congr 1
    omega

theorem exponentOf_eq_minExponent {num den : Nat} (hn : num ≠ 0) (hd : den ≠ 0)
    (high : (num : ℚ) / den < 2 ^ (minExponent + 53)) : exponentOf num den = minExponent := by
  have pos : (0 : ℚ) < num / den := by positivity
  obtain ⟨n, low, high'⟩ := exists_mem_Ico_zpow pos (by norm_num : (1 : ℚ) < 2)
  rw [exponentOf_eq (t := n - 52) hn hd (by simpa using low) (by simpa [sub_add] using high')]
  have : n < minExponent + 53 := (zpow_lt_zpow_iff_right₀ (by norm_num : (1 : ℚ) < 2)).mp (low.trans_lt high)
  omega

/-! ### The interval around a double -/

structure Canonical (m : Nat) (q : Int) : Prop where
  least : minExponent ≤ q
  greatest : q ≤ 971
  places : m < 2 ^ 53
  leading : q = minExponent ∨ 2 ^ 52 ≤ m

def magnitudeBits (m : Nat) (q : Int) : Nat := (q - minExponent).toNat * 2 ^ 52 + m

/-- How far the interval goes below the double, in quarters of its last place: the neighbour below a power of two is only
half as far. -/
def reach (m : Nat) (q : Int) : Nat := if m = Nat.pow 2 52 ∧ minExponent < q then 1 else 2

/-- **The numbers that are nearer to `m * 2 ^ q` than to another double**, with both ends when `m` is even. -/
structure Rounds (m : Nat) (q : Int) (r : ℚ) : Prop where
  low : ((m : ℚ) - reach m q / 4) * 2 ^ q ≤ r
  high : r ≤ (m + 1 / 2) * 2 ^ q
  odd : m % 2 = 1 → ((m : ℚ) - reach m q / 4) * 2 ^ q < r ∧ r < (m + 1 / 2) * 2 ^ q

theorem reach_le (m : Nat) (q : Int) : reach m q ≤ 2 := by
  unfold reach
  split <;> omega

theorem Canonical.bits_lt {m : Nat} {q : Int} (c : Canonical m q) : magnitudeBits m q < infinityBits := by
  obtain ⟨least, greatest, places, -⟩ := c
  simp only [magnitudeBits, infinityBits, Nat.pow_eq, minExponent] at *
  omega

theorem Rounds.lt_zpow {m : Nat} {q : Int} {r : ℚ} (h : Rounds m q r) (places : m < 2 ^ 53) : r < 2 ^ (q + 53) := by
  have hm : (m : ℚ) + 1 ≤ 2 ^ 53 := by exact_mod_cast places
  have hq : (0 : ℚ) < 2 ^ q := by positivity
  calc r ≤ (m + 1 / 2) * 2 ^ q := h.high
    _ < 2 ^ 53 * 2 ^ q := by gcongr; linarith
    _ = 2 ^ (q + 53) := by rw [zpow_add₀ (by norm_num), mul_comm]; norm_num

theorem Rounds.zpow_le {m : Nat} {q : Int} {r : ℚ} (h : Rounds m q r) (hm : m ≠ 0) : 2 ^ (q - 1) ≤ r := by
  have hreach : (reach m q : ℚ) ≤ 2 := by exact_mod_cast reach_le m q
  have one : (1 : ℚ) ≤ m := by exact_mod_cast Nat.one_le_iff_ne_zero.mpr hm
  have hq : (0 : ℚ) < 2 ^ q := by positivity
  calc (2 : ℚ) ^ (q - 1) = 1 / 2 * 2 ^ q := by rw [zpow_sub_one₀ (by norm_num), mul_comm, one_div]
    _ ≤ ((m : ℚ) - reach m q / 4) * 2 ^ q := mul_le_mul_of_nonneg_right (by linarith) hq.le
    _ ≤ r := h.low

/-- **A fraction in the interval reads as the double.** -/
theorem nearestBits_eq {m num den : Nat} {q : Int} (c : Canonical m q) (hn : num ≠ 0) (hd : den ≠ 0)
    (h : Rounds m q (num / den)) : nearestBits num den = magnitudeBits m q := by
  have hpos : 0 < den := Nat.pos_of_ne_zero hd
  have hq : (0 : ℚ) < 2 ^ q := by positivity
  have hreach : (reach m q : ℚ) ≤ 2 := by exact_mod_cast reach_le m q
  have high := h.lt_zpow c.places
  -- with the exponent of the double, the half-unit interval around `m` is what is given
  have same (he : exponentOf num den = q) : nearestBits num den = magnitudeBits m q := by
    have round : roundDiv (num * Nat.pow 2 (-q).toNat) (den * Nat.pow 2 q.toNat) = m := by
      have low : ((m : ℚ) - 1 / 2) * 2 ^ q ≤ ((m : ℚ) - reach m q / 4) * 2 ^ q :=
        mul_le_mul_of_nonneg_right (by linarith) hq.le
      exact roundDiv_scaled hpos (low.trans h.low) h.high fun ho => ⟨low.trans_lt (h.odd ho).1, (h.odd ho).2⟩
    simp only [nearestBits, he, round]
    exact Nat.min_eq_left c.bits_lt.le
  rcases eq_or_lt_of_le c.least with rfl | least
  · exact same (exponentOf_eq_minExponent hn hd high)
  rcases le_or_gt ((2 : ℚ) ^ (q + 52)) (num / den) with normal | short
  · have he := exponentOf_eq hn hd normal high
    exact same (he.trans (max_eq_left c.least))
  -- below the power of two the exponent is one less, and the carry makes up for it
  have power : m = 2 ^ 52 := by
    by_contra hne
    have hm : (2 : ℚ) ^ 52 + 1 ≤ m := by
      have := c.leading
      exact_mod_cast (by omega : 2 ^ 52 + 1 ≤ m)
    have : (2 : ℚ) ^ (q + 52) ≤ num / den :=
      calc (2 : ℚ) ^ (q + 52) = 2 ^ 52 * 2 ^ q := by rw [zpow_add₀ (by norm_num), mul_comm]; norm_num
        _ ≤ ((m : ℚ) - reach m q / 4) * 2 ^ q := mul_le_mul_of_nonneg_right (by linarith) hq.le
        _ ≤ num / den := h.low
    linarith
  have quarter : reach m q = 1 := by simp [reach, power, least]
  have double : (2 : ℚ) ^ q = 2 * 2 ^ (q - 1) := by rw [← two_zpow_succ, sub_add_cancel]
  have low : ((2 ^ 53 : Nat) - 1 / 2 : ℚ) * 2 ^ (q - 1) ≤ num / den := by
    refine le_trans (le_of_eq ?_) h.low
    rw [quarter, power, double]
    push_cast
    ring
  have he : exponentOf num den = q - 1 := by
    have hlow : (2 : ℚ) ^ (q - 1 + 52) ≤ num / den := by
      refine le_trans ?_ low
      rw [zpow_add₀ (by norm_num), mul_comm]
      gcongr
      norm_num
    have hhigh : (num : ℚ) / den < 2 ^ (q - 1 + 53) := by rwa [show q - 1 + 53 = q + 52 by ring]
    rw [exponentOf_eq hn hd hlow hhigh]
    omega
  have round : roundDiv (num * Nat.pow 2 (-(q - 1)).toNat) (den * Nat.pow 2 (q - 1).toNat) = 2 ^ 53 := by
    refine roundDiv_scaled hpos low (short.le.trans ?_) (fun ho => by norm_num at ho)
    rw [show q + 52 = q - 1 + 53 by ring, zpow_add₀ (by norm_num), mul_comm]
    gcongr
    norm_num
  have bits := c.bits_lt
  simp only [nearestBits, he, round, magnitudeBits, power] at bits ⊢
  rw [Nat.min_eq_left] <;> simp only [Nat.pow_eq] <;> omega

/-! ### The parts of a double -/

/-- **The parts of a finite double are canonical**, and write its bits without the sign. -/
theorem ofBits_finite {bits m : Nat} {q : Int} {negative : Bool} (h : ofBits bits = .finite negative m q) :
    Canonical m q ∧ bits % 2 ^ 63 = magnitudeBits m q ∧ negative = (bits / 2 ^ 63 % 2 == 1) := by
  simp only [ofBits, Nat.pow_eq] at h
  split_ifs at h with infinite zero denormal
  · cases h
    refine ⟨⟨le_refl _, by decide, by omega, .inl rfl⟩, ?_, rfl⟩
    simp only [magnitudeBits, Int.sub_self, Int.toNat_zero]
    omega
  · cases h
    refine ⟨⟨by simp only [minExponent]; omega, by omega, by omega, .inr (by omega)⟩, ?_, rfl⟩
    simp only [magnitudeBits, minExponent]
    omega

end Dyadic
end ChainCalc
