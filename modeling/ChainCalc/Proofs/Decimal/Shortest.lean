import ChainCalc.Decimal.Shortest
import ChainCalc.Proofs.Decimal.Rounding
/-!
# Shortest decimals — what the search finds lies in the interval

Each grid `10 ^ k` is tested in whole numbers; `inside_iff` says that the test is exact.  A grid finer than half the last
binary place always has a point in the interval, and twenty-four steps reach one from any double, so `shortest` ends on a
decimal that reads back: `shortest_rounds`.
-/
namespace ChainCalc
namespace Decimal

open ChainCalc.Dyadic (reach Rounds Canonical zpow_eq_div)

/-! ### Powers of ten and of two -/

/-- Ten is between `2 ^ (93 / 28)` and `2 ^ (10 / 3)`. -/
theorem ten_zpow_le_two_zpow {a b : ℤ} (h : 10 * a ≤ 3 * b) (h' : 93 * a ≤ 28 * b) : (10 : ℚ) ^ a ≤ 2 ^ b := by
  rcases le_total 0 a with ha | ha
  · obtain ⟨n, rfl⟩ := Int.eq_ofNat_of_zero_le ha
    obtain ⟨p, rfl⟩ := Int.eq_ofNat_of_zero_le (by omega : 0 ≤ b)
    rw [zpow_natCast, zpow_natCast]
    refine le_of_pow_le_pow_left₀ (by norm_num : (3 : ℕ) ≠ 0) (by positivity) ?_
    calc ((10 : ℚ) ^ n) ^ 3 = (10 ^ 3) ^ n := by rw [← pow_mul, ← pow_mul, mul_comm]
      _ ≤ (2 ^ 10) ^ n := by gcongr; norm_num
      _ = 2 ^ (10 * n) := by rw [← pow_mul]
      _ ≤ 2 ^ (p * 3) := pow_le_pow_right₀ (by norm_num) (by omega)
      _ = (2 ^ p) ^ 3 := pow_mul 2 p 3
  · obtain ⟨n, hn⟩ := Int.eq_ofNat_of_zero_le (neg_nonneg.mpr ha)
    obtain rfl : a = -n := by omega
    refine le_of_pow_le_pow_left₀ (by norm_num : (28 : ℕ) ≠ 0) (by positivity) ?_
    calc ((10 : ℚ) ^ (-(n : ℤ))) ^ 28 = ((10 ^ 28) ^ n)⁻¹ := by
          rw [zpow_neg, zpow_natCast, inv_pow, ← pow_mul, ← pow_mul, mul_comm]
      _ ≤ ((2 ^ 93) ^ n)⁻¹ := by gcongr; norm_num
      _ = 2 ^ (-(93 * n : ℤ)) := by rw [← pow_mul, zpow_neg]; norm_cast
      _ ≤ 2 ^ (b * 28) := zpow_le_zpow_right₀ (by norm_num) (by omega)
      _ = (2 ^ b) ^ 28 := by rw [zpow_mul]; norm_cast

/-! ### One grid -/

theorem common_unit (q k : Int) : ∃ c : ℚ, 0 < c ∧
    ((Nat.pow 2 (q - 2).toNat * Nat.pow 10 (-k).toNat : Nat) : ℚ) = c * 2 ^ (q - 2) ∧
    ((Nat.pow 2 (2 - q).toNat * Nat.pow 10 k.toNat : Nat) : ℚ) = c * 10 ^ k := by
  refine ⟨2 ^ (2 - q).toNat * 10 ^ (-k).toNat, by positivity, ?_, ?_⟩
  · rw [zpow_eq_div 2 (q - 2), neg_sub]
    simp only [Nat.pow_eq]
    push_cast
    field_simp
  · rw [zpow_eq_div 10 k]
    simp only [Nat.pow_eq]
    push_cast
    field_simp

/-- **The test of a grid point is exact.** -/
theorem inside_iff {m d scale unit : Nat} {q k : Int} {c : ℚ} (hm : m ≠ 0) (hc : 0 < c) (hs : (scale : ℚ) = c * 2 ^ (q - 2))
    (hu : (unit : ℚ) = c * 10 ^ k) :
    (if m % 2 = 0 then decide ((4 * m - reach m q) * scale ≤ d * unit) && decide (d * unit ≤ (4 * m + 2) * scale)
      else decide ((4 * m - reach m q) * scale < d * unit) && decide (d * unit < (4 * m + 2) * scale)) = true ↔
    Rounds m q (d * 10 ^ k) := by
  have hreach := Dyadic.reach_le m q
  have quarter : (2 : ℚ) ^ q = 4 * 2 ^ (q - 2) := by
    rw [zpow_sub₀ (by norm_num)]
    norm_num
    ring
  have hlow : (((4 * m - reach m q) * scale : Nat) : ℚ) = c * (((m : ℚ) - reach m q / 4) * 2 ^ q) := by
    rw [quarter, Nat.cast_mul, Nat.cast_sub (by omega), hs]
    push_cast
    ring
  have hhigh : (((4 * m + 2) * scale : Nat) : ℚ) = c * ((m + 1 / 2) * 2 ^ q) := by
    rw [quarter, Nat.cast_mul, hs]
    push_cast
    ring
  have hd : ((d * unit : Nat) : ℚ) = c * (d * 10 ^ k) := by
    rw [Nat.cast_mul, hu]
    ring
  generalize (4 * m - reach m q) * scale = low at hlow
  generalize (4 * m + 2) * scale = high at hhigh
  generalize d * unit = here at hd
  have le_here : low ≤ here ↔ ((m : ℚ) - reach m q / 4) * 2 ^ q ≤ d * 10 ^ k := by
    rw [← mul_le_mul_iff_right₀ hc, ← hlow, ← hd, Nat.cast_le]
  have here_le : here ≤ high ↔ d * 10 ^ k ≤ ((m : ℚ) + 1 / 2) * 2 ^ q := by
    rw [← mul_le_mul_iff_right₀ hc, ← hhigh, ← hd, Nat.cast_le]
  have lt_here : low < here ↔ ((m : ℚ) - reach m q / 4) * 2 ^ q < d * 10 ^ k := by
    rw [← mul_lt_mul_iff_right₀ hc, ← hlow, ← hd, Nat.cast_lt]
  have here_lt : here < high ↔ d * 10 ^ k < ((m : ℚ) + 1 / 2) * 2 ^ q := by
    rw [← mul_lt_mul_iff_right₀ hc, ← hhigh, ← hd, Nat.cast_lt]
  split_ifs with even
  · simp only [Bool.and_eq_true, decide_eq_true_eq, le_here, here_le]
    exact ⟨fun h => ⟨h.1, h.2, fun ho => by omega⟩, fun h => ⟨h.low, h.high⟩⟩
  · simp only [Bool.and_eq_true, decide_eq_true_eq, lt_here, here_lt]
    exact ⟨fun h => ⟨h.1.le, h.2.le, fun _ => h⟩, fun h => h.odd (by omega)⟩

theorem nearer_eq (tie : Tie) (d rest unit : Nat) : nearer tie d rest unit = d ∨ nearer tie d rest unit = d + 1 := by
  have choice : tie.choose d = d ∨ tie.choose d = d + 1 := by
    cases tie with
    | up => exact .inr rfl
    | even =>
      simp only [Tie.choose]
      omega
  unfold nearer
  split_ifs <;> simp [choice]

theorem onGrid_rounds {tie : Tie} {m d : Nat} {q k : Int} (hm : m ≠ 0) (h : onGrid tie m q k = some d) :
    Rounds m q (d * 10 ^ k) := by
  obtain ⟨c, hc, hs, hu⟩ := common_unit q k
  simp only [onGrid] at h
  split at h
  · next inside inside' =>
    obtain hd | hd := nearer_eq tie _ _ _ |>.imp (·.symm.trans (Option.some.inj h)) (·.symm.trans (Option.some.inj h))
    · exact hd ▸ (inside_iff hm hc hs hu).mp inside
    · exact hd ▸ (inside_iff hm hc hs hu).mp inside'
  · next inside _ =>
    cases h
    exact (inside_iff hm hc hs hu).mp inside
  · next _ inside' =>
    cases h
    exact (inside_iff hm hc hs hu).mp inside'
  · cases h

/-- A grid finer than half the last binary place offers a point. -/
theorem onGrid_of_lt {tie : Tie} {m : Nat} {q k : Int} (fine : (10 : ℚ) ^ k < 2 ^ (q - 1)) :
    ∃ d, onGrid tie m q k = some d := by
  obtain ⟨c, hc, hs, hu⟩ := common_unit q k
  have half : (2 : ℚ) ^ (q - 1) = 2 * 2 ^ (q - 2) := by
    rw [← Dyadic.two_zpow_succ]
    congr 1
    ring
  simp only [onGrid]
  generalize Nat.pow 2 (2 - q).toNat * Nat.pow 10 k.toNat = unit at hu ⊢
  generalize Nat.pow 2 (q - 2).toNat * Nat.pow 10 (-k).toNat = scale at hs ⊢
  have narrow : unit < 2 * scale := by
    rw [half] at fine
    have : (unit : ℚ) < 2 * scale := by
      rw [hs, hu]
      linarith [mul_lt_mul_of_pos_left fine hc]
    exact_mod_cast this
  have hunit : 0 < unit := by
    have : (0 : ℚ) < unit := by rw [hu]; positivity
    exact_mod_cast this
  -- the first point above the double is less than a grid step away, so it is inside
  have above : 4 * m * scale < (4 * m * scale / unit + 1) * unit := Nat.lt_mul_of_div_lt (Nat.lt_succ_self _) hunit
  have near : (4 * m * scale / unit + 1) * unit < (4 * m + 2) * scale := by
    have := Nat.div_mul_le_self (4 * m * scale) unit
    rw [add_mul, add_mul, one_mul]
    omega
  have low : (4 * m - reach m q) * scale < (4 * m * scale / unit + 1) * unit :=
    (Nat.mul_le_mul_right scale (Nat.sub_le _ _)).trans_lt above
  simp only [reach] at low
  split
  · exact ⟨_, rfl⟩
  · exact ⟨_, rfl⟩
  · exact ⟨_, rfl⟩
  · next _ outside => simp [low, near, low.le, near.le] at outside

/-! ### The search -/

theorem scan_onGrid {tie : Tie} {m : Nat} {q k : Int} {steps : Nat} (i : Nat) (hi : i < steps)
    (h : ∃ d, onGrid tie m q (k - i) = some d) :
    onGrid tie m q (scan tie m q steps k).2 = some (scan tie m q steps k).1 := by
  induction steps generalizing k i with
  | zero => omega
  | succ steps ih =>
    rw [scan]
    cases hk : onGrid tie m q k with
    | some d => simpa using hk
    | none =>
      cases i with
      | zero => simp [hk] at h
      | succ i => exact ih i (by omega) (by simpa [sub_sub, add_comm] using h)

/-- **The shortest decimal reads back as the double.** -/
theorem shortest_rounds (tie : Tie) {m : Nat} {q : Int} (c : Canonical m q) (hm : m ≠ 0) :
    Rounds m q ((shortest tie m q).1 * 10 ^ (shortest tie m q).2) := by
  refine onGrid_rounds hm (scan_onGrid 23 (by norm_num) (onGrid_of_lt ?_))
  have places : m.log2 < 53 := (Nat.log2_lt hm).mpr c.places
  have least : -1074 ≤ q := c.least
  have greatest := c.greatest
  refine (ten_zpow_le_two_zpow (b := q - 2) ?_ ?_).trans_lt (zpow_lt_zpow_right₀ (by norm_num) (by omega))
  all_goals
    simp only [ceiling]
    omega

end Decimal
end ChainCalc
