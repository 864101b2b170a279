import Mathlib
import ChainCalc.Decimal.Layout
import ChainCalc.Proofs.Decimal.Shortest
import ChainCalc.Proofs.Grammar.Phrases
/-!
# Round trip — a written double reads back

`toFloat_eq` says that a decimal in the interval of a double reads as that double.  The layouts only move the point, so
what `Layout.text` writes for a finite double is a literal of the grammar for the same double, to the last bit:
`text_literal`.  In the other direction `toFloat_bits` says that a decimal without a sign is never read as a NaN or with a
sign, though it may read as infinity.
-/
namespace ChainCalc

/-! ### Bits of a double -/

namespace Dyadic

open Float.Model (UnpackedFloat Format)

theorem unpackExponent_eq_iff (b : UInt64) :
    @UnpackedFloat.unpackExponent Format.binary64 b.toBitVec = -1#11 ↔ b.toNat / 2 ^ 52 % 2 ^ 11 = 2047 := by
  rw [UnpackedFloat.unpackExponent_def, ← BitVec.toNat_inj, BitVec.extractLsb'_toNat, Nat.shiftRight_eq_div_pow]
  rfl

theorem unpackMantissa_eq_iff (b : UInt64) :
    @UnpackedFloat.unpackMantissa Format.binary64 b.toBitVec = 0#52 ↔ b.toNat % 2 ^ 52 = 0 := by
  rw [UnpackedFloat.unpackMantissa_def, ← BitVec.toNat_inj, BitVec.extractLsb'_toNat, Nat.shiftRight_eq_div_pow]
  simp

theorem toBits_ofBits {b : UInt64} (h : ofBits b.toNat ≠ .nan) : (Float.ofBits b).toBits = b := by
  have number : ¬ @UnpackedFloat.isNaNBits Format.binary64 b.toBitVec = true := by
    intro nan
    obtain ⟨exponent, mantissa⟩ := of_decide_eq_true nan
    have exponent := (unpackExponent_eq_iff b).mp exponent
    have mantissa := mt (unpackMantissa_eq_iff b).mpr mantissa
    simp only [ofBits, Nat.pow_eq] at h
    rw [if_pos exponent, if_neg mantissa] at h
    exact h rfl
  have := @UnpackedFloat.pack_unpack Format.binary64 b.toBitVec (by decide)
  rw [if_neg number] at this
  exact UInt64.eq_of_toBitVec_eq this

theorem isFinite_iff (x : Float) : x.isFinite = true ↔ ∃ negative m q, ofFloat x = .finite negative m q := by
  change (UnpackedFloat.unpack Format.binary64 x.toBits.toBitVec).isFinite = true ↔ _
  have exponent := unpackExponent_eq_iff x.toBits
  simp only [ofFloat, ofBits, Nat.pow_eq]
  rw [UnpackedFloat.unpack.eq_def]
  by_cases infinite : x.toBits.toNat / 2 ^ 52 % 2 ^ 11 = 2047
  · simp only [if_pos infinite, if_pos (exponent.mpr infinite)]
    split_ifs <;> simp [UnpackedFloat.isFinite]
  · simp only [if_neg infinite, if_neg (mt exponent.mp infinite)]
    split_ifs <;> simp [UnpackedFloat.isFinite]

theorem isFinite_or_infinite {x : Float} (h : x.toBits.toNat ≤ infinityBits) :
    x.isFinite = true ∨ ofFloat x = .infinite false := by
  rw [isFinite_iff]
  simp only [ofFloat, ofBits, infinityBits, Nat.pow_eq] at *
  split_ifs with exponent fraction
  · have clear : (x.toBits.toNat / 2 ^ 63 % 2 == 1) = false := by
      simp only [beq_eq_false_iff_ne]
      omega
    exact .inr (by rw [clear])
  · omega
  · exact .inl ⟨_, _, _, rfl⟩
  · exact .inl ⟨_, _, _, rfl⟩

theorem toBits_ofBits_of_le {bits : Nat} (h : bits ≤ infinityBits) :
    (Float.ofBits (UInt64.ofNat bits)).toBits.toNat = bits := by
  have small : bits ≤ 2047 * 2 ^ 52 := h
  have toNat : (UInt64.ofNat bits).toNat = bits := UInt64.toNat_ofNat_of_lt' (by rw [UInt64.size]; omega)
  rw [toBits_ofBits, toNat]
  rw [toNat]
  simp only [ofBits, Nat.pow_eq]
  split_ifs <;> first | omega | simp

theorem nearest_bits (num den : Nat) : (nearest false num den).toBits.toNat ≤ infinityBits := by
  have le : (if num = 0 then 0 else nearestBits num den) ≤ infinityBits := by
    split_ifs
    · exact Nat.zero_le _
    · simp only [nearestBits]
      exact Nat.min_le_right _ _
  simp only [nearest, Bool.false_eq_true, if_false]
  rw [toBits_ofBits_of_le le]
  exact le

end Dyadic

namespace Decimal

open ChainCalc.Dyadic (Canonical Rounds magnitudeBits nearestBits_eq zpow_eq_div minExponent)

/-! ### Digits -/

theorem natOfDigits_eq (ds : List Char) : natOfDigits ds = Nat.ofDigitChars 10 ds 0 := by
  rw [Nat.ofDigitChars_eq_foldl]
  unfold natOfDigits digitValue
  congr
  funext n c
  rw [mul_comm]
  rfl

theorem digits_eq (d : Nat) : (toString d).toList = Nat.toDigits 10 d := by
  rw [Nat.toString_eq_ofList_toDigits, String.toList_ofList]

@[simp] theorem natOfDigits_toDigits (d : Nat) : natOfDigits (Nat.toDigits 10 d) = d := by
  rw [natOfDigits_eq, Nat.ofDigitChars_ten_toDigits]

theorem natOfDigits_zeros_append (n : Nat) (ds : List Char) : natOfDigits (List.replicate n '0' ++ ds) = natOfDigits ds := by
  simp [natOfDigits_eq, Nat.ofDigitChars_append, Nat.ofDigitChars_replicate_zero]

theorem natOfDigits_append_zeros (n : Nat) (ds : List Char) :
    natOfDigits (ds ++ List.replicate n '0') = natOfDigits ds * 10 ^ n := by
  simp [natOfDigits_eq, Nat.ofDigitChars_append, Nat.ofDigitChars_replicate_zero, mul_comm]

theorem digitText_toDigits (d : Nat) : Grammar.DigitText (Nat.toDigits 10 d) :=
  ⟨Nat.toDigits_ne_nil, fun c hc => Nat.isDigit_of_mem_toDigits (by norm_num) (by norm_num) hc⟩

theorem digits_bounds {d : Nat} (hd : d ≠ 0) :
    10 ^ ((toString d).length - 1) ≤ d ∧ d < 10 ^ (toString d).length ∧ 1 ≤ (toString d).length := by
  have len : (toString d).length = (Nat.toDigits 10 d).length := by rw [← String.length_toList, digits_eq]
  have pos : 0 < (Nat.toDigits 10 d).length := Nat.length_toDigits_pos
  rw [len]
  refine ⟨?_, (Nat.length_toDigits_le_iff (by norm_num) pos).mp le_rfl, pos⟩
  by_contra h
  rcases Nat.eq_zero_or_pos ((Nat.toDigits 10 d).length - 1) with zero | pos'
  · rw [zero] at h
    omega
  · have := (Nat.length_toDigits_le_iff (by norm_num) pos').mpr (not_le.mp h)
    omega

/-! ### Reading a decimal -/

theorem places_bounds {m d : Nat} {q k : Int} (c : Canonical m q) (hm : m ≠ 0) (h : Rounds m q (d * 10 ^ k)) (hd : d ≠ 0) :
    -400 ≤ ((toString d).length + k : Int) ∧ ((toString d).length + k : Int) ≤ 400 := by
  obtain ⟨low, high, len⟩ := digits_bounds hd
  have ten : (10 : ℚ) ≠ 0 := by norm_num
  have pos : (0 : ℚ) < 10 ^ k := by positivity
  have least : -1074 ≤ q := c.least
  constructor
  · by_contra small
    have : (d : ℚ) * 10 ^ k < 2 ^ (q - 1) :=
      calc (d : ℚ) * 10 ^ k < 10 ^ (toString d).length * 10 ^ k := by gcongr; exact_mod_cast high
        _ = 10 ^ ((toString d).length + k : ℤ) := by rw [zpow_add₀ ten, zpow_natCast]
        _ ≤ 10 ^ (-401 : ℤ) := zpow_le_zpow_right₀ (by norm_num) (by omega)
        _ ≤ 2 ^ (-1076 : ℤ) := ten_zpow_le_two_zpow (by norm_num) (by norm_num)
        _ < 2 ^ (q - 1) := zpow_lt_zpow_right₀ (by norm_num) (by omega)
    exact absurd (h.zpow_le hm) (not_le.mpr this)
  · by_contra large
    have : (2 : ℚ) ^ (q + 53) ≤ d * 10 ^ k :=
      calc (2 : ℚ) ^ (q + 53) ≤ 2 ^ (1200 : ℤ) := zpow_le_zpow_right₀ (by norm_num) (by have := c.greatest; omega)
        _ ≤ 10 ^ (400 : ℤ) := by
          rw [show (1200 : ℤ) = 3 * 400 by norm_num, zpow_mul]
          exact zpow_le_zpow_left₀ (by norm_num) (by norm_num) (by norm_num)
        _ ≤ 10 ^ (((toString d).length - 1 : Nat) + k : ℤ) := zpow_le_zpow_right₀ (by norm_num) (by omega)
        _ = 10 ^ ((toString d).length - 1) * 10 ^ k := by rw [zpow_add₀ ten, zpow_natCast]
        _ ≤ d * 10 ^ k := by gcongr; exact_mod_cast low
    exact absurd (h.lt_zpow c.places) (not_lt.mpr this)

/-- **A decimal in the interval of a double reads as that double.** -/
theorem toFloat_eq {m d : Nat} {q k : Int} (c : Canonical m q) (hm : m ≠ 0) (h : Rounds m q (d * 10 ^ k)) :
    toFloat false d k = Float.ofBits (UInt64.ofNat (magnitudeBits m q)) := by
  have hd : d ≠ 0 := by
    rintro rfl
    have : (0 : ℚ) < 2 ^ (q - 1) := by positivity
    simpa using this.trans_le (h.zpow_le hm)
  obtain ⟨low, high⟩ := places_bounds c hm h hd
  have hn : d * 10 ^ k.toNat ≠ 0 := by positivity
  have hden : 10 ^ (-k).toNat ≠ 0 := by positivity
  have ratio : ((d * 10 ^ k.toNat : Nat) : ℚ) / (10 ^ (-k).toNat : Nat) = d * 10 ^ k := by
    rw [zpow_eq_div 10 k]
    push_cast
    ring
  have near : toFloat false d k = Dyadic.nearest false (d * 10 ^ k.toNat) (10 ^ (-k).toNat) := by
    unfold toFloat
    rw [if_neg (by omega), if_neg (by omega)]
    rfl
  rw [near, Dyadic.nearest, if_neg hn, nearestBits_eq c hn hden (ratio ▸ h)]
  rfl

theorem toFloat_bits (d : Nat) (k : Int) : (toFloat false d k).toBits.toNat ≤ Dyadic.infinityBits := by
  unfold toFloat
  dsimp only
  split_ifs <;> exact Dyadic.nearest_bits _ _

/-! ### Writing a decimal -/

open Grammar (DigitText LiteralText ExponentText SignText)

theorem exponentText_toString (e : Int) (t : List Char) : ExponentText ('e' :: ((toString e).toList ++ t)) e t := by
  cases e with
  | ofNat n =>
    have := ExponentText.mk (t := t) (.inl rfl : 'e' = 'e' ∨ 'e' = 'E') (SignText.none _) (digitText_toDigits n)
    rw [show toString (Int.ofNat n) = toString n from rfl, digits_eq]
    simpa using this
  | negSucc n =>
    have := ExponentText.mk (t := t) (.inl rfl : 'e' = 'e' ∨ 'e' = 'E') (SignText.minus _) (digitText_toDigits (n + 1))
    rw [show toString (Int.negSucc n) = "-" ++ toString (n + 1) from rfl, String.toList_append, digits_eq]
    simpa [Int.negSucc_eq] using this

/-- Every way to place the point in `d * 10 ^ k` reads as `x`. -/
def Reads (x : Float) (d : Nat) (k : Int) : Prop :=
  ∀ (d' : Nat) (k' : Int), (d' : ℚ) * 10 ^ k' = d * 10 ^ k → toFloat false d' k' = x

theorem Reads.ofParts {x : Float} {d : Nat} {k : Int} (h : Reads x d k) {whole part : List Char} {e : Int} (n : Nat)
    (value : natOfDigits (whole ++ part) = d * 10 ^ n) (places : e - part.length + n = k) :
    ofParts false whole part e = x := by
  apply h
  rw [value, ← places, zpow_add₀ (by norm_num) _ (n : ℤ), zpow_natCast]
  push_cast
  ring

theorem Reads.point {x : Float} {d : Nat} {k : Int} (h : Reads x d k) {whole part : List Char} (n : Nat)
    (digits : DigitText whole) (digits' : DigitText part) (value : natOfDigits (whole ++ part) = d * 10 ^ n)
    (places : 0 - (part.length : Int) + n = k) (t : List Char) : LiteralText (whole ++ '.' :: (part ++ t)) (.float x) t :=
  h.ofParts n value places ▸ LiteralText.point digits digits'

theorem digitText_zero : DigitText ['0'] := ⟨by simp, by simp⟩

theorem digitText_zeros_append {ds : List Char} (h : DigitText ds) (n : Nat) : DigitText (List.replicate n '0' ++ ds) := by
  refine ⟨by simp [h.some], fun c hc => ?_⟩
  rcases List.mem_append.mp hc with zero | digit
  · exact (List.eq_of_mem_replicate zero) ▸ rfl
  · exact h.digit c digit

theorem digitText_append_zeros {ds : List Char} (h : DigitText ds) (n : Nat) : DigitText (ds ++ List.replicate n '0') := by
  refine ⟨by simp [h.some], fun c hc => ?_⟩
  rcases List.mem_append.mp hc with digit | zero
  · exact h.digit c digit
  · exact (List.eq_of_mem_replicate zero) ▸ rfl

theorem positional_literal {x : Float} {ds : List Char} {k : Int} (digits : DigitText ds) (h : Reads x (natOfDigits ds) k)
    (t : List Char) : LiteralText (positional ds (ds.length + k) ++ t) (.float x) t := by
  unfold positional
  split_ifs with small inner
  · have := h.point 0 digitText_zero (digitText_zeros_append digits (-(ds.length + k)).toNat) (t := t)
      (by simpa [List.replicate_succ] using natOfDigits_zeros_append ((-(ds.length + k)).toNat + 1) ds)
      (by simp only [List.length_append, List.length_replicate]; omega)
    simpa using this
  · have whole : DigitText (ds.take (ds.length + k).toNat) :=
      ⟨by simp [digits.some]; omega, fun c hc => digits.digit c (List.mem_of_mem_take hc)⟩
    have part : DigitText (ds.drop (ds.length + k).toNat) :=
      ⟨by simpa using inner, fun c hc => digits.digit c (List.mem_of_mem_drop hc)⟩
    have := h.point 0 whole part (t := t) (by simp) (by simp only [List.length_drop]; omega)
    simpa using this
  · have := h.point ((ds.length + k).toNat - ds.length + 1)
      (digitText_append_zeros digits ((ds.length + k).toNat - ds.length)) digitText_zero (t := t)
      (by rw [List.append_assoc, ← natOfDigits_append_zeros, List.replicate_succ'])
      (by simp only [List.length_singleton]; omega)
    simpa using this

theorem scientific_literal {x : Float} {ds : List Char} {k : Int} (digits : DigitText ds) (h : Reads x (natOfDigits ds) k)
    (t : List Char) : LiteralText (scientific ds (ds.length + k) ++ t) (.float x) t := by
  obtain ⟨nonempty, digit⟩ := digits
  have exponent := exponentText_toString (ds.length + k - 1) t
  match ds with
  | [c] =>
    have value : ofParts false [c] [] ([c].length + k - 1) = x := h.ofParts 0 (by simp) (by simp)
    have := LiteralText.exponent ⟨nonempty, digit⟩ exponent
    rw [value] at this
    simpa [scientific] using this
  | c :: c' :: cs =>
    have value : ofParts false [c] (c' :: cs) ((c :: c' :: cs).length + k - 1) = x :=
      h.ofParts 0 (by simp) (by simp only [List.length_cons]; omega)
    have whole : DigitText [c] := ⟨by simp, fun d hd => digit d (by simp_all)⟩
    have part : DigitText (c' :: cs) := ⟨by simp, fun d hd => digit d (List.mem_cons_of_mem c hd)⟩
    have := LiteralText.pointExponent whole part exponent
    rw [value] at this
    simpa [scientific] using this

/-- **What is written for a magnitude is a literal for the double with its bits.** -/
theorem magnitude_literal (layout : Layout) {m : Nat} {q : Int} (c : Canonical m q) (t : List Char) :
    LiteralText (layout.magnitude m q ++ t) (.float (Float.ofBits (UInt64.ofNat (magnitudeBits m q)))) t := by
  unfold Layout.magnitude
  split_ifs with zero
  · have bits : magnitudeBits m q = 0 := by
      have := c.leading
      simp only [magnitudeBits, minExponent] at *
      omega
    rw [bits]
    exact LiteralText.point digitText_zero digitText_zero
  · have rounds := shortest_rounds layout.tie c zero
    generalize shortest layout.tie m q = decimal at rounds ⊢
    obtain ⟨d, k⟩ := decimal
    have reads : Reads (Float.ofBits (UInt64.ofNat (magnitudeBits m q))) (natOfDigits (toString d).toList) k := by
      intro d' k' same
      rw [digits_eq, natOfDigits_toDigits] at same
      exact toFloat_eq c zero (same ▸ rounds)
    have digits : DigitText (toString d).toList := digits_eq d ▸ digitText_toDigits d
    simp only
    split_ifs
    · exact positional_literal digits reads t
    · exact scientific_literal digits reads t

/-- **What is written for a finite double without a sign is a literal for that double.** -/
theorem text_literal (layout : Layout) {x : Float} (finite : x.isFinite = true) (sign : x.toBits.toNat < 2 ^ 63)
    (t : List Char) : LiteralText ((layout.text x).toList ++ t) (.float x) t := by
  obtain ⟨negative, m, q, parts⟩ := (Dyadic.isFinite_iff x).mp finite
  obtain ⟨c, bits, rfl⟩ := Dyadic.ofBits_finite parts
  rw [Nat.div_eq_of_lt sign] at parts
  rw [Nat.mod_eq_of_lt sign] at bits
  have := magnitude_literal layout c t
  rw [← bits, UInt64.ofNat_toNat, Float.ofBits_toBits] at this
  simpa [Layout.text, parts, signed] using this

end Decimal
end ChainCalc
