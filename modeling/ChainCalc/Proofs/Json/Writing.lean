import ChainCalc.Json.Parser
import ChainCalc.Proofs.Decimal.RoundTrip
import ChainCalc.Proofs.Grammar.Exact
/-!
# Writing JSON — what is written is read back

Strings are read back whatever they hold, integers where they fit in 64 bits.  A double is read back where its own text
is (`Number.ReadsBack`); nothing else hangs on how numbers are rounded, since a reader of numbers looks no further than
the character behind one (`number_append`).  A value made of such parts is read back as a whole: `parse?_text`.
-/
namespace ChainCalc
namespace Json

open Grammar (DigitText NoneAhead digits_of_digitText digits_eq_some many_of_none many_of_some)
open Reader (many)

/-! ### Blanks -/

theorem skip_of_noneAhead {s : List Char} (h : NoneAhead Grammar.isSpace s) : skip s = s :=
  (@Grammar.takeWhile_of_noneAhead _ [] s (by simp) h).2

theorem skip_cons {c : Char} (h : Grammar.isSpace c = false) (s : List Char) : skip (c :: s) = c :: s :=
  skip_of_noneAhead (by simpa [NoneAhead] using h)

/-! ### Strings -/

theorem hexValue?_digitChar : ∀ d < 16, hexValue? (Nat.digitChar d) = some d := by decide

theorem hexUnit_hex4 {n : Nat} (h : n < 0x10000) (t : List Char) : hexUnit (hex4 n ++ t) = some (n, t) := by
  have places : ((n / 4096 % 16 * 16 + n / 256 % 16) * 16 + n / 16 % 16) * 16 + n % 16 = n := by omega
  simp only [hex4, List.map_cons, List.map_nil, List.cons_append, List.nil_append, hexUnit,
    hexValue?_digitChar _ (Nat.mod_lt _ (by decide : 16 > 0)), Option.bind_eq_bind, Option.bind_some, places]

/-- **An escaped character stands for itself.** -/
theorem character_escape (c : Char) (t : List Char) : character (escape c ++ t) = some (some c, t) := by
  unfold escape
  split
  case _ | _ | _ | _ | _ | _ | _ => rfl
  case _ quote backslash _ _ _ _ _ =>
    split_ifs with control
    · have opens : ¬ opensPair c.toNat = true := by simp [opensPair]; omega
      have closes : ¬ closesPair c.toNat = true := by simp [closesPair]; omega
      simp only [List.cons_append, List.nil_append, character, unicode, hexUnit_hex4 (by omega : c.toNat < 0x10000)]
      rw [if_neg opens, if_neg closes, Char.ofNat_toNat]
    · rw [List.singleton_append]
      unfold character
      split <;> simp_all

theorem many_character (cs t : List Char) :
    many character (cs.flatMap escape ++ '"' :: t) = (cs.map some, '"' :: t) := by
  induction cs with
  | nil => exact many_of_none rfl
  | cons c cs ih =>
    rw [List.flatMap_cons, List.append_assoc]
    refine many_of_some (character_escape c _) ?_ ih
    have : escape c ≠ [] := by unfold escape; split <;> (try split) <;> simp
    have := List.length_pos_iff.mpr this
    simp only [List.length_append]
    omega

theorem mapM_some {α : Type} (as : List α) : (as.map some).mapM id = some as := by
  induction as with
  | nil => rfl
  | cons a as ih => simp [List.mapM_cons, ih]

/-- **A written string is read back**, whatever follows. -/
theorem string_writtenString (s : String) (t : List Char) : string (writtenString s ++ t) = some (some s, t) := by
  have read := many_character s.toList t
  simp only [writtenString, List.append_assoc, List.cons_append, List.nil_append] at read ⊢
  simp only [string, read, mapM_some, Option.map_some, String.ofList_toList]

/-! ### Numbers -/

def NumberEnds (t : List Char) : Prop := NoneAhead (fun c => c.isDigit || c == '.' || c == 'e' || c == 'E') t

theorem NumberEnds.noneAhead {t : List Char} (h : NumberEnds t) : NoneAhead Char.isDigit t := fun c hc => by
  have := h c hc
  simp only [Bool.or_eq_false_iff] at this
  exact this.1.1.1

/-- A reader that has found the end of its phrase finds the same one with more text behind it. -/
def Stays {α : Type} (p : Reader α) (t : List Char) : Prop :=
  ∀ {s rest : List Char} {a : α}, p s = some (a, rest) → p (s ++ t) = some (a, rest ++ t)

theorem stays_digits {t : List Char} (h : NoneAhead Char.isDigit t) : Stays Grammar.digits t := by
  intro s rest ds hs
  obtain ⟨digit, rfl, -⟩ := digits_eq_some.1 hs
  have ahead : NoneAhead Char.isDigit rest := by
    unfold Grammar.digits at hs
    split at hs
    · cases hs
    · injection hs with hs
      injection hs with _ hrest
      exact hrest ▸ Grammar.noneAhead_dropWhile Char.isDigit (ds ++ rest)
  rw [List.append_assoc]
  refine digits_of_digitText digit ?_
  cases rest with
  | nil => exact h
  | cons c rest => exact ahead

theorem wholeDigits_eq {s rest ds : List Char} :
    wholeDigits s = some (ds, rest) ↔ Grammar.digits s = some (ds, rest) ∧ (ds.head? = some '0' → ds = ['0']) := by
  unfold wholeDigits
  split
  · rename_i hd
    rw [hd]
    constructor
    · rintro ⟨⟩
      exact ⟨rfl, fun _ => rfl⟩
    · exact fun h => h.1
  · rename_i ds' rest' other hd
    rw [hd]
    constructor
    · rintro ⟨⟩
    · rintro ⟨heq, zero⟩
      cases heq
      exact absurd (by simpa using zero) other
  · rename_i r _ other
    constructor
    · intro hd
      refine ⟨hd, fun zero => ?_⟩
      cases ds with
      | nil => cases zero
      | cons c ds =>
        cases zero
        exact absurd hd (other ds rest)
    · exact fun h => h.1

theorem stays_wholeDigits {t : List Char} (h : NoneAhead Char.isDigit t) : Stays wholeDigits t := by
  intro s rest ds hs
  obtain ⟨hd, zero⟩ := wholeDigits_eq.mp hs
  exact wholeDigits_eq.mpr ⟨stays_digits h hd, zero⟩

theorem stays_pointDigits {t : List Char} (h : NumberEnds t) : Stays pointDigits t := by
  intro s rest ds hs
  cases s with
  | nil =>
    cases hs
    unfold pointDigits
    split
    · rename_i s heq
      rw [List.nil_append] at heq
      have := h '.' (by simp [heq])
      simp at this
    · rfl
  | cons c s =>
    unfold pointDigits at hs ⊢
    rw [List.cons_append]
    split at hs
    · rename_i heq
      cases heq
      exact stays_digits h.noneAhead hs
    · rename_i notPoint
      cases hs
      split
      · rename_i heq
        cases heq
        exact absurd rfl (notPoint s)
      · rfl

def scaled (negative : Bool) (whole part : List Char) : Reader (Option Number) := fun s =>
  let w := whole.foldl Number.Gathered.whole ⟨0, 0, false⟩
  let g := part.foldl Number.Gathered.fraction { w with full := false }
  match s with
  | c :: rest =>
    if c == 'e' || c == 'E' then
      let (down, rest) := Decimal.splitSign rest
      (Grammar.digits rest).map (fun (ds, rest) => (Number.withExponent? negative g down (Decimal.natOfDigits ds), rest))
    else if part.isEmpty then some (Number.ofInteger? negative w, s)
    else some (Number.ofParts? negative g.significand g.power, s)
  | [] =>
    if part.isEmpty then some (Number.ofInteger? negative w, s)
    else some (Number.ofParts? negative g.significand g.power, s)

def unsigned (negative : Bool) : Reader (Option Number) := fun s =>
  match wholeDigits s with
  | none => none
  | some (whole, s) =>
    match pointDigits s with
    | none => none
    | some (part, s) => scaled negative whole part s

def splitMinus : List Char → Bool × List Char
  | '-' :: s => (true, s)
  | s => (false, s)

theorem number_eq (s : List Char) : number s = unsigned (splitMinus s).1 (splitMinus s).2 := rfl

theorem splitMinus_of_ne {c : Char} (h : c ≠ '-') (s : List Char) : splitMinus (c :: s) = (false, c :: s) := by
  unfold splitMinus
  split
  · rename_i heq
    cases heq
    exact absurd rfl h
  · rfl

theorem splitMinus_append {s : List Char} (h : s ≠ []) (t : List Char) :
    splitMinus (s ++ t) = ((splitMinus s).1, (splitMinus s).2 ++ t) := by
  cases s with
  | nil => exact absurd rfl h
  | cons c s =>
    by_cases minus : c = '-'
    · subst minus
      rfl
    · rw [List.cons_append, splitMinus_of_ne minus, splitMinus_of_ne minus, List.cons_append]

theorem splitSign_append {s : List Char} (h : s ≠ []) (t : List Char) :
    Decimal.splitSign (s ++ t) = ((Decimal.splitSign s).1, (Decimal.splitSign s).2 ++ t) := by
  cases s with
  | nil => exact absurd rfl h
  | cons c s =>
    by_cases minus : c = '-'
    · subst minus
      rfl
    · by_cases plus : c = '+'
      · subst plus
        rfl
      · simp [Decimal.splitSign, minus, plus]

theorem scaled_append {negative : Bool} {whole part s t : List Char} {x : Option Number} (ends : NumberEnds t)
    (h : scaled negative whole part s = some (x, [])) : scaled negative whole part (s ++ t) = some (x, t) := by
  cases s with
  | nil =>
    cases t with
    | nil => exact h
    | cons c t =>
      have letter : (c == 'e' || c == 'E') = false := by
        have := ends c rfl
        simp only [Bool.or_eq_false_iff] at this ⊢
        exact ⟨this.1.2, this.2⟩
      unfold scaled at h ⊢
      simp only [List.nil_append, letter, Bool.false_eq_true, if_false] at h ⊢
      split at h <;> cases h <;> simp_all
  | cons c s =>
    unfold scaled at h ⊢
    simp only [List.cons_append] at h ⊢
    split at h
    · rename_i letter
      have some : s ≠ [] := by
        rintro rfl
        simp [Decimal.splitSign, Grammar.digits] at h
      obtain ⟨⟨ds, rest⟩, hdigits, hx⟩ := Option.map_eq_some_iff.mp h
      rw [if_pos letter, splitSign_append some, stays_digits ends.noneAhead hdigits]
      cases hx
      rfl
    · split at h <;> cases h

theorem number_nil : number [] = none := rfl

/-- **A number is read up to its end and no further.** -/
theorem number_append {s t : List Char} {x : Option Number} (ends : NumberEnds t) (h : number s = some (x, [])) :
    number (s ++ t) = some (x, t) := by
  have some : s ≠ [] := by
    rintro rfl
    simp [number_nil] at h
  rw [number_eq] at h ⊢
  rw [splitMinus_append some]
  generalize (splitMinus s).1 = negative, (splitMinus s).2 = u at h ⊢
  unfold unsigned at h ⊢
  cases hw : wholeDigits u with
  | none => simp [hw] at h
  | some r =>
    rw [hw] at h
    rw [stays_wholeDigits ends.noneAhead hw]
    dsimp only at h ⊢
    cases hp : pointDigits r.2 with
    | none => simp [hp] at h
    | some r =>
      rw [hp] at h
      rw [stays_pointDigits ends hp]
      exact scaled_append ends h

theorem head_of_number {s : List Char} {r : Option Number × List Char} (h : number s = some r) :
    ∃ c ∈ s.head?, c = '-' ∨ c.isDigit = true := by
  cases s with
  | nil => simp [number_nil] at h
  | cons c s =>
    refine ⟨c, rfl, or_iff_not_imp_left.mpr fun minus => ?_⟩
    rw [number_eq, splitMinus_of_ne minus] at h
    unfold unsigned at h
    cases hw : wholeDigits (c :: s) with
    | none => simp [hw] at h
    | some r =>
      obtain ⟨digit, heq, -⟩ := digits_eq_some.1 (wholeDigits_eq.mp hw).1
      cases hds : r.1 with
      | nil => exact absurd hds digit.some
      | cons d ds =>
        rw [hds, List.cons_append] at heq
        cases heq
        exact digit.digit c (by simp [hds])

/-! ### Integers -/

theorem eq_zero_of_head_toDigits {n : Nat} (h : (Nat.toDigits 10 n).head? = some '0') : n = 0 := by
  induction n using Nat.strong_induction_on with
  | _ n ih =>
    rw [Nat.toDigits_eq_if (by decide)] at h
    split_ifs at h with small
    · interval_cases n <;> first | rfl | exact absurd h (by decide)
    · rw [List.head?_append_of_ne_nil _ Nat.toDigits_ne_nil] at h
      have := ih (n / 10) (by omega) h
      omega

theorem wholeDigits_toDigits (n : Nat) {t : List Char} (ahead : NoneAhead Char.isDigit t) :
    wholeDigits (Nat.toDigits 10 n ++ t) = some (Nat.toDigits 10 n, t) := by
  refine wholeDigits_eq.mpr ⟨digits_of_digitText (Decimal.digitText_toDigits n) ahead, fun zero => ?_⟩
  rw [eq_zero_of_head_toDigits zero, Nat.toDigits_zero]

theorem foldl_whole (ds : List Char) :
    Decimal.natOfDigits ds ≤ Number.maxSignificand →
      ds.foldl Number.Gathered.whole ⟨0, 0, false⟩ = ⟨Decimal.natOfDigits ds, 0, false⟩ := by
  induction ds using List.reverseRecOn with
  | nil => exact fun _ => rfl
  | append_singleton ds d ih =>
    intro fits
    have last : Decimal.natOfDigits (ds ++ [d]) = Decimal.natOfDigits ds * 10 + Decimal.digitValue d := by
      simp [Decimal.natOfDigits]
    rw [last] at fits ⊢
    rw [List.foldl_append, ih (by omega)]
    simp [Number.Gathered.whole, Nat.not_lt.mpr fits]

theorem unsigned_toDigits (negative : Bool) {n : Nat} (fits : n ≤ Number.maxSignificand) {t : List Char}
    (ends : NumberEnds t) :
    unsigned negative (Nat.toDigits 10 n ++ t) = some (Number.ofInteger? negative ⟨n, 0, false⟩, t) := by
  have gathered := foldl_whole (Nat.toDigits 10 n) (by rwa [Decimal.natOfDigits_toDigits])
  rw [Decimal.natOfDigits_toDigits] at gathered
  have point : pointDigits t = some ([], t) := by
    simpa using stays_pointDigits ends (s := []) rfl
  have behind : scaled negative (Nat.toDigits 10 n) [] t = some (Number.ofInteger? negative ⟨n, 0, false⟩, t) := by
    simpa using scaled_append ends (s := []) (by simp [scaled, gathered])
  unfold unsigned
  simp only [wholeDigits_toDigits n ends.noneAhead, point, behind]

def Fits64 (n : Int) : Prop := -Int.pow 2 63 ≤ n ∧ n < Int.pow 2 64

/-- **An integer of 64 bits is read back.** -/
theorem number_int {n : Int} (fits : Fits64 n) {t : List Char} (ends : NumberEnds t) :
    number ((toString n).toList ++ t) = some (some (.int n), t) := by
  obtain ⟨low, high⟩ := fits
  have low : -(2 ^ 63 : Int) ≤ n := low
  have high : n < (2 ^ 64 : Int) := high
  cases n with
  | ofNat n =>
    have head : ∀ c ∈ (Nat.toDigits 10 n).head?, c ≠ '-' := by
      rintro c hc rfl
      exact absurd ((Decimal.digitText_toDigits n).digit '-' (List.mem_of_mem_head? hc)) (by decide)
    have sign : splitMinus (Nat.toDigits 10 n ++ t) = (false, Nat.toDigits 10 n ++ t) := by
      cases hds : Nat.toDigits 10 n with
      | nil => exact absurd hds Nat.toDigits_ne_nil
      | cons c ds => exact splitMinus_of_ne (head c (by simp [hds])) _
    rw [show toString (Int.ofNat n) = toString n from rfl, Decimal.digits_eq, number_eq, sign,
      unsigned_toDigits false (by simp only [Number.maxSignificand, Nat.pow_eq]; simp at high; omega) ends]
    rfl
  | negSucc n =>
    have small : n + 1 ≤ 2 ^ 63 := by omega
    have text : (toString (Int.negSucc n)).toList = '-' :: Nat.toDigits 10 (n + 1) := by
      rw [← Decimal.digits_eq, show toString (Int.negSucc n) = "-" ++ toString (n + 1) from rfl, String.toList_append]
      rfl
    rw [text, number_eq, List.cons_append, splitMinus,
      unsigned_toDigits true (by simp only [Number.maxSignificand, Nat.pow_eq]; omega) ends]
    have fits : 0 < n + 1 ∧ n + 1 ≤ Nat.pow 2 63 := ⟨Nat.succ_pos n, small⟩
    simp only [Number.ofInteger?, Bool.false_eq_true, Bool.not_true, if_false, if_pos fits, Int.negSucc_eq,
      Nat.cast_add, Nat.cast_one]

/-! ### Values -/

def Number.ReadsBack (n : Number) : Prop := number n.written = some (some n, [])

theorem readsBack_int {n : Int} (fits : Fits64 n) : Number.ReadsBack (.int n) := by
  have read := number_int fits (t := []) (by simp [NumberEnds, NoneAhead])
  rwa [List.append_nil] at read

/-- Nothing in the value is unreadable, and each number's own text stands for it. -/
inductive Travels : Json → Prop
  | null : Travels .null
  | bool (b : Bool) : Travels (.bool b)
  | num {n : Number} (h : n.ReadsBack) : Travels (.num n)
  | str (s : String) : Travels (.str s)
  | arr {items : List Json} (h : ∀ v ∈ items, Travels v) : Travels (.arr items)
  | obj {members : List Member} (h : ∀ m ∈ members, Travels m.value) : Travels (.obj members)

def Member.written (m : Member) : List Char := writtenString m.key ++ [':'] ++ m.value.written

theorem writtenItems_eq (items : List Json) : writtenItems items = [','].intercalate (items.map written) := by
  induction items with
  | nil => rfl
  | cons v vs ih =>
    cases vs with
    | nil => simp [writtenItems, List.intercalate]
    | cons v' vs =>
      rw [writtenItems, ih]
      · simp [List.intercalate]
      · simp

theorem writtenMembers_eq (members : List Member) :
    writtenMembers members = [','].intercalate (members.map Member.written) := by
  induction members with
  | nil => rfl
  | cons m ms ih =>
    obtain ⟨k, v⟩ := m
    cases ms with
    | nil => simp [writtenMembers, Member.written, List.intercalate]
    | cons m' ms =>
      rw [writtenMembers, ih]
      · simp [List.intercalate, Member.written]
      · simp

def Opens (s : List Char) : Prop := ∃ c ∈ s.head?, Grammar.isSpace c = false ∧ c ≠ ']' ∧ c ≠ '\x7d'

theorem Opens.noneAhead {s : List Char} (h : Opens s) (t : List Char) : NoneAhead Grammar.isSpace (s ++ t) := by
  obtain ⟨c, hc, solid, -, -⟩ := h
  cases s with
  | nil => cases hc
  | cons d s =>
    cases hc
    simpa [NoneAhead] using solid

section Listed

variable {α β : Type} {p : Reader β} {text : α → List Char} {read : α → β} {closing : Char}

def next (p : Reader β) : Reader β := fun s => match skip s with
  | ',' :: s => p (skip s)
  | _ => none

theorem listed_eq (p : Reader β) (closing : Char) (s : List Char) : listed p closing s =
    if (skip s).head? == some closing then some ([], (skip s).drop 1)
    else match p (skip s) with
      | none => none
      | some (b, s) =>
        if (skip (many (next p) s).2).head? == some closing then
          some (b :: (many (next p) s).1, (skip (many (next p) s).2).drop 1)
        else none := rfl

theorem next_comma {s t : List Char} {b : β} (opens : Opens s) (h : p (s ++ t) = some (b, t)) :
    next p (',' :: (s ++ t)) = some (b, t) := by
  simp only [next, skip_cons (by decide : Grammar.isSpace ',' = false), skip_of_noneAhead (opens.noneAhead t), h]

theorem numberEnds_cons {c : Char} (h : c = ',' ∨ c = ']' ∨ c = '\x7d') (t : List Char) : NumberEnds (c :: t) := by
  intro d hd
  cases hd
  obtain rfl | rfl | rfl := h <;> decide

theorem many_next (bracket : closing = ']' ∨ closing = '\x7d') (t : List Char) : ∀ as : List α,
    (∀ a ∈ as, Opens (text a) ∧ ∀ t, NumberEnds t → p (text a ++ t) = some (read a, t)) →
    many (next p) (as.flatMap (fun a => ',' :: text a) ++ closing :: t) = (as.map read, closing :: t)
  | [], _ => many_of_none (by obtain rfl | rfl := bracket <;> rfl)
  | a :: as, h => by
    obtain ⟨opens, reads⟩ := h a (by simp)
    have ends : NumberEnds (as.flatMap (fun a => ',' :: text a) ++ closing :: t) := by
      cases as with
      | nil => exact numberEnds_cons (.inr bracket) t
      | cons a as => exact numberEnds_cons (.inl rfl) _
    have rest := many_next bracket t as fun a ha => h a (by simp [ha])
    rw [List.flatMap_cons, List.append_assoc, List.cons_append]
    refine many_of_some (next_comma opens (reads _ ends)) ?_ rest
    simp only [List.length_cons, List.length_append]
    omega

theorem intercalate_cons (a : α) (as : List α) :
    [','].intercalate ((a :: as).map text) = text a ++ as.flatMap (fun a => ',' :: text a) := by
  induction as generalizing a with
  | nil => simp [List.intercalate]
  | cons b as ih =>
    have := ih b
    simp only [List.intercalate, List.map_cons, List.intersperse_cons_cons, List.flatten_cons, List.flatMap_cons] at this ⊢
    rw [this]
    simp

/-- **Phrases with commas between them are read back one by one.** -/
theorem listed_intercalate (bracket : closing = ']' ∨ closing = '\x7d') (as : List α) (t : List Char)
    (h : ∀ a ∈ as, Opens (text a) ∧ ∀ t, NumberEnds t → p (text a ++ t) = some (read a, t)) :
    listed p closing ([','].intercalate (as.map text) ++ closing :: t) = some (as.map read, t) := by
  have solid : Grammar.isSpace closing = false := by obtain rfl | rfl := bracket <;> decide
  rw [listed_eq]
  cases as with
  | nil => simp [List.intercalate, skip_cons solid]
  | cons a as =>
    obtain ⟨opens, reads⟩ := h a (by simp)
    have open' : ¬ ((text a ++ (as.flatMap (fun a => ',' :: text a) ++ closing :: t)).head? == some closing) = true := by
      obtain ⟨c, hc, -, ne₁, ne₂⟩ := opens
      cases hs : text a with
      | nil => simp [hs] at hc
      | cons d s =>
        rw [hs] at hc
        cases hc
        obtain rfl | rfl := bracket <;> simpa
    have ends : NumberEnds (as.flatMap (fun a => ',' :: text a) ++ closing :: t) := by
      cases as with
      | nil => exact numberEnds_cons (.inr bracket) t
      | cons a as => exact numberEnds_cons (.inl rfl) _
    have rest := many_next bracket t as fun a ha => h a (by simp [ha])
    rw [intercalate_cons, List.append_assoc, skip_of_noneAhead (opens.noneAhead _), if_neg open', reads _ ends]
    simp [rest, skip_cons solid]

theorem length_le_intercalate {a : α} {as : List α} (ha : a ∈ as) :
    (text a).length ≤ ([','].intercalate (as.map text)).length := by
  cases as with
  | nil => cases ha
  | cons b as =>
    rw [intercalate_cons, List.length_append]
    rcases List.mem_cons.mp ha with rfl | ha
    · omega
    · have := List.le_sum_of_mem (List.mem_map_of_mem (f := fun a => (',' :: text a).length) ha)
      simp only [List.length_flatMap, List.length_cons] at this ⊢
      omega

end Listed

/-! A value is written so that its first character tells its shape. -/

theorem value_null (n : Nat) (t : List Char) : value (n + 1) ("null".toList ++ t) = some (.null, t) := rfl

theorem value_bool (n : Nat) (b : Bool) (t : List Char) :
    value (n + 1) ((if b then "true" else "false").toList ++ t) = some (.bool b, t) := by
  cases b <;> rfl

theorem ne_of_start {c e : Char} (start : c = '-' ∨ c.isDigit = true) (h : e ≠ '-' ∧ e.isDigit = false) : c ≠ e := by
  rintro rfl
  simp [h.1, h.2] at start

theorem word_eq_none {c d : Char} {s ds : List Char} (h : c ≠ d) : word (String.ofList (d :: ds)) (c :: s) = none := by
  simp [word, h.symm]

theorem value_number {n : Nat} {s t : List Char} {x : Number} (h : number s = some (some x, t)) :
    value (n + 1) s = some (.num x, t) := by
  obtain ⟨c, hc, start⟩ := head_of_number h
  cases s with
  | nil => cases hc
  | cons d s =>
    cases hc
    have null : word "null" (c :: s) = none := word_eq_none (d := 'n') (ne_of_start start (by decide))
    have true' : word "true" (c :: s) = none := word_eq_none (d := 't') (ne_of_start start (by decide))
    have false' : word "false" (c :: s) = none := word_eq_none (d := 'f') (ne_of_start start (by decide))
    unfold value
    split
    · next heq => exact absurd (List.cons.inj heq).1 (ne_of_start start (by decide))
    · next heq => exact absurd (List.cons.inj heq).1 (ne_of_start start (by decide))
    · next heq => exact absurd (List.cons.inj heq).1 (ne_of_start start (by decide))
    · rw [null, true', false', h]
      rfl

theorem opens_written {v : Json} (h : Travels v) : Opens v.written := by
  cases h with
  | null => exact ⟨'n', rfl, by decide⟩
  | bool b => cases b <;> [exact ⟨'f', rfl, by decide⟩; exact ⟨'t', rfl, by decide⟩]
  | num h =>
    obtain ⟨c, hc, start⟩ := head_of_number h
    have ne : ∀ e : Char, e ≠ '-' ∧ e.isDigit = false → c ≠ e := fun e => ne_of_start start
    refine ⟨c, by rwa [written], ?_, ne ']' (by decide), ne '\x7d' (by decide)⟩
    simp [Grammar.isSpace, ne ' ' (by decide), ne '\t' (by decide), ne '\r' (by decide), ne '\n' (by decide)]
  | str s => exact ⟨'"', rfl, by decide⟩
  | arr h => exact ⟨'[', by simp [written], by decide⟩
  | obj h => exact ⟨'\x7b', by simp [written], by decide⟩

theorem opens_written_member (m : Member) : Opens m.written := ⟨'"', rfl, by decide⟩

theorem member_written {m : Member} {p : Reader Json} (opens : Opens m.value.written) {t : List Char}
    (h : p (m.value.written ++ t) = some (m.value, t)) : member p (m.written ++ t) = some (some m, t) := by
  obtain ⟨k, v⟩ := m
  unfold member
  rw [Member.written, List.append_assoc, List.append_assoc, string_writtenString]
  simp only [List.singleton_append, skip_cons (by decide : Grammar.isSpace ':' = false),
    skip_of_noneAhead (opens.noneAhead t), h, Option.map_some]

/-- **A written value is read back** by a reader of at least its depth.  The induction is on the value; the text of a part
is shorter than that of the whole by the brackets. -/
theorem value_written {v : Json} (h : Travels v) :
    ∀ {n : Nat} {t : List Char}, v.written.length < n → NumberEnds t → value n (v.written ++ t) = some (v, t) := by
  induction h with
  | null =>
    rintro (_ | n) t bound _
    · cases bound
    · exact value_null n t
  | bool b =>
    rintro (_ | n) t bound _
    · cases bound
    · exact value_bool n b t
  | num h =>
    rintro (_ | n) t bound ends
    · cases bound
    · exact value_number (number_append ends h)
  | str s =>
    rintro (_ | n) t bound ends
    · cases bound
    · have read := string_writtenString s t
      simp only [written, writtenString, List.cons_append, List.nil_append] at read ⊢
      simp only [value, read, orUnreadable, Option.map_some, Option.getD_some]
  | @arr items h ih =>
    rintro (_ | n) t bound ends
    · cases bound
    · simp only [written, writtenItems_eq, List.length_append, List.length_singleton] at bound
      have read : listed (value n) ']' ([','].intercalate (items.map written) ++ ']' :: t) = some (items.map id, t) := by
        refine listed_intercalate (.inl rfl) items t fun v hv => ?_
        have shorter : v.written.length ≤ ([','].intercalate (items.map written)).length := length_le_intercalate hv
        exact ⟨opens_written (h v hv), fun t ends => ih v hv (by omega) ends⟩
      simp only [written, writtenItems_eq, List.append_assoc, List.cons_append, List.nil_append, value, read,
        List.map_id, Option.map_some]
  | @obj members h ih =>
    rintro (_ | n) t bound ends
    · cases bound
    · simp only [written, writtenMembers_eq, List.length_append, List.length_singleton] at bound
      have read : listed (member (value n)) '\x7d' ([','].intercalate (members.map Member.written) ++ '\x7d' :: t) =
          some (members.map some, t) := by
        refine listed_intercalate (.inr rfl) members t fun m hm => ?_
        have shorter : m.written.length ≤ ([','].intercalate (members.map Member.written)).length := length_le_intercalate hm
        have part : m.value.written.length ≤ m.written.length := by simp [Member.written]; omega
        exact ⟨opens_written_member m, fun t ends => member_written (opens_written (h m hm)) (ih m hm (by omega) ends)⟩
      simp only [written, writtenMembers_eq, List.append_assoc, List.cons_append, List.nil_append, value, read,
        mapM_some, orUnreadable, Option.map_some, Option.getD_some]

/-- **The text of a value stands for it.** -/
theorem parse?_text {v : Json} (h : Travels v) : parse? v.text = some v := by
  have opens := (opens_written h).noneAhead []
  have read := value_written h (n := v.written.length + 1) (t := []) (Nat.lt_succ_self _) (by simp [NumberEnds, NoneAhead])
  rw [List.append_nil] at opens read
  simp only [parse?, text, String.toList_ofList, String.length_ofList, skip_of_noneAhead opens, read]
  rfl

end Json
end ChainCalc
