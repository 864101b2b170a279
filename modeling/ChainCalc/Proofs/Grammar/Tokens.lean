import Mathlib.Data.List.TakeWhile
import ChainCalc.Proofs.Grammar.Phrases
/-!
# Tokens — blanks, names and literals are read exactly as the grammar has them

Readers are greedy where the grammar is not.  Behind a phrase that is followed by a blank, an operator, a comma or a closing
parenthesis nothing more could be taken (`Stops`), so there a reader takes the phrase and no other: `skipBlank_of_blankText`,
`name_of_nameText`, `literal_of_literalText`.
-/
namespace ChainCalc
namespace Grammar

/-! ### Runs of characters -/

/-- Nothing of a kind is at the front. -/
def NoneAhead (p : Char → Bool) (t : List Char) : Prop := ∀ c ∈ t.head?, p c = false

theorem takeWhile_of_noneAhead {p : Char → Bool} {cs t : List Char} (h : ∀ c ∈ cs, p c = true) (ahead : NoneAhead p t) :
    (cs ++ t).takeWhile p = cs ∧ (cs ++ t).dropWhile p = t := by
  rw [List.takeWhile_append_of_pos h, List.dropWhile_append_of_pos h]
  cases t with
  | nil => simp
  | cons c t =>
    have hc : ¬ p c = true := by simp [ahead c rfl]
    rw [List.takeWhile_cons_of_neg hc, List.dropWhile_cons_of_neg hc, List.append_nil]
    exact ⟨rfl, rfl⟩

theorem noneAhead_dropWhile (p : Char → Bool) (s : List Char) : NoneAhead p (s.dropWhile p) := by
  intro c hc
  have := List.head?_dropWhile_not p s
  rw [hc] at this
  simpa using this

theorem eq_of_append_eq {p : Char → Bool} {as bs s t : List Char} (ha : ∀ c ∈ as, p c = true) (hb : ∀ c ∈ bs, p c = true)
    (hs : NoneAhead p s) (ht : NoneAhead p t) (h : as ++ s = bs ++ t) : as = bs := by
  rw [← (takeWhile_of_noneAhead ha hs).1, h, (takeWhile_of_noneAhead hb ht).1]

/-! ### Blanks -/

theorem lineEnd_of_commentEnd? {s t : List Char} (h : commentEnd? s = some t) :
    ∃ body, s = body ++ t ∧ (∀ c ∈ body, c ≠ '\r' ∧ c ≠ '\n') ∧ LineEnd t := by
  have hbody : ∀ c ∈ s.takeWhile (fun c => c != '\r' && c != '\n'), c ≠ '\r' ∧ c ≠ '\n' := by
    intro c hc
    simpa using List.mem_takeWhile_imp hc
  have hs := (List.takeWhile_append_dropWhile (p := fun c : Char => c != '\r' && c != '\n') (l := s)).symm
  have hahead := noneAhead_dropWhile (fun c : Char => c != '\r' && c != '\n') s
  refine ⟨s.takeWhile (fun c => c != '\r' && c != '\n'), ?_, hbody, ?_⟩
  · unfold commentEnd? at h
    split at h
    · rename_i rest heq
      cases h
      rwa [heq] at hs
    · cases h
    · cases h
      exact hs
  · unfold commentEnd? at h
    split at h
    · cases h
      exact .returnFeed _
    · cases h
    · rename_i _ hnot
      cases h
      generalize s.dropWhile (fun c => c != '\r' && c != '\n') = rest at hahead hnot
      cases rest with
      | nil => exact .text
      | cons c rest =>
        have hc : c = '\r' ∨ c = '\n' := by
          have := hahead c rfl
          simp only [Bool.and_eq_false_iff, bne_eq_false_iff_eq] at this
          exact this
        obtain rfl | rfl := hc
        · exact absurd rfl (hnot rest)
        · exact .feed rest

theorem commentEnd?_of_lineEnd {body t : List Char} (line : ∀ c ∈ body, c ≠ '\r' ∧ c ≠ '\n') (ends : LineEnd t) :
    commentEnd? (body ++ t) = some t := by
  have ahead : NoneAhead (fun c => c != '\r' && c != '\n') t := by
    cases ends <;> simp [NoneAhead]
  have hbody : ∀ c ∈ body, (c != '\r' && c != '\n') = true := fun c hc => by simpa using line c hc
  unfold commentEnd?
  rw [(takeWhile_of_noneAhead hbody ahead).2]
  cases ends <;> rfl

theorem blankText_skipBlank (s : List Char) : BlankText s (skipBlank s) := by
  fun_induction skipBlank s with
  | case1 => exact .none _
  | case2 c s h ih => exact .space h ih
  | case3 c s _ hash t h ih =>
    obtain ⟨body, rfl, line, ends⟩ := lineEnd_of_commentEnd? h
    rw [eq_of_beq hash]
    exact .comment line ends ih
  | case4 => exact .none _
  | case5 => exact .none _

/-- **Blanks may be cut in two anywhere**: what is skipped is the same. -/
theorem skipBlank_of_blankText {s t : List Char} (h : BlankText s t) : skipBlank s = skipBlank t := by
  induction h with
  | none s => rfl
  | space h _ ih => rw [skipBlank, if_pos h, ih]
  | @comment body s t line ends _ ih =>
    rw [skipBlank, if_neg (by decide), if_pos (by decide), ← ih]
    split
    · rename_i final hfinal
      rw [commentEnd?_of_lineEnd line ends] at hfinal
      cases hfinal
      rfl
    · rename_i hnone
      rw [commentEnd?_of_lineEnd line ends] at hnone
      cases hnone

def isSolid (c : Char) : Bool := !isSpace c && c != '#'

theorem skipBlank_of_solid {c : Char} (h : isSolid c = true) (s : List Char) : skipBlank (c :: s) = c :: s := by
  simp only [isSolid, Bool.and_eq_true, Bool.not_eq_true', bne_iff_ne] at h
  rw [skipBlank, if_neg (by simp [h.1]), if_neg (by simp [h.2])]

theorem skipBlank_eq {s t : List Char} {c : Char} (h : BlankText s (c :: t)) (hc : isSolid c = true) :
    skipBlank s = c :: t := by
  rw [skipBlank_of_blankText h, skipBlank_of_solid hc]

theorem BlankText.length_le {s t : List Char} (h : BlankText s t) : t.length ≤ s.length := by
  induction h with
  | none s => exact Nat.le_refl _
  | space _ _ ih => exact Nat.le_succ_of_le ih
  | comment _ _ _ ih =>
    simp only [List.length_cons, List.length_append]
    omega

/-! ### Names -/

theorem isNameChar_of_isNameStart {c : Char} (h : isNameStart c = true) : isNameChar c = true := by
  simp only [isNameStart, isNameChar, Char.isAlphanum, Bool.or_eq_true] at h ⊢
  exact h.imp Or.inl id

def NameEnds (t : List Char) : Prop := NoneAhead (fun c => isNameChar c || c == '.') t

theorem NameEnds.noneAhead {t : List Char} (h : NameEnds t) : NoneAhead isNameChar t := fun c hc => by
  have := h c hc
  simp only [Bool.or_eq_false_iff] at this
  exact this.1

/-- A name is read as far as it goes: letters with no more behind and no dots, or letters with the dots. -/
theorem name_eq_some {s t : List Char} {f : String} :
    name s = some (f, t) ↔
      (∃ c cs, isNameStart c = true ∧ (∀ x ∈ cs, isNameChar x = true) ∧ NoneAhead isNameChar t ∧
        (c = '_' → ∀ t', t ≠ '.' :: '.' :: '.' :: t') ∧ s = c :: (cs ++ t) ∧ f = String.ofList (c :: cs)) ∨
      ∃ cs, (∀ x ∈ cs, isNameChar x = true) ∧ s = '_' :: (cs ++ '.' :: '.' :: '.' :: t) ∧
        f = String.ofList ('_' :: cs ++ ['.', '.', '.']) := by
  constructor
  · intro h
    cases s with
    | nil => cases h
    | cons c s =>
      have chars : ∀ x ∈ s.takeWhile isNameChar, isNameChar x = true := fun x hx => List.mem_takeWhile_imp hx
      have hsplit := (List.takeWhile_append_dropWhile (p := isNameChar) (l := s)).symm
      rw [name] at h
      split at h
      · rename_i start
        dsimp only at h
        split at h
        · rename_i under dots
          cases h
          obtain rfl : c = '_' := eq_of_beq under
          exact .inr ⟨_, chars, by rw [← dots, ← hsplit], rfl⟩
        · rename_i hnot
          cases h
          refine .inl ⟨c, _, start, chars, noneAhead_dropWhile _ _, fun under t' dots => ?_, by rw [← hsplit], rfl⟩
          exact hnot t' (by simp [under]) dots
      · cases h
  · rintro (⟨c, cs, start, chars, ahead, noDots, rfl, rfl⟩ | ⟨cs, chars, rfl, rfl⟩)
    · obtain ⟨htake, hdrop⟩ := takeWhile_of_noneAhead chars ahead
      rw [name, if_pos start]
      dsimp only
      rw [htake, hdrop]
      split
      · rename_i under
        exact absurd rfl (noDots (eq_of_beq under) _)
      · rfl
    · have ahead : NoneAhead isNameChar ('.' :: '.' :: '.' :: t) := by
        intro c hc
        cases hc
        decide
      obtain ⟨htake, hdrop⟩ := takeWhile_of_noneAhead chars ahead
      rw [name, if_pos (by decide)]
      dsimp only
      rw [htake, hdrop]
      rfl

theorem name_of_nameText {s t : List Char} {f : String} (h : NameText s f t) (ends : NameEnds t) : name s = some (f, t) := by
  cases h with
  | @plain c cs t start chars _ _ =>
    refine name_eq_some.2 (.inl ⟨c, cs, start, chars, ends.noneAhead, fun _ t' dots => ?_, rfl, rfl⟩)
    have := ends '.' (by rw [dots]; rfl)
    simp at this
  | @dotted cs t chars => exact name_eq_some.2 (.inr ⟨cs, chars, rfl, rfl⟩)

theorem keyword_eq_some {word : String} {s rest : List Char} :
    keyword word s = some rest ↔ s = word.toList ++ rest ∧ NoneAhead isNameChar rest := by
  unfold keyword
  constructor
  · intro h
    split at h
    · rename_i hprefix
      obtain ⟨tail, rfl⟩ := List.isPrefixOf_iff_prefix.1 hprefix
      simp only [List.drop_left] at h
      split at h
      · cases h
      · rename_i hahead
        cases h
        refine ⟨rfl, fun c hc => ?_⟩
        rw [hc] at hahead
        simpa using hahead
    · cases h
  · rintro ⟨rfl, ahead⟩
    rw [if_pos (List.isPrefixOf_iff_prefix.2 (List.prefix_append _ _))]
    simp only [List.drop_left]
    rw [if_neg]
    cases rest with
    | nil => simp
    | cons c rest => simp [ahead c rfl]

theorem keyword_eq_none {word : String} (letters : ∀ c ∈ word.toList, isNameChar c = true) {cs t : List Char}
    (chars : ∀ c ∈ cs, isNameChar c = true) (ahead : NoneAhead isNameChar t) (other : cs ≠ word.toList) :
    keyword word (cs ++ t) = none := by
  by_contra h
  obtain ⟨rest, hrest⟩ := Option.ne_none_iff_exists'.1 h
  obtain ⟨heq, hahead⟩ := keyword_eq_some.1 hrest
  exact other (eq_of_append_eq chars letters ahead hahead heq)

theorem boolLiteral_of_nameText {s t : List Char} {f : String} (h : NameText s f t) (ahead : NoneAhead isNameChar t) :
    boolLiteral s = none := by
  have letters : (∀ c ∈ "true".toList, isNameChar c = true) ∧ ∀ c ∈ "false".toList, isNameChar c = true :=
    ⟨List.all_eq_true.1 rfl, List.all_eq_true.1 rfl⟩
  cases h with
  | @plain c cs t start chars notTrue notFalse =>
    have hchars : ∀ x ∈ c :: cs, isNameChar x = true := List.forall_mem_cons.2 ⟨isNameChar_of_isNameStart start, chars⟩
    unfold boolLiteral
    rw [← List.cons_append, keyword_eq_none letters.1 hchars ahead notTrue, keyword_eq_none letters.2 hchars ahead notFalse]
  | dotted chars => rfl

theorem nameText_of_name {s t : List Char} {f : String} (h : name s = some (f, t)) (notBool : boolLiteral s = none) :
    NameText s f t := by
  obtain ⟨notTrue, notFalse⟩ : keyword "true" s = none ∧ keyword "false" s = none := by
    unfold boolLiteral at notBool
    split at notBool
    · cases notBool
    · rename_i htrue
      split at notBool
      · cases notBool
      · exact ⟨htrue, ‹_›⟩
  obtain ⟨c, cs, start, chars, ahead, -, rfl, rfl⟩ | ⟨cs, chars, rfl, rfl⟩ := name_eq_some.1 h
  · have hword : ∀ word : String, keyword word (c :: (cs ++ t)) = none → c :: cs ≠ word.toList := by
      intro word hnone hcs
      rw [keyword_eq_some.2 ⟨by rw [← hcs]; rfl, ahead⟩] at hnone
      cases hnone
    exact .plain start chars (hword _ notTrue) (hword _ notFalse)
  · exact .dotted chars

theorem isDigit_of_isNameStart {c : Char} (h : isNameStart c = true) : c.isDigit = false := by
  have alpha : c.isAlpha = (decide (65 ≤ c.val ∧ c.val ≤ 90) || (decide (97 ≤ c.val) && decide (c.val ≤ 122))) := rfl
  simp only [isNameStart, alpha, Char.isDigit, Bool.or_eq_true, Bool.and_eq_true, decide_eq_true_eq, Bool.and_eq_false_iff,
    decide_eq_false_iff_not, beq_iff_eq, UInt32.le_iff_toNat_le, ge_iff_le] at h ⊢
  obtain (h | h) | rfl := h
  · right
    simp at h ⊢
    omega
  · right
    simp at h ⊢
    omega
  · decide

/-! ### Numbers -/

theorem digits_of_digitText {ds t : List Char} (h : DigitText ds) (ahead : NoneAhead Char.isDigit t) :
    digits (ds ++ t) = some (ds, t) := by
  obtain ⟨htake, hdrop⟩ := takeWhile_of_noneAhead h.digit ahead
  unfold digits
  rw [htake, hdrop]
  split
  · exact absurd rfl h.some
  · rfl

theorem digits_eq_some {s ds t : List Char} :
    digits s = some (ds, t) ↔ DigitText ds ∧ s = ds ++ t ∧ NoneAhead Char.isDigit t := by
  constructor
  · intro h
    unfold digits at h
    split at h
    · cases h
    · rename_i hne
      cases h
      exact ⟨⟨fun hnil => hne hnil, fun c hc => List.mem_takeWhile_imp hc⟩, List.takeWhile_append_dropWhile.symm,
        noneAhead_dropWhile _ _⟩
  · rintro ⟨digit, rfl, ahead⟩
    exact digits_of_digitText digit ahead

theorem digits_eq_none {s : List Char} (ahead : NoneAhead Char.isDigit s) : digits s = none := by
  have htake : s.takeWhile Char.isDigit = [] := (@takeWhile_of_noneAhead _ [] _ (by simp) ahead).1
  unfold digits
  rw [htake]

theorem splitSign_of_signText {s ds t : List Char} {negative : Bool} (h : SignText s negative (ds ++ t)) (digit : DigitText ds) :
    Decimal.splitSign s = (negative, ds ++ t) := by
  cases h with
  | plus => rfl
  | minus => rfl
  | none =>
    cases ds with
    | nil => exact absurd rfl digit.some
    | cons d ds =>
      have hd := digit.digit d List.mem_cons_self
      rw [List.cons_append]
      unfold Decimal.splitSign
      split
      · rename_i heq
        cases heq
        cases hd
      · rename_i heq
        cases heq
        cases hd
      · rfl

theorem signText_splitSign (s : List Char) : SignText s (Decimal.splitSign s).1 (Decimal.splitSign s).2 := by
  unfold Decimal.splitSign
  split
  · exact .minus _
  · exact .plus _
  · exact .none _

theorem exponent_of_exponentText {s t : List Char} {e : Int} (h : ExponentText s e t) (ahead : NoneAhead Char.isDigit t) :
    exponent s = some (e, t) := by
  obtain ⟨letter, sign, digit⟩ := h
  rw [exponent, if_pos (by simpa using letter), splitSign_of_signText sign digit]
  dsimp only
  rw [digits_of_digitText digit ahead]

theorem exponent_eq_some {s t : List Char} {e : Int} :
    exponent s = some (e, t) ↔ ExponentText s e t ∧ NoneAhead Char.isDigit t := by
  constructor
  · intro h
    cases s with
    | nil => cases h
    | cons c s =>
      rw [exponent] at h
      split at h
      · rename_i letter
        dsimp only at h
        split at h
        · rename_i ds rest hdigits
          obtain ⟨digit, hs, ahead⟩ := digits_eq_some.1 hdigits
          have sign := signText_splitSign s
          rw [hs] at sign
          cases h
          exact ⟨.mk (by simpa using letter) sign digit, ahead⟩
        · cases h
      · cases h
  · rintro ⟨text, ahead⟩
    exact exponent_of_exponentText text ahead

theorem ExponentText.noneAhead {s t : List Char} {e : Int} (h : ExponentText s e t) : NoneAhead Char.isDigit s := by
  obtain ⟨letter, -, -⟩ := h
  intro c hc
  cases hc
  obtain rfl | rfl := letter <;> decide

theorem exponent_eq_none {s : List Char} (ahead : NoneAhead (fun c => c == 'e' || c == 'E') s) : exponent s = none := by
  cases s with
  | nil => rfl
  | cons c s => rw [exponent, if_neg (by simp [ahead c rfl])]

/-- Behind the whole digits: a point with digits, perhaps with an exponent behind, or an exponent alone. -/
theorem fraction_eq_some {s part t : List Char} {e : Int} :
    fraction s = some ((part, e), t) ↔
      (∃ s', s = '.' :: s' ∧ ∃ s'', digits s' = some (part, s'') ∧
        (exponent s'' = some (e, t) ∨ exponent s'' = none ∧ e = 0 ∧ s'' = t)) ∨
      part = [] ∧ exponent s = some (e, t) := by
  unfold fraction
  constructor
  · intro h
    split at h
    · rename_i s'
      split at h
      · rename_i hdigits
        split at h
        · rename_i hexp
          cases h
          exact .inl ⟨s', rfl, _, hdigits, .inl hexp⟩
        · rename_i hexp
          cases h
          exact .inl ⟨s', rfl, _, hdigits, .inr ⟨hexp, rfl, rfl⟩⟩
      · cases h
    · split at h
      · rename_i hexp
        cases h
        exact .inr ⟨rfl, hexp⟩
      · cases h
  · rintro (⟨s', rfl, s'', hdigits, hexp | ⟨hexp, rfl, rfl⟩⟩ | ⟨rfl, hexp⟩)
    · simp only [hdigits, hexp]
    · simp only [hdigits, hexp]
    · split
      · cases hexp
      · rw [hexp]

theorem floatLiteral_eq_some {s t : List Char} {l : Literal} :
    floatLiteral s = some (l, t) ↔ ∃ whole s' part e, digits s = some (whole, s') ∧ fraction s' = some ((part, e), t) ∧
      l = .float (Decimal.ofParts false whole part e) := by
  unfold floatLiteral
  constructor
  · intro h
    split at h
    · cases h
    · rename_i whole s' hdigits
      split at h
      · cases h
      · rename_i part e rest hfraction
        cases h
        exact ⟨whole, s', part, e, hdigits, hfraction, rfl⟩
  · rintro ⟨whole, s', part, e, hdigits, hfraction, rfl⟩
    simp only [hdigits, hfraction]

theorem intLiteral_eq_some {s t : List Char} {l : Literal} :
    intLiteral s = some (l, t) ↔ ∃ ds, digits s = some (ds, t) ∧ Decimal.natOfDigits ds < Nat.pow 2 63 ∧
      l = .int (Int64.ofNat (Decimal.natOfDigits ds)) := by
  unfold intLiteral
  constructor
  · intro h
    split at h
    · cases h
    · rename_i ds rest hdigits
      dsimp only at h
      split at h
      · rename_i fits
        cases h
        exact ⟨ds, hdigits, fits, rfl⟩
      · cases h
  · rintro ⟨ds, hdigits, fits, rfl⟩
    simp only [hdigits, if_pos fits]

/-! ### Strings -/

theorem quoted_of_quotedText {quote : Char} {body cs : List Char} (h : QuotedText quote body cs) (hq : quote ≠ '\\')
    (t : List Char) : quoted quote (body ++ quote :: t) = some (cs, t) := by
  induction h with
  | nil =>
    rw [List.nil_append, quoted.eq_def]
    exact if_pos (beq_self_eq_true quote)
  | char notQuote notEscape _ ih =>
    rw [List.cons_append, quoted.eq_def]
    dsimp only
    rw [if_neg (by simpa using notQuote), if_neg (by simpa using notEscape), ih]
    rfl
  | escape c _ ih =>
    rw [List.cons_append, List.cons_append, quoted, if_neg (by simpa using hq.symm), if_pos (by simp)]
    dsimp only
    rw [ih]
    rfl

theorem quotedText_of_quoted {quote : Char} {s cs t : List Char} (h : quoted quote s = some (cs, t)) :
    ∃ body, s = body ++ quote :: t ∧ QuotedText quote body cs := by
  fun_induction quoted quote s generalizing cs with
  | case1 => cases h
  | case2 c s hc =>
    cases h
    exact ⟨[], by rw [eq_of_beq hc]; rfl, .nil⟩
  | case3 => cases h
  | case4 c hq hesc e s ih =>
    obtain ⟨⟨cs', rest⟩, hread, heq⟩ := Option.map_eq_some_iff.1 h
    cases heq
    obtain ⟨body, rfl, contents⟩ := ih hread
    rw [eq_of_beq hesc]
    exact ⟨'\\' :: e :: body, rfl, .escape e contents⟩
  | case5 c s hq hesc ih =>
    obtain ⟨⟨cs', rest⟩, hread, heq⟩ := Option.map_eq_some_iff.1 h
    cases heq
    obtain ⟨body, rfl, contents⟩ := ih hread
    exact ⟨c :: body, rfl, .char (by simpa using hq) (by simpa using hesc) contents⟩

theorem stringLiteral_of_quotedText {quote : Char} {body cs : List Char} (opens : quote = '"' ∨ quote = '\'')
    (contents : QuotedText quote body cs) (t : List Char) :
    stringLiteral (quote :: (body ++ quote :: t)) = some (.str (String.ofList cs), t) := by
  obtain rfl | rfl := opens
  · simp only [stringLiteral]
    rw [quoted_of_quotedText contents (by decide)]
    rfl
  · simp only [stringLiteral]
    rw [quoted_of_quotedText contents (by decide)]
    rfl

theorem quotedText_of_stringLiteral {s t : List Char} {l : Literal} (h : stringLiteral s = some (l, t)) :
    ∃ quote body cs, (quote = '"' ∨ quote = '\'') ∧ s = quote :: (body ++ quote :: t) ∧ QuotedText quote body cs ∧
      l = .str (String.ofList cs) := by
  unfold stringLiteral at h
  split at h
  · obtain ⟨⟨cs, rest⟩, hquoted, heq⟩ := Option.map_eq_some_iff.1 h
    cases heq
    obtain ⟨body, rfl, contents⟩ := quotedText_of_quoted hquoted
    exact ⟨_, body, cs, .inl rfl, rfl, contents, rfl⟩
  · obtain ⟨⟨cs, rest⟩, hquoted, heq⟩ := Option.map_eq_some_iff.1 h
    cases heq
    obtain ⟨body, rfl, contents⟩ := quotedText_of_quoted hquoted
    exact ⟨_, body, cs, .inr rfl, rfl, contents, rfl⟩
  · cases h

/-! ### Literals -/

def stopChars : List Char :=
  [' ', '\t', '\r', '\n', '#', ')', ',', ';', '|', '&', '=', '!', '<', '>', '+', '-', '*', '/', '%', '^']

/-- Behind an operand nothing is left that could belong to it. -/
def Stops (t : List Char) : Prop := ∀ c ∈ t.head?, c ∈ stopChars

theorem Stops.noneAhead {t : List Char} (h : Stops t) {p : Char → Bool} (hp : stopChars.any p = false) : NoneAhead p t :=
  fun c hc => by simpa using List.any_eq_false.1 hp c (h c hc)

theorem orElse_eq_some {α : Type} {p q : Reader α} {s : List Char} {r : α × List Char} :
    Reader.orElse p q s = some r ↔ p s = some r ∨ p s = none ∧ q s = some r := by
  unfold Reader.orElse
  cases p s <;> simp

theorem orElse_of_none {α : Type} {p q : Reader α} {s : List Char} (h : p s = none) : Reader.orElse p q s = q s := by
  unfold Reader.orElse
  rw [h]

theorem orElse_of_some {α : Type} {p q : Reader α} {s : List Char} {r : α × List Char} (h : p s = some r) :
    Reader.orElse p q s = some r := by
  unfold Reader.orElse
  rw [h]

theorem boolLiteral_of_literal {s : List Char} (h : literal s = none) : boolLiteral s = none := by
  cases hb : boolLiteral s with
  | none => rfl
  | some r =>
    rw [literal, orElse_of_some hb] at h
    cases h

theorem numbers_eq_none {s : List Char} (ahead : NoneAhead Char.isDigit s) : floatLiteral s = none ∧ intLiteral s = none := by
  unfold floatLiteral intLiteral
  rw [digits_eq_none ahead]
  exact ⟨rfl, rfl⟩

/-- A text that opens with neither a digit nor a quote is no literal but a truth value. -/
theorem literal_of_boolLiteral {s : List Char} (h : boolLiteral s = none)
    (ahead : NoneAhead (fun c => c.isDigit || c == '"' || c == '\'') s) : literal s = none := by
  obtain ⟨hfloat, hint⟩ := numbers_eq_none (s := s) (fun c hc => by
    have := ahead c hc
    simp only [Bool.or_eq_false_iff] at this
    exact this.1.1)
  unfold literal
  rw [orElse_of_none h, orElse_of_none hfloat, orElse_of_none hint]
  unfold stringLiteral
  split
  · have := ahead '"' rfl
    simp at this
  · have := ahead '\'' rfl
    simp at this
  · rfl

theorem literal_of_nameText {s t : List Char} {f : String} (h : NameText s f t) (ahead : NoneAhead isNameChar t) :
    literal s = none := by
  refine literal_of_boolLiteral (boolLiteral_of_nameText h ahead) ?_
  have start : ∀ c : Char, isNameStart c = true → (c.isDigit || c == '"' || c == '\'') = false := by
    intro c hc
    rw [isDigit_of_isNameStart hc, Bool.false_or, Bool.or_eq_false_iff, beq_eq_false_iff_ne, beq_eq_false_iff_ne]
    constructor <;> (rintro rfl; cases hc)
  cases h with
  | plain hstart _ _ _ =>
    intro c hc
    cases hc
    exact start _ hstart
  | dotted _ =>
    intro c hc
    cases hc
    decide

theorem boolLiteral_eq_none {c : Char} (h : isNameStart c = false) (s : List Char) : boolLiteral (c :: s) = none := by
  have hword : ∀ (word : String) {x : Char} {xs : List Char}, word.toList = x :: xs → isNameStart x = true →
      keyword word (c :: s) = none := by
    intro word x xs hw hx
    by_contra hsome
    obtain ⟨rest, hrest⟩ := Option.ne_none_iff_exists'.1 hsome
    obtain ⟨heq, -⟩ := keyword_eq_some.1 hrest
    rw [hw] at heq
    cases heq
    rw [hx] at h
    cases h
  unfold boolLiteral
  rw [hword "true" rfl rfl, hword "false" rfl rfl]

theorem boolLiteral_of_digitText {ds : List Char} (h : DigitText ds) (s : List Char) : boolLiteral (ds ++ s) = none := by
  cases ds with
  | nil => exact absurd rfl h.some
  | cons d ds =>
    refine boolLiteral_eq_none ?_ (ds ++ s)
    by_contra hstart
    have := isDigit_of_isNameStart (by simpa using hstart)
    rw [h.digit d List.mem_cons_self] at this
    cases this

theorem literal_of_fraction {whole part s t : List Char} {e : Int} (digit : DigitText whole) (ahead : NoneAhead Char.isDigit s)
    (h : fraction s = some ((part, e), t)) :
    literal (whole ++ s) = some (.float (Decimal.ofParts false whole part e), t) := by
  have hfloat : floatLiteral (whole ++ s) = some (.float (Decimal.ofParts false whole part e), t) :=
    floatLiteral_eq_some.2 ⟨whole, s, part, e, digits_of_digitText digit ahead, h, rfl⟩
  unfold literal
  rw [orElse_of_none (boolLiteral_of_digitText digit s), orElse_of_some hfloat]

/-- **A literal that nothing goes on behind is read as it is.** -/
theorem literal_of_literalText {s t : List Char} {l : Literal} (h : LiteralText s l t) (stops : Stops t) :
    literal s = some (l, t) := by
  have noDigit : NoneAhead Char.isDigit t := stops.noneAhead rfl
  have noExponent : exponent t = none := exponent_eq_none (stops.noneAhead rfl)
  have noName : NoneAhead isNameChar t := stops.noneAhead rfl
  cases h with
  | trueWord => exact orElse_of_some (by unfold boolLiteral; rw [keyword_eq_some.2 ⟨rfl, noName⟩])
  | falseWord =>
    refine orElse_of_some ?_
    have hnot : keyword "true" ("false".toList ++ t) = none := rfl
    unfold boolLiteral
    rw [hnot, keyword_eq_some.2 ⟨rfl, noName⟩]
  | @int ds t digit fits =>
    have noPoint : fraction t = none := by
      unfold fraction
      split
      · have := stops '.' rfl
        exact absurd this (by decide)
      · rw [noExponent]
    have hfloat : floatLiteral (ds ++ t) = none := by
      unfold floatLiteral
      rw [digits_of_digitText digit noDigit]
      dsimp only
      rw [noPoint]
    have hint : intLiteral (ds ++ t) = some (.int (Int64.ofNat (Decimal.natOfDigits ds)), t) :=
      intLiteral_eq_some.2 ⟨ds, digits_of_digitText digit noDigit, fits, rfl⟩
    unfold literal
    rw [orElse_of_none (boolLiteral_of_digitText digit t), orElse_of_none hfloat, orElse_of_some hint]
  | @point whole part t digit digit' =>
    refine literal_of_fraction digit (fun c hc => by cases hc; decide) ?_
    simp only [fraction, digits_of_digitText digit' noDigit, noExponent]
  | @pointExponent whole part s t e digit digit' hexp =>
    refine literal_of_fraction digit (fun c hc => by cases hc; decide) ?_
    simp only [fraction, digits_of_digitText digit' hexp.noneAhead, exponent_of_exponentText hexp noDigit]
  | @exponent whole s t e digit hexp =>
    refine literal_of_fraction digit hexp.noneAhead ?_
    unfold fraction
    split
    · obtain ⟨letter, -, -⟩ := hexp
      simp at letter
    · rw [exponent_of_exponentText hexp noDigit]
  | @string quote body cs t opens contents =>
    obtain ⟨hfloat, hint⟩ := numbers_eq_none (s := quote :: (body ++ quote :: t))
      (fun c hc => by cases hc; obtain rfl | rfl := opens <;> decide)
    unfold literal
    rw [orElse_of_none (boolLiteral_eq_none (by obtain rfl | rfl := opens <;> decide) _), orElse_of_none hfloat,
      orElse_of_none hint, stringLiteral_of_quotedText opens contents t]

/-- **What is read as a literal is one.** -/
theorem literalText_of_literal {s t : List Char} {l : Literal} (h : literal s = some (l, t)) : LiteralText s l t := by
  unfold literal at h
  rw [orElse_eq_some, orElse_eq_some, orElse_eq_some] at h
  obtain h | ⟨-, h | ⟨-, h | ⟨-, h⟩⟩⟩ := h
  · unfold boolLiteral at h
    split at h
    · rename_i rest hword
      cases h
      rw [(keyword_eq_some.1 hword).1]
      exact .trueWord _
    · split at h
      · rename_i rest hword
        cases h
        rw [(keyword_eq_some.1 hword).1]
        exact .falseWord _
      · cases h
  · obtain ⟨whole, s', part, e, hdigits, hfraction, rfl⟩ := floatLiteral_eq_some.1 h
    obtain ⟨digit, rfl, -⟩ := digits_eq_some.1 hdigits
    obtain ⟨s', rfl, s'', hpart, hexp⟩ | ⟨rfl, hexp⟩ := fraction_eq_some.1 hfraction
    · obtain ⟨digit', rfl, -⟩ := digits_eq_some.1 hpart
      obtain hexp | ⟨-, rfl, rfl⟩ := hexp
      · exact .pointExponent digit digit' (exponent_eq_some.1 hexp).1
      · exact .point digit digit'
    · exact .exponent digit (exponent_eq_some.1 hexp).1
  · obtain ⟨ds, hdigits, fits, rfl⟩ := intLiteral_eq_some.1 h
    obtain ⟨digit, rfl, -⟩ := digits_eq_some.1 hdigits
    exact .int digit fits
  · obtain ⟨_, _, _, opens, rfl, contents, rfl⟩ := quotedText_of_stringLiteral h
    exact .string opens contents

end Grammar
end ChainCalc
