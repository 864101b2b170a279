import ChainCalc.Proofs.Grammar.Behind
/-!
# Cutting a text behind a phrase — what is read does not depend on what is left

A reader chooses between alternatives by looking past the phrase it will take: a number may go on with a point or an
exponent, a name with a parenthesis.  Where it leaves `u ++ r` of `w ++ r`, it leaves `u` of `w`, for every `r`
(`literal_cut`, `name_cut`, `operand_cut`): what failed in front of `r` fails at the end of the text too, since what can be
read there can be read in front of any rest.  A truth value is the exception, but then the longer text has a name there and
takes more than `w`.
-/
namespace ChainCalc
namespace Grammar

open Reader

variable {w u r : List Char}

theorem NoneAhead.of_append {p : Char → Bool} {t r : List Char} (h : NoneAhead p (t ++ r)) : NoneAhead p t := by
  cases t with
  | nil => intro c hc; cases hc
  | cons c t => exact h

theorem NoneAhead.append {p : Char → Bool} {t : List Char} (h : NoneAhead p t) (nonempty : t ≠ []) (r : List Char) :
    NoneAhead p (t ++ r) := by
  cases t with
  | nil => exact absurd rfl nonempty
  | cons c t => exact h

theorem cut_of_moved {X : List Char → List Char → Prop} (h : ∃ v, w ++ r = v ++ (u ++ r) ∧ ∀ t, X (v ++ t) t) : X w u := by
  obtain ⟨v, heq, h⟩ := h
  obtain rfl : w = v ++ u := List.append_cancel_right (by rw [heq, List.append_assoc])
  exact h u

/-! ### Numbers -/

theorem digits_ne_none {ds : List Char} (h : DigitText ds) (t : List Char) : digits (ds ++ t) ≠ none := by
  intro hnone
  obtain ⟨d, ds, rfl⟩ := List.exists_cons_of_ne_nil h.some
  have hd := h.digit d List.mem_cons_self
  unfold digits at hnone
  rw [List.cons_append, List.takeWhile_cons_of_pos hd] at hnone
  cases hnone

theorem digits_cut {ds : List Char} (h : digits (w ++ r) = some (ds, u ++ r)) : digits w = some (ds, u) := by
  obtain ⟨digit, hs, ahead⟩ := digits_eq_some.1 h
  obtain rfl : w = ds ++ u := List.append_cancel_right (by rw [hs, List.append_assoc])
  exact digits_eq_some.2 ⟨digit, rfl, ahead.of_append⟩

theorem ExponentText.exponent_ne_none {s t : List Char} {e : Int} (h : ExponentText s e t) : exponent s ≠ none := by
  obtain ⟨letter, sign, digit⟩ := h
  rw [exponent, if_pos (by simpa using letter), splitSign_of_signText sign digit]
  dsimp only
  split
  · simp
  · rename_i hnone
    exact absurd hnone (digits_ne_none digit _)

theorem exponent_cut {e : Int} (h : exponent (w ++ r) = some (e, u ++ r)) : exponent w = some (e, u) := by
  obtain ⟨text, ahead⟩ := exponent_eq_some.1 h
  exact exponent_eq_some.2 ⟨cut_of_moved (X := fun s t => ExponentText s e t) text.moved, ahead.of_append⟩

theorem exponent_cut_none (h : exponent (w ++ r) = none) : exponent w = none := by
  by_contra hsome
  obtain ⟨⟨e, t⟩, he⟩ := Option.ne_none_iff_exists'.1 hsome
  obtain ⟨v, rfl, moved⟩ := (exponent_eq_some.1 he).1.moved
  have := moved (t ++ r)
  rw [← List.append_assoc] at this
  exact this.exponent_ne_none h

theorem exists_append_of_fraction {s t : List Char} {p : List Char × Int} (h : fraction s = some (p, t)) : ∃ v, s = v ++ t := by
  obtain ⟨s', rfl, s'', hdigits, hexp⟩ | ⟨-, hexp⟩ := fraction_eq_some.1 h
  · obtain ⟨-, rfl, -⟩ := digits_eq_some.1 hdigits
    obtain hexp | ⟨-, -, rfl⟩ := hexp
    · obtain ⟨v, rfl, -⟩ := (exponent_eq_some.1 hexp).1.moved
      exact ⟨'.' :: (p.1 ++ v), by simp⟩
    · exact ⟨'.' :: p.1, by simp⟩
  · obtain ⟨v, rfl, -⟩ := (exponent_eq_some.1 hexp).1.moved
    exact ⟨v, rfl⟩

theorem fraction_cut {p : List Char × Int} (h : fraction (w ++ r) = some (p, u ++ r)) : fraction w = some (p, u) := by
  obtain ⟨s', hs, s'', hdigits, hexp⟩ | ⟨hpart, hexp⟩ := fraction_eq_some.1 h
  · -- The digits end in front of what the exponent leaves, so within `w`.
    obtain ⟨v, rfl⟩ : ∃ v, s'' = v ++ r := by
      obtain hexp | ⟨-, -, rfl⟩ := hexp
      · obtain ⟨v, rfl, -⟩ := (exponent_eq_some.1 hexp).1.moved
        exact ⟨v ++ u, by simp⟩
      · exact ⟨u, rfl⟩
    obtain ⟨digit, rfl, ahead⟩ := digits_eq_some.1 hdigits
    obtain rfl : w = '.' :: (p.1 ++ v) := List.append_cancel_right (by rw [hs]; simp)
    refine fraction_eq_some.2 (.inl ⟨_, rfl, v, digits_cut (by rw [List.append_assoc]; exact hdigits), ?_⟩)
    obtain hexp | ⟨hexp, hzero, hrest⟩ := hexp
    · exact .inl (exponent_cut hexp)
    · exact .inr ⟨exponent_cut_none hexp, hzero, List.append_cancel_right hrest⟩
  · exact fraction_eq_some.2 (.inr ⟨hpart, exponent_cut hexp⟩)

theorem fraction_cut_none (h : fraction (w ++ r) = none) : fraction w = none := by
  by_contra hsome
  obtain ⟨⟨⟨part, e⟩, t⟩, hw⟩ := Option.ne_none_iff_exists'.1 hsome
  obtain ⟨s', rfl, s'', hdigits, -⟩ | ⟨-, hexp⟩ := fraction_eq_some.1 hw
  · obtain ⟨digit, rfl, -⟩ := digits_eq_some.1 hdigits
    have hmore := digits_ne_none digit (s'' ++ r)
    obtain ⟨⟨ds, rest⟩, hds⟩ := Option.ne_none_iff_exists'.1 hmore
    rw [← List.append_assoc] at hds
    cases hexp : exponent rest with
    | some p => exact absurd (fraction_eq_some.2 (.inl ⟨_, rfl, rest, hds, .inl hexp⟩)) (by rw [← List.cons_append, h]; simp)
    | none =>
      exact absurd (fraction_eq_some.2 (.inl ⟨_, rfl, rest, hds, .inr ⟨hexp, rfl, rfl⟩⟩)) (by rw [← List.cons_append, h]; simp)
  · obtain hnone | ⟨⟨e', t'⟩, hmore⟩ := Option.eq_none_or_eq_some (exponent (w ++ r))
    · rw [exponent_cut_none hnone] at hexp
      cases hexp
    · rw [fraction_eq_some.2 (.inr ⟨rfl, hmore⟩)] at h
      cases h

theorem floatLiteral_cut {l : Literal} (h : floatLiteral (w ++ r) = some (l, u ++ r)) : floatLiteral w = some (l, u) := by
  obtain ⟨whole, s', part, e, hdigits, hfraction, rfl⟩ := floatLiteral_eq_some.1 h
  obtain ⟨v, rfl⟩ := exists_append_of_fraction hfraction
  rw [← List.append_assoc] at hdigits hfraction
  exact floatLiteral_eq_some.2 ⟨whole, v ++ u, part, e, digits_cut hdigits, fraction_cut hfraction, rfl⟩

theorem floatLiteral_cut_none (h : floatLiteral (w ++ r) = none) : floatLiteral w = none := by
  by_contra hsome
  obtain ⟨⟨l, t⟩, hw⟩ := Option.ne_none_iff_exists'.1 hsome
  obtain ⟨whole, s', part, e, hdigits, hfraction, -⟩ := floatLiteral_eq_some.1 hw
  have hne : s' ≠ [] := by
    rintro rfl
    cases hfraction
  obtain ⟨digit, rfl, ahead⟩ := digits_eq_some.1 hdigits
  have hdigits' : digits (whole ++ s' ++ r) = some (whole, s' ++ r) :=
    digits_eq_some.2 ⟨digit, List.append_assoc _ _ _, ahead.append hne r⟩
  obtain hnone | ⟨⟨⟨part', e'⟩, t'⟩, hmore⟩ := Option.eq_none_or_eq_some (fraction (s' ++ r))
  · rw [fraction_cut_none hnone] at hfraction
    cases hfraction
  · rw [floatLiteral_eq_some.2 ⟨whole, s' ++ r, part', e', hdigits', hmore, rfl⟩] at h
    cases h

theorem intLiteral_cut {l : Literal} (h : intLiteral (w ++ r) = some (l, u ++ r)) : intLiteral w = some (l, u) := by
  obtain ⟨ds, hdigits, fits, rfl⟩ := intLiteral_eq_some.1 h
  exact intLiteral_eq_some.2 ⟨ds, digits_cut hdigits, fits, rfl⟩

/-! ### Words and strings -/

theorem keyword_cut {word : String} (h : keyword word (w ++ r) = some (u ++ r)) : keyword word w = some u := by
  obtain ⟨hs, ahead⟩ := keyword_eq_some.1 h
  exact keyword_eq_some.2 ⟨List.append_cancel_right (by rw [hs, List.append_assoc]), ahead.of_append⟩

theorem boolLiteral_cut {l : Literal} (h : boolLiteral (w ++ r) = some (l, u ++ r)) : boolLiteral w = some (l, u) := by
  unfold boolLiteral at h
  split at h
  · rename_i rest hword
    cases h
    unfold boolLiteral
    rw [keyword_cut hword]
  · split at h
    · rename_i rest hword
      cases h
      have hword := keyword_cut hword
      obtain ⟨rfl, -⟩ := keyword_eq_some.1 hword
      have hnot : keyword "true" ("false".toList ++ u) = none := rfl
      unfold boolLiteral
      rw [hnot, hword]
    · cases h

theorem stringLiteral_cut {l : Literal} (h : stringLiteral (w ++ r) = some (l, u ++ r)) :
    stringLiteral w = some (l, u) ∧ ∃ quote s, w = quote :: s ∧ (quote = '"' ∨ quote = '\'') := by
  obtain ⟨quote, body, cs, opens, hs, contents, rfl⟩ := quotedText_of_stringLiteral h
  obtain rfl : w = quote :: (body ++ quote :: u) := List.append_cancel_right (by rw [hs]; simp)
  exact ⟨stringLiteral_of_quotedText opens contents u, quote, _, rfl, opens⟩

/-- **What is read as a literal is read as that literal at the end of the text.** -/
theorem literal_cut {l : Literal} (h : literal (w ++ r) = some (l, u ++ r)) : literal w = some (l, u) := by
  unfold literal at h ⊢
  rw [orElse_eq_some, orElse_eq_some, orElse_eq_some] at h
  have noBool : ∀ {ds s : List Char}, digits w = some (ds, s) → boolLiteral w = none := by
    intro ds s hdigits
    obtain ⟨digit, rfl, -⟩ := digits_eq_some.1 hdigits
    exact boolLiteral_of_digitText digit s
  obtain h | ⟨-, h | ⟨hfloat, h | ⟨-, h⟩⟩⟩ := h
  · exact orElse_of_some (boolLiteral_cut h)
  · have h := floatLiteral_cut h
    obtain ⟨whole, s', _, _, hdigits, -⟩ := floatLiteral_eq_some.1 h
    rw [orElse_of_none (noBool hdigits), orElse_of_some h]
  · have h := intLiteral_cut h
    obtain ⟨ds, hdigits, -⟩ := intLiteral_eq_some.1 h
    rw [orElse_of_none (noBool hdigits), orElse_of_none (floatLiteral_cut_none hfloat), orElse_of_some h]
  · obtain ⟨h, quote, s, rfl, opens⟩ := stringLiteral_cut h
    obtain ⟨hfloat, hint⟩ := numbers_eq_none (s := quote :: s) (fun c hc => by cases hc; obtain rfl | rfl := opens <;> decide)
    rw [orElse_of_none (boolLiteral_eq_none (by obtain rfl | rfl := opens <;> decide) _), orElse_of_none hfloat,
      orElse_of_none hint, h]

/-! ### Names -/

theorem name_cut {f : String} (h : name (w ++ r) = some (f, u ++ r)) : name w = some (f, u) := by
  obtain ⟨c, cs, start, chars, ahead, noDots, hs, rfl⟩ | ⟨cs, chars, hs, rfl⟩ := name_eq_some.1 h
  · obtain rfl : w = c :: (cs ++ u) := List.append_cancel_right (by rw [hs]; simp)
    refine name_eq_some.2 (.inl ⟨c, cs, start, chars, ahead.of_append, fun under t dots => ?_, rfl, rfl⟩)
    exact noDots under (t ++ r) (by rw [dots]; rfl)
  · obtain rfl : w = '_' :: (cs ++ '.' :: '.' :: '.' :: u) := List.append_cancel_right (by rw [hs]; simp)
    exact name_eq_some.2 (.inr ⟨cs, chars, rfl, rfl⟩)

theorem literal_of_name {s t : List Char} {f : String} (text : NameText s f t) (h : name s = some (f, t)) :
    literal s = none := by
  obtain ⟨_, _, _, _, ahead, _, _, _⟩ | ⟨cs, _, rfl, _⟩ := name_eq_some.1 h
  · exact literal_of_nameText text ahead
  · exact literal_of_boolLiteral rfl (fun c hc => by cases hc; decide)

/-! ### Operands -/

theorem skipBlank_cut {c : Char} {v : List Char} (h : skipBlank (w ++ r) = c :: (v ++ r)) (solid : isSolid c = true) :
    skipBlank w = c :: v := by
  have visible : Visible (c :: v) := visible_cons (by rintro rfl; cases solid) v
  have blank : BlankText (w ++ r) ((c :: v) ++ r) := by
    have := blankText_skipBlank (w ++ r)
    rwa [h] at this
  obtain ⟨b, heq, moved⟩ := blank.moved visible
  obtain rfl : w = b ++ c :: v := List.append_cancel_right (by rw [heq, List.append_assoc])
  have alone := moved []
  rw [List.append_nil] at alone
  exact skipBlank_eq alone solid

theorem callOperand_of_primaryText {s t : List Char} {f : String} {args : List Expr} (h : PrimaryText s (.call f args) t)
    {n : Nat} (bound : s.length ≤ n) : callOperand (chain (operand n)) s = some (.call f args, t) := by
  cases h with
  | @call _ s₁ _ s₃ _ _ _ name blank arguments closes =>
    have := name.length_lt
    have := blank.length_le
    have := closes.length_le
    simp only [List.length_cons] at *
    obtain ⟨v, hargs, hclose⟩ := arguments.read closes (n := n) (by omega)
    rw [← skipBlank_of_blankText blank] at hargs
    exact callOperand_of_nameText name hargs hclose

theorem callOperand_cut_none {n m : Nat} (bound : (w ++ r).length ≤ n) (notBool : boolLiteral w = none)
    (h : callOperand (chain (operand n)) (w ++ r) = none) : callOperand (chain (operand m)) w = none := by
  by_contra hsome
  obtain ⟨⟨x, t⟩, hx⟩ := Option.ne_none_iff_exists'.1 hsome
  obtain ⟨f, args, _, _, _, rfl, name, blank, arguments, closes⟩ := exists_of_callOperand operandText_of_operand notBool hx
  obtain ⟨v, rfl, -, moved⟩ := (PrimaryText.call name blank arguments closes).moved
  have text := moved (t ++ r)
  rw [← List.append_assoc] at text
  rw [callOperand_of_primaryText text bound] at h
  cases h

theorem endsItself_of_parenthesised {expr : Reader Expr} {s t : List Char} {x : Operand}
    (h : parenthesised expr s = some (x, t)) : endsItself x = true := by
  unfold parenthesised at h
  split at h
  · split at h
    · cases h
    · split at h
      · cases h
        rfl
      · cases h
  · cases h

theorem endsItself_of_callOperand {expr : Reader Expr} {s t : List Char} {x : Operand}
    (h : callOperand expr s = some (x, t)) : endsItself x = true := by
  unfold callOperand at h
  split at h
  · dsimp only at h
    split at h
    · cases h
      rfl
    · cases h
  · cases h

/-- **What is read as an operand without an operator in front is read as that operand at the end of the text.** -/
theorem primary_cut {n m : Nat} {x : Operand} (h : primary (chain (operand n)) (w ++ r) = some (x, u ++ r))
    (bound : (w ++ r).length ≤ n) (bound' : w.length ≤ m) : primary (chain (operand m)) w = some (x, u) := by
  have text : PrimaryText w x u := by
    obtain ⟨v, hv, -, moved⟩ := (primaryText_of_primary operandText_of_operand h).moved
    exact cut_of_moved (X := fun s t => PrimaryText s x t) ⟨v, hv, moved⟩
  have closed : endsItself x = true → primary (chain (operand m)) w = some (x, u) :=
    fun hx => text.read (fun opened => absurd hx (by simp [opened])) (by omega)
  unfold primary at h closed ⊢
  rw [orElse_eq_some, orElse_eq_some, orElse_eq_some] at h
  obtain h | ⟨-, h | ⟨hlit, h | ⟨hcall, h⟩⟩⟩ := h
  · exact closed (endsItself_of_parenthesised h)
  · obtain ⟨⟨l, t⟩, hl, heq⟩ := Option.map_eq_some_iff.1 h
    cases heq
    have hl := literal_cut hl
    rw [orElse_of_none (parenthesised_eq_none (literalText_of_literal hl).opens _)]
    exact orElse_of_some (by rw [hl]; rfl)
  · exact closed (endsItself_of_callOperand h)
  · obtain ⟨⟨f, t⟩, hname, heq⟩ := Option.map_eq_some_iff.1 h
    cases heq
    have hname := name_cut hname
    cases text with
    | ident name =>
      have hlit := literal_of_name name hname
      rw [orElse_of_none (parenthesised_eq_none name.opens _), orElse_of_none (by rw [hlit]; rfl),
        orElse_of_none (callOperand_cut_none bound (boolLiteral_of_literal hlit) hcall), hname]
      rfl

theorem exists_append_of_operand {n : Nat} {s t : List Char} {x : Operand} (h : operand n s = some (x, t)) :
    ∃ v, s = v ++ t := by
  obtain ⟨v, hv, -⟩ := (operandText_of_operand h).moved
  exact ⟨v, hv⟩

theorem skipBlank_cut_of_symbol {s : List Char} {op : Operator} (h : skipBlank (w ++ r) = op.symbol.toList ++ (s ++ r)) :
    skipBlank w = op.symbol.toList ++ s := by
  obtain ⟨c, cs, hop, solid⟩ : ∃ c cs, op.symbol.toList = c :: cs ∧ isSolid c = true := by
    cases op <;> exact ⟨_, _, rfl, by decide⟩
  rw [hop, List.cons_append, ← List.append_assoc] at h
  rw [hop, skipBlank_cut h solid]
  rfl

theorem skipBlank_cut_of_primaryText {x : Operand} (h : PrimaryText (skipBlank (w ++ r)) x (u ++ r)) :
    skipBlank (w ++ r) = skipBlank w ++ r := by
  obtain ⟨c, s, hs, hc⟩ := h.opens
  obtain ⟨v, hv, -⟩ := h.moved
  cases v with
  | nil => exact absurd h.length_lt (by rw [hv]; simp)
  | cons d v =>
    have hwhole : skipBlank (w ++ r) = d :: (v ++ u ++ r) := by
      rw [hv, List.append_assoc]
      rfl
    obtain rfl : c = d := (List.cons.inj (hs.symm.trans hv)).1
    rw [hwhole, skipBlank_cut hwhole (isSolid_of_opensPrimary hc)]
    rfl

/-- **What is read as an operand is read as that operand at the end of the text**, however deep operands may be nested
there. -/
theorem operand_cut : ∀ {n m : Nat} {w u r : List Char} {x : Operand}, operand n (w ++ r) = some (x, u ++ r) →
    (w ++ r).length < n → w.length < m → operand m w = some (x, u)
  | 0, _, _, _, _, _, _, bound, _ => absurd bound (Nat.not_lt_zero _)
  | _ + 1, 0, _, _, _, _, _, _, bound' => absurd bound' (Nat.not_lt_zero _)
  | n + 1, m + 1, w, u, r, x, h, bound, bound' => by
    have hlen := (blankText_skipBlank (w ++ r)).length_le
    have hlen' := (blankText_skipBlank w).length_le
    rw [operand_succ] at h ⊢
    obtain h | ⟨-, h⟩ := orElse_eq_some.1 h
    · unfold prefixed at h
      split at h
      · cases h
      · rename_i op s hop
        obtain ⟨⟨y, t⟩, hy, heq⟩ := Option.map_eq_some_iff.1 h
        cases heq
        rw [operand_congr (skipBlank_skipBlank s)] at hy
        obtain ⟨v, rfl⟩ := exists_append_of_operand hy
        rw [← List.append_assoc] at hy hop
        have sign := unaryText_of_unaryOperator hop
        have sign' : UnaryText (skipBlank w) op (v ++ u) := ⟨sign.1, skipBlank_cut_of_symbol sign.2⟩
        have := sign.length_lt
        have := sign'.length_lt
        have inner := operand_cut (m := m) hy (by omega) (by omega)
        refine orElse_of_some ?_
        unfold prefixed
        rw [unaryOperator_of_unaryText sign' (operandText_of_operand inner).head?_ne]
        dsimp only
        rw [operand_congr (skipBlank_skipBlank _), inner]
        rfl
    · have hskip := skipBlank_cut_of_primaryText (primaryText_of_primary operandText_of_operand h)
      rw [hskip] at h hlen
      have inner := primary_cut (m := m) h (by omega) (by omega)
      rw [orElse_of_none ((primaryText_of_primary operandText_of_operand inner).prefixed_eq_none _), inner]

theorem operand_deeper {n m : Nat} {s t : List Char} {x : Operand} (h : operand n s = some (x, t)) (bound : s.length < n)
    (bound' : s.length < m) : operand m s = some (x, t) :=
  operand_cut (r := []) (by simpa using h) (by simpa using bound) bound'

theorem link_cut {n m : Nat} {l : Link} (h : link (operand n) (w ++ r) = some (l, u ++ r)) (bound : (w ++ r).length < n)
    (bound' : w.length < m) : link (operand m) w = some (l, u) := by
  obtain ⟨op, s, x, rfl, operator, hx⟩ := exists_of_link h
  rw [operand_congr (skipBlank_skipBlank s)] at hx
  obtain ⟨v, rfl⟩ := exists_append_of_operand hx
  rw [← List.append_assoc] at hx operator
  have operator' : BinaryText (skipBlank w) op (v ++ u) := ⟨operator.1, skipBlank_cut_of_symbol operator.2⟩
  have hlen := (blankText_skipBlank (w ++ r)).length_le
  have hlen' := (blankText_skipBlank w).length_le
  have := operator.length_lt
  have := operator'.length_lt
  exact link_of_binaryText operator' (operand_cut hx (by omega) (by omega))

/-- Where an operator stands that an operand can be read at, the operator has an operand: it is a minus sign. -/
theorem link_ne_none_of_operand {n : Nat} {s t t' : List Char} {op : Operator} {x : Operand} (operator : BinaryText s op t)
    (next : operand n s = some (x, t')) (bound : s.length < n) : link (operand n) s ≠ none := by
  cases n with
  | zero => cases next
  | succ n =>
    rw [operand_succ, operator.skipBlank_eq] at next
    obtain h | ⟨-, h⟩ := orElse_eq_some.1 next
    · unfold prefixed at h
      split at h
      · cases h
      · rename_i sign s' hop
        obtain ⟨⟨y, rest⟩, hy, -⟩ := Option.map_eq_some_iff.1 h
        rw [operand_congr (skipBlank_skipBlank s')] at hy
        obtain ⟨rfl, rfl⟩ : op = .sub ∧ s' = t := by
          obtain ⟨hbinary, rfl⟩ := operator
          cases op <;> first | exact absurd hbinary (by decide) | cases hop <;> exact ⟨rfl, rfl⟩
        have := operator.length_lt
        have hlink := link_of_binaryText (by rwa [operator.skipBlank_eq]) (operand_deeper (m := n + 1) hy (by omega) (by omega))
        rw [hlink]
        simp
    · obtain ⟨c, cs, rfl, hc⟩ := (primaryText_of_primary operandText_of_operand h).opens
      obtain ⟨hbinary, hs⟩ := operator
      cases op <;> first | exact absurd hbinary (by decide) | (cases hs; cases hc)

end Grammar
end ChainCalc
