import ChainCalc.Proofs.Grammar.Exact
/-!
# What stands behind a phrase — a derivation may be moved in front of another rest

No rule of the grammar but one looks at what is behind its phrase, so the characters of a phrase are a phrase for the same
thing in front of any rest (`OperandText.moved` and its companions).  The one is the comment, which ends at a line end or
with the text; inside a phrase it is followed by a character of the phrase, and that settles it (`LineEnd.moved`).
-/
namespace ChainCalc
namespace Grammar

/-! ### Blanks -/

/-- The characters are not just carriage returns: a line end that reaches into them is decided by them. -/
def Visible (w : List Char) : Prop := ∃ c ∈ w, c ≠ '\r'

theorem Visible.append_left {v w : List Char} (h : Visible w) : Visible (v ++ w) := by
  obtain ⟨c, hc, hne⟩ := h
  exact ⟨c, List.mem_append_right _ hc, hne⟩

theorem Visible.append_right {v w : List Char} (h : Visible v) : Visible (v ++ w) := by
  obtain ⟨c, hc, hne⟩ := h
  exact ⟨c, List.mem_append_left _ hc, hne⟩

theorem visible_cons {c : Char} (h : c ≠ '\r') (w : List Char) : Visible (c :: w) := ⟨c, List.mem_cons_self, h⟩

theorem LineEnd.moved {w t : List Char} (h : LineEnd (w ++ t)) (visible : Visible w) (t' : List Char) : LineEnd (w ++ t') := by
  obtain ⟨x, hx, hne⟩ := visible
  match w with
  | [] => cases hx
  | [c] =>
    obtain rfl : x = c := List.mem_singleton.1 hx
    cases h with
    | feed => exact .feed _
    | returnFeed => exact absurd rfl hne
  | c :: d :: w =>
    cases h with
    | feed => exact .feed _
    | returnFeed => exact .returnFeed _

theorem BlankText.moved {s w t : List Char} (h : BlankText s (w ++ t)) (visible : Visible w) :
    ∃ v, s = v ++ (w ++ t) ∧ ∀ t', BlankText (v ++ (w ++ t')) (w ++ t') := by
  generalize hend : w ++ t = s' at h
  induction h with
  | none => exact ⟨[], rfl, fun t' => .none _⟩
  | space hc _ ih =>
    obtain ⟨v, rfl, moved⟩ := ih hend
    exact ⟨_ :: v, rfl, fun t' => .space hc (moved t')⟩
  | @comment body _ _ line ends _ ih =>
    obtain ⟨v, rfl, moved⟩ := ih hend
    subst hend
    refine ⟨'#' :: (body ++ v), by simp, fun t' => ?_⟩
    have ends' : LineEnd (v ++ (w ++ t')) := by
      rw [← List.append_assoc] at ends ⊢
      exact ends.moved visible.append_left t'
    rw [List.cons_append, List.append_assoc]
    exact .comment line ends' (moved t')

theorem BlankText.exists_append {s t : List Char} (h : BlankText s t) : ∃ v, s = v ++ t := by
  induction h with
  | none => exact ⟨[], rfl⟩
  | space _ _ ih =>
    obtain ⟨v, rfl⟩ := ih
    exact ⟨_ :: v, rfl⟩
  | @comment body _ _ _ _ _ ih =>
    obtain ⟨v, rfl⟩ := ih
    exact ⟨'#' :: (body ++ v), by simp⟩

theorem BlankText.cut {s t : List Char} (h : BlankText s t) (ahead : NoneAhead isSpace t) :
    ∃ v, s = v ++ t ∧ BlankText v [] := by
  induction h with
  | none => exact ⟨[], rfl, .none []⟩
  | space hc _ ih =>
    obtain ⟨v, rfl, alone⟩ := ih ahead
    exact ⟨_ :: v, rfl, .space hc alone⟩
  | @comment body _ t line ends _ ih =>
    obtain ⟨v, rfl, alone⟩ := ih ahead
    refine ⟨'#' :: (body ++ v), by simp, .comment line ?_ alone⟩
    match v with
    | [] => exact .text
    | [c] =>
      cases ends with
      | feed => exact .feed _
      | returnFeed => exact absurd (ahead '\n' rfl) (by decide)
    | c :: d :: v =>
      cases ends with
      | feed => exact .feed _
      | returnFeed => exact .returnFeed _

/-! ### Names and literals -/

theorem DigitText.visible {ds : List Char} (h : DigitText ds) : Visible ds := by
  obtain ⟨d, hd⟩ := List.exists_mem_of_ne_nil ds h.some
  exact ⟨d, hd, by rintro rfl; exact absurd (h.digit _ hd) (by decide)⟩

theorem NameText.moved {s t : List Char} {f : String} (h : NameText s f t) :
    ∃ w, s = w ++ t ∧ Visible w ∧ ∀ t', NameText (w ++ t') f t' := by
  cases h with
  | @plain c cs _ start chars notTrue notFalse =>
    exact ⟨c :: cs, rfl, visible_cons (by rintro rfl; cases start) cs, fun t' => .plain start chars notTrue notFalse⟩
  | @dotted cs _ chars =>
    refine ⟨'_' :: (cs ++ ['.', '.', '.']), by simp, visible_cons (by decide) _, fun t' => ?_⟩
    have := NameText.dotted (t := t') chars
    simpa using this

theorem SignText.moved {s ds t : List Char} {negative : Bool} (h : SignText s negative (ds ++ t)) :
    ∃ w, s = w ++ t ∧ ∀ t', SignText (w ++ t') negative (ds ++ t') := by
  generalize hend : ds ++ t = s' at h
  cases h with
  | none =>
    subst hend
    exact ⟨ds, rfl, fun t' => .none _⟩
  | plus =>
    subst hend
    exact ⟨'+' :: ds, rfl, fun t' => .plus _⟩
  | minus =>
    subst hend
    exact ⟨'-' :: ds, rfl, fun t' => .minus _⟩

theorem ExponentText.moved {s t : List Char} {e : Int} (h : ExponentText s e t) :
    ∃ w, s = w ++ t ∧ ∀ t', ExponentText (w ++ t') e t' := by
  obtain @⟨c, _, _, _, _, letter, sign, digits⟩ := h
  obtain ⟨w, rfl, hsign⟩ := sign.moved
  exact ⟨c :: w, rfl, fun t' => .mk letter (hsign t') digits⟩

theorem LiteralText.moved {s t : List Char} {l : Literal} (h : LiteralText s l t) :
    ∃ w, s = w ++ t ∧ Visible w ∧ ∀ t', LiteralText (w ++ t') l t' := by
  cases h with
  | trueWord => exact ⟨_, rfl, visible_cons (by decide) _, .trueWord⟩
  | falseWord => exact ⟨_, rfl, visible_cons (by decide) _, .falseWord⟩
  | @int ds _ digits fits => exact ⟨ds, rfl, digits.visible, fun t' => .int digits fits⟩
  | @point whole part _ digits digits' =>
    refine ⟨whole ++ '.' :: part, by simp, digits.visible.append_right, fun t' => ?_⟩
    have := LiteralText.point (t := t') digits digits'
    simpa using this
  | @pointExponent whole part _ _ _ digits digits' exponent =>
    obtain ⟨w, rfl, hexponent⟩ := exponent.moved
    refine ⟨whole ++ '.' :: (part ++ w), by simp, digits.visible.append_right, fun t' => ?_⟩
    have := LiteralText.pointExponent digits digits' (hexponent t')
    simpa using this
  | @exponent whole _ _ _ digits exponent =>
    obtain ⟨w, rfl, hexponent⟩ := exponent.moved
    refine ⟨whole ++ w, by simp, digits.visible.append_right, fun t' => ?_⟩
    have := LiteralText.exponent digits (hexponent t')
    simpa using this
  | @string quote body _ _ opens contents =>
    refine ⟨quote :: (body ++ [quote]), by simp, visible_cons (by rintro rfl; simp at opens) _, fun t' => ?_⟩
    have := LiteralText.string (t := t') opens contents
    simpa using this

/-! ### Operands and chains -/

theorem BinaryText.moved {s t : List Char} {op : Operator} (h : BinaryText s op t) :
    ∃ w, s = w ++ t ∧ Visible w ∧ ∀ t', BinaryText (w ++ t') op t' := by
  obtain ⟨hop, rfl⟩ := h
  refine ⟨_, rfl, ?_, fun t' => ⟨hop, rfl⟩⟩
  cases op <;> exact visible_cons (by decide) _

theorem UnaryText.moved {s t : List Char} {op : Operator} (h : UnaryText s op t) :
    ∃ w, s = w ++ t ∧ Visible w ∧ ∀ t', UnaryText (w ++ t') op t' := by
  obtain ⟨hop, rfl⟩ := h
  refine ⟨_, rfl, ?_, fun t' => ⟨hop, rfl⟩⟩
  cases op <;> exact visible_cons (by decide) _

theorem BlankText.moved_closing {s t : List Char} {c : Char} (h : BlankText s (c :: t)) (hc : c ≠ '\r') :
    ∃ v, s = v ++ c :: t ∧ ∀ t', BlankText (v ++ c :: t') (c :: t') :=
  BlankText.moved (w := [c]) h (visible_cons hc [])

mutual

/-- **The characters of an operand are that operand in front of any rest.** -/
theorem OperandText.moved : ∀ {s t : List Char} {x : Operand}, OperandText s x t →
    ∃ w, s = w ++ t ∧ Visible w ∧ ∀ t', OperandText (w ++ t') x t'
  | _, t, _, .unary blank sign blank' operand => by
    obtain ⟨w, rfl, visible, hoperand⟩ := operand.moved
    obtain ⟨v', rfl, hblank'⟩ := blank'.moved visible
    obtain ⟨o, rfl, visible', hsign⟩ := sign.moved
    obtain ⟨v, rfl, hblank⟩ := blank.moved visible'
    refine ⟨v ++ (o ++ (v' ++ w)), by simp, visible.append_left.append_left.append_left, fun t' => ?_⟩
    simp only [List.append_assoc]
    exact .unary (hblank _) (hsign _) (hblank' _) (hoperand t')
  | _, t, _, .primary blank primary => by
    obtain ⟨w, rfl, visible, hprimary⟩ := primary.moved
    obtain ⟨v, rfl, hblank⟩ := blank.moved visible
    refine ⟨v ++ w, by simp, visible.append_left, fun t' => ?_⟩
    rw [List.append_assoc]
    exact .primary (hblank t') (hprimary t')

theorem PrimaryText.moved : ∀ {s t : List Char} {x : Operand}, PrimaryText s x t →
    ∃ w, s = w ++ t ∧ Visible w ∧ ∀ t', PrimaryText (w ++ t') x t'
  | _, t, _, .paren blank inner closes => by
    obtain ⟨v', rfl, hcloses⟩ := closes.moved_closing (by decide)
    obtain ⟨w, rfl, visible, hinner⟩ := inner.moved
    obtain ⟨v, rfl, hblank⟩ := blank.moved visible
    refine ⟨'(' :: (v ++ (w ++ (v' ++ [')']))), by simp, visible_cons (by decide) _, fun t' => ?_⟩
    simp only [List.append_assoc, List.cons_append, List.nil_append]
    exact .paren (hblank _) (hinner _) (hcloses t')
  | _, _, _, .lit literal => by
    obtain ⟨w, rfl, visible, hliteral⟩ := literal.moved
    exact ⟨w, rfl, visible, fun t' => .lit (hliteral t')⟩
  | _, t, _, .call name blank arguments closes => by
    obtain ⟨v', rfl, hcloses⟩ := closes.moved_closing (by decide)
    obtain ⟨a, rfl, harguments⟩ := arguments.moved
    -- Without arguments, the closing parenthesis is the first character behind the blanks.
    have hclosing : a ++ (v' ++ ')' :: t) = (a ++ (v' ++ [')'])) ++ t := by simp
    rw [hclosing] at blank
    obtain ⟨v, rfl, hblank⟩ := blank.moved (visible_cons (by decide) []).append_left.append_left
    obtain ⟨f, rfl, visible, hname⟩ := name.moved
    refine ⟨f ++ '(' :: (v ++ (a ++ (v' ++ [')']))), by simp, visible.append_right, fun t' => ?_⟩
    have hblank := hblank t'
    simp only [List.append_assoc, List.cons_append, List.nil_append] at hblank ⊢
    exact .call (hname _) hblank (harguments _) (hcloses t')
  | _, _, _, .ident name => by
    obtain ⟨w, rfl, visible, hname⟩ := name.moved
    exact ⟨w, rfl, visible, fun t' => .ident (hname t')⟩

theorem ExprText.moved : ∀ {s t : List Char} {e : Expr}, ExprText s e t →
    ∃ w, s = w ++ t ∧ Visible w ∧ ∀ t', ExprText (w ++ t') e t'
  | _, _, _, .mk first rest => by
    obtain ⟨l, rfl, hrest⟩ := rest.moved
    obtain ⟨w, rfl, visible, hfirst⟩ := first.moved
    refine ⟨w ++ l, by simp, visible.append_right, fun t' => ?_⟩
    rw [List.append_assoc]
    exact .mk (hfirst _) (hrest t')

theorem LinksText.moved : ∀ {s t : List Char} {ls : List Link}, LinksText s ls t →
    ∃ w, s = w ++ t ∧ ∀ t', LinksText (w ++ t') ls t'
  | _, _, _, .nil _ => ⟨[], rfl, .nil⟩
  | _, t, _, .cons blank operator blank' operand rest => by
    obtain ⟨l, rfl, hrest⟩ := rest.moved
    obtain ⟨w, rfl, visible, hoperand⟩ := operand.moved
    obtain ⟨v', rfl, hblank'⟩ := blank'.moved visible
    obtain ⟨o, rfl, visible', hoperator⟩ := operator.moved
    obtain ⟨v, rfl, hblank⟩ := blank.moved visible'
    refine ⟨v ++ (o ++ (v' ++ (w ++ l))), by simp, fun t' => ?_⟩
    simp only [List.append_assoc]
    exact .cons (hblank _) (hoperator _) (hblank' _) (hoperand _) (hrest t')

theorem ArgumentsText.moved : ∀ {s t : List Char} {es : List Expr}, ArgumentsText s es t →
    ∃ w, s = w ++ t ∧ ∀ t', ArgumentsText (w ++ t') es t'
  | _, _, _, .none _ => ⟨[], rfl, .none⟩
  | _, _, _, .some first rest => by
    obtain ⟨m, rfl, hrest⟩ := rest.moved
    obtain ⟨w, rfl, -, hfirst⟩ := first.moved
    refine ⟨w ++ m, by simp, fun t' => ?_⟩
    rw [List.append_assoc]
    exact .some (hfirst _) (hrest t')
  | _, _, _, .comma first rest comma => by
    obtain ⟨v, rfl, hcomma⟩ := comma.moved_closing (by decide)
    obtain ⟨m, rfl, hrest⟩ := rest.moved
    obtain ⟨w, rfl, -, hfirst⟩ := first.moved
    refine ⟨w ++ (m ++ (v ++ [','])), by simp, fun t' => ?_⟩
    simp only [List.append_assoc, List.cons_append, List.nil_append]
    exact .comma (hfirst _) (hrest _) (hcomma t')

theorem MoreText.moved : ∀ {s t : List Char} {es : List Expr}, MoreText s es t →
    ∃ w, s = w ++ t ∧ ∀ t', MoreText (w ++ t') es t'
  | _, _, _, .nil _ => ⟨[], rfl, .nil⟩
  | _, _, _, .cons comma blank argument rest => by
    obtain ⟨m, rfl, hrest⟩ := rest.moved
    obtain ⟨w, rfl, visible, hargument⟩ := argument.moved
    obtain ⟨v', rfl, hblank⟩ := blank.moved visible
    obtain ⟨v, rfl, hcomma⟩ := comma.moved_closing (by decide)
    refine ⟨v ++ ',' :: (v' ++ (w ++ m)), by simp, fun t' => ?_⟩
    simp only [List.append_assoc, List.cons_append]
    exact .cons (hcomma _) (hblank _) (hargument _) (hrest t')

end

end Grammar
end ChainCalc
