import ChainCalc.Source
import ChainCalc.Proofs.Grammar.Tokens
/-!
# The parser accepts exactly its grammar

What is read is derivable (`operandText_of_operand`), and a derivation is read as it stands when what is behind it could not
belong to it (`OperandText.read`): a nesting depth of the length of the text is enough, and no greedy choice cuts off a
derivation.  So a text parses as an expression exactly when the grammar derives it, and it derives no other
(`parse_iff_sourceText`).
-/
namespace ChainCalc
namespace Grammar

open Reader

/-! ### Operators -/

theorem binaryText_of_binaryOperator {s t : List Char} {op : Operator} (h : binaryOperator s = some (op, t)) :
    BinaryText s op t := by
  unfold binaryOperator at h
  split at h <;> cases h <;> exact ⟨by decide, rfl⟩

theorem unaryText_of_unaryOperator {s t : List Char} {op : Operator} (h : unaryOperator s = some (op, t)) :
    UnaryText s op t := by
  unfold unaryOperator at h
  split at h <;> cases h
  · exact ⟨.inl rfl, rfl⟩
  · exact ⟨.inr rfl, rfl⟩

theorem binaryOperator_of_binaryText {s t : List Char} {op : Operator} (h : BinaryText s op t) (ahead : t.head? ≠ some '=') :
    binaryOperator s = some (op, t) := by
  obtain ⟨hop, rfl⟩ := h
  cases op with
  | not => exact absurd hop (by decide)
  | lt =>
    show binaryOperator ('<' :: t) = _
    unfold binaryOperator
    split <;> simp_all
  | gt =>
    show binaryOperator ('>' :: t) = _
    unfold binaryOperator
    split <;> simp_all
  | _ => rfl

theorem unaryOperator_of_unaryText {s t : List Char} {op : Operator} (h : UnaryText s op t) (ahead : t.head? ≠ some '=') :
    unaryOperator s = some (op, t) := by
  obtain ⟨rfl | rfl, rfl⟩ := h
  · rfl
  · show unaryOperator ('!' :: t) = _
    unfold unaryOperator
    split <;> simp_all

/-! ### What is read is derivable -/

theorem exists_of_link {operand : Reader Operand} {s t : List Char} {l : Link} (h : link operand s = some (l, t)) :
    ∃ op s' x, l = ⟨op, x⟩ ∧ BinaryText (skipBlank s) op s' ∧ operand (skipBlank s') = some (x, t) := by
  unfold link at h
  split at h
  · cases h
  · rename_i op s' hop
    obtain ⟨⟨x, t⟩, hx, heq⟩ := Option.map_eq_some_iff.1 h
    cases heq
    exact ⟨op, s', x, rfl, binaryText_of_binaryOperator hop, hx⟩

section

variable {operand : Reader Operand} (sound : ∀ {s x t}, operand s = some (x, t) → OperandText s x t)

include sound

theorem linksText_of_many (s : List Char) : LinksText s (many (link operand) s).1 (many (link operand) s).2 := by
  fun_induction many (link operand) s with
  | case1 s _ => exact .nil s
  | case2 s l rest h hlt as final hmany ih =>
    rw [hmany] at ih
    obtain ⟨op, s', x, rfl, operator, hx⟩ := exists_of_link h
    exact .cons (blankText_skipBlank s) operator (blankText_skipBlank s') (sound hx) ih
  | case3 s => exact .nil s

theorem exprText_of_chain {s t : List Char} {e : Expr} (h : chain operand s = some (e, t)) : ExprText s e t := by
  unfold chain at h
  split at h
  · cases h
  · rename_i first s' hfirst
    cases h
    exact .mk (sound hfirst) (linksText_of_many sound s')

theorem moreText_of_many (s : List Char) :
    MoreText s (many (nextArgument (chain operand)) s).1 (many (nextArgument (chain operand)) s).2 := by
  fun_induction many (nextArgument (chain operand)) s with
  | case1 s _ => exact .nil s
  | case2 s e rest h hlt as final hmany ih =>
    rw [hmany] at ih
    unfold nextArgument at h
    split at h
    · rename_i s' hcomma
      have comma := blankText_skipBlank s
      rw [hcomma] at comma
      exact .cons comma (blankText_skipBlank s') (exprText_of_chain sound h) ih
    · cases h
  | case3 s => exact .nil s

theorem argumentsText_of_arguments (s : List Char) :
    ArgumentsText s (arguments (chain operand) s).1 (arguments (chain operand) s).2 := by
  unfold arguments
  split
  · exact .none s
  · rename_i e s' hfirst
    have first := exprText_of_chain sound hfirst
    have rest := moreText_of_many sound s'
    dsimp only
    split
    · rename_i t hcomma
      have comma := blankText_skipBlank (many (nextArgument (chain operand)) s').2
      rw [hcomma] at comma
      exact .comma first rest comma
    · exact .some first rest

theorem exists_of_callOperand {s t : List Char} {x : Operand} (notBool : boolLiteral s = none)
    (h : callOperand (chain operand) s = some (x, t)) :
    ∃ f args s₁ s₂ s₃, x = .call f args ∧ NameText s f ('(' :: s₁) ∧ BlankText s₁ s₂ ∧ ArgumentsText s₂ args s₃ ∧
      BlankText s₃ (')' :: t) := by
  unfold callOperand at h
  split at h
  · rename_i f s' hname
    have args := argumentsText_of_arguments sound (skipBlank s')
    dsimp only at h
    split at h
    · rename_i rest hclose
      cases h
      have closes := blankText_skipBlank (arguments (chain operand) (skipBlank s')).2
      rw [hclose] at closes
      exact ⟨f, _, s', _, _, rfl, nameText_of_name hname notBool, blankText_skipBlank s', args, closes⟩
    · cases h
  · cases h

theorem primaryText_of_primary {s t : List Char} {x : Operand} (h : primary (chain operand) s = some (x, t)) :
    PrimaryText s x t := by
  unfold primary at h
  rw [orElse_eq_some, orElse_eq_some, orElse_eq_some] at h
  obtain h | ⟨-, h | ⟨hlit, h⟩⟩ := h
  · unfold parenthesised at h
    split at h
    · rename_i s'
      split at h
      · cases h
      · rename_i e u hinner
        split at h
        · rename_i rest hclose
          cases h
          have closes := blankText_skipBlank u
          rw [hclose] at closes
          exact .paren (blankText_skipBlank s') (exprText_of_chain sound hinner) closes
        · cases h
    · cases h
  · obtain ⟨⟨l, rest⟩, hl, heq⟩ := Option.map_eq_some_iff.1 h
    cases heq
    exact .lit (literalText_of_literal hl)
  · have notBool := boolLiteral_of_literal (Option.map_eq_none_iff.1 hlit)
    obtain h | ⟨-, h⟩ := h
    · obtain ⟨f, args, _, _, _, rfl, name, blank, arguments, closes⟩ := exists_of_callOperand sound notBool h
      exact .call name blank arguments closes
    · obtain ⟨⟨f, rest⟩, hname, heq⟩ := Option.map_eq_some_iff.1 h
      cases heq
      exact .ident (nameText_of_name hname notBool)

end

theorem operandText_of_operand : ∀ {n : Nat} {s t : List Char} {x : Operand}, operand n s = some (x, t) → OperandText s x t
  | 0, _, _, _, h => by cases h
  | n + 1, s, t, x, h => by
    rw [operand, orElse_eq_some] at h
    obtain h | ⟨-, h⟩ := h
    · unfold prefixed at h
      split at h
      · cases h
      · rename_i op s' hop
        obtain ⟨⟨y, rest⟩, hy, heq⟩ := Option.map_eq_some_iff.1 h
        cases heq
        exact .unary (blankText_skipBlank s) (unaryText_of_unaryOperator hop) (blankText_skipBlank s') (operandText_of_operand hy)
    · exact .primary (blankText_skipBlank s) (primaryText_of_primary operandText_of_operand h)

/-! ### Where phrases begin and end -/

def opensToken (c : Char) : Bool := c.isDigit || c == '"' || c == '\'' || isNameStart c

def opensPrimary (c : Char) : Bool := c == '(' || opensToken c

theorem notMem_of_opensPrimary {c : Char} (h : opensPrimary c = true) :
    c ∉ [' ', '\t', '\r', '\n', '#', '-', '!', '='] := by
  intro hmem
  have hnone : [' ', '\t', '\r', '\n', '#', '-', '!', '='].any opensPrimary = false := rfl
  exact List.any_eq_false.1 hnone c hmem h

theorem isSolid_of_opensPrimary {c : Char} (h : opensPrimary c = true) : isSolid c = true := by
  have := notMem_of_opensPrimary h
  simp_all [isSolid, isSpace]

theorem DigitText.opens {ds : List Char} (h : DigitText ds) (t : List Char) : ∃ c s, ds ++ t = c :: s ∧ opensToken c = true := by
  cases ds with
  | nil => exact absurd rfl h.some
  | cons d ds => exact ⟨d, ds ++ t, rfl, by simp [opensToken, h.digit d List.mem_cons_self]⟩

theorem NameText.opens {s t : List Char} {f : String} (h : NameText s f t) : ∃ c s', s = c :: s' ∧ opensToken c = true := by
  cases h with
  | plain start _ _ _ => exact ⟨_, _, rfl, by simp [opensToken, start]⟩
  | dotted _ => exact ⟨_, _, rfl, by decide⟩

theorem LiteralText.opens {s t : List Char} {l : Literal} (h : LiteralText s l t) : ∃ c s', s = c :: s' ∧ opensToken c = true := by
  cases h with
  | trueWord => exact ⟨'t', _, rfl, by decide⟩
  | falseWord => exact ⟨'f', _, rfl, by decide⟩
  | int digit _ => exact digit.opens _
  | point digit _ => exact digit.opens _
  | pointExponent digit _ _ => exact digit.opens _
  | exponent digit _ => exact digit.opens _
  | string opens _ => exact ⟨_, _, rfl, by obtain rfl | rfl := opens <;> decide⟩

theorem PrimaryText.opens {s t : List Char} {x : Operand} (h : PrimaryText s x t) : ∃ c s', s = c :: s' ∧ opensPrimary c = true := by
  have token : (∃ c s', s = c :: s' ∧ opensToken c = true) → ∃ c s', s = c :: s' ∧ opensPrimary c = true := by
    rintro ⟨c, s', hs, hc⟩
    exact ⟨c, s', hs, by simp [opensPrimary, hc]⟩
  cases h with
  | paren _ _ _ => exact ⟨'(', _, rfl, by decide⟩
  | lit h => exact token h.opens
  | call h _ _ _ => exact token h.opens
  | ident h => exact token h.opens

theorem parenthesised_eq_none {s : List Char} (h : ∃ c s', s = c :: s' ∧ opensToken c = true) (expr : Reader Expr) :
    parenthesised expr s = none := by
  obtain ⟨c, s', rfl, hc⟩ := h
  unfold parenthesised
  split
  · rename_i heq
    cases heq
    exact absurd hc (by decide)
  · rfl

theorem BlankText.head?_ne {s t : List Char} (h : BlankText s t) (ht : t.head? ≠ some '=') : s.head? ≠ some '=' := by
  cases h with
  | none => exact ht
  | space hc _ =>
    intro heq
    cases heq
    cases hc
  | comment _ _ _ => simp

theorem OperandText.head?_ne {s t : List Char} {x : Operand} (h : OperandText s x t) : s.head? ≠ some '=' := by
  cases h with
  | unary blank sign _ _ =>
    refine blank.head?_ne ?_
    obtain ⟨rfl | rfl, rfl⟩ := sign <;> simp [Operator.symbol]
  | primary blank primary =>
    refine blank.head?_ne ?_
    obtain ⟨c, s', rfl, hc⟩ := primary.opens
    intro heq
    cases heq
    exact notMem_of_opensPrimary hc (by decide)

theorem stops_of_blankText {s t : List Char} (h : BlankText s t) (ht : Stops t) : Stops s := by
  cases h with
  | none => exact ht
  | @space c s _ hc _ =>
    intro x hx
    cases hx
    simp only [isSpace, Bool.or_eq_true, beq_iff_eq] at hc
    obtain ((rfl | rfl) | rfl) | rfl := hc <;> decide
  | comment _ _ _ =>
    intro x hx
    cases hx
    decide

theorem stops_of_binaryText {s t : List Char} {op : Operator} (h : BinaryText s op t) : Stops s := by
  obtain ⟨hop, rfl⟩ := h
  intro c hc
  cases op <;> first | exact absurd hop (by decide) | (cases hc; decide)

/-- Behind an expression: the end of the text, a closing parenthesis, a comma or a semicolon. -/
def Ends (t : List Char) : Prop :=
  BlankText t [] ∨ ∃ u, BlankText t (')' :: u) ∨ BlankText t (',' :: u) ∨ BlankText t (';' :: u)

theorem Ends.stops {t : List Char} (h : Ends t) : Stops t := by
  obtain h | ⟨u, h | h | h⟩ := h
  · exact stops_of_blankText h (fun c hc => by cases hc)
  all_goals exact stops_of_blankText h (fun c hc => by cases hc; decide)

theorem Ends.link_eq_none {t : List Char} (h : Ends t) (operand : Reader Operand) : link operand t = none := by
  have hop : binaryOperator (skipBlank t) = none := by
    obtain h | ⟨u, h | h | h⟩ := h
    · rw [skipBlank_of_blankText h, skipBlank]
      rfl
    all_goals
      rw [skipBlank_eq h (by decide)]
      rfl
  unfold link
  rw [hop]

theorem BinaryText.skipBlank_eq {s t : List Char} {op : Operator} (h : BinaryText s op t) : skipBlank s = s := by
  obtain ⟨hop, rfl⟩ := h
  cases op <;> first | exact absurd hop (by decide) | exact skipBlank_of_solid (by decide) _

theorem UnaryText.skipBlank_eq {s t : List Char} {op : Operator} (h : UnaryText s op t) : skipBlank s = s := by
  obtain ⟨rfl | rfl, rfl⟩ := h <;> exact skipBlank_of_solid (by decide) _

theorem MoreText.ends {s t : List Char} {es : List Expr} (h : MoreText s es t) (ht : Ends t) : Ends s := by
  cases h with
  | nil => exact ht
  | cons comma _ _ _ => exact .inr ⟨_, .inr (.inl comma)⟩

theorem LinksText.stops {s t : List Char} {ls : List Link} (h : LinksText s ls t) (ht : Stops t) : Stops s := by
  cases h with
  | nil => exact ht
  | cons blank operator _ _ _ => exact stops_of_blankText blank (stops_of_binaryText operator)

/-! ### Phrases have a length -/

theorem DigitText.length_pos {ds : List Char} (h : DigitText ds) : 0 < ds.length := List.length_pos_iff.2 h.some

theorem NameText.length_lt {s t : List Char} {f : String} (h : NameText s f t) : t.length < s.length := by
  cases h with
  | plain _ _ _ _ =>
    simp only [List.length_cons, List.length_append]
    omega
  | dotted _ =>
    simp only [List.length_cons, List.length_append]
    omega

theorem ExponentText.length_lt {s t : List Char} {e : Int} (h : ExponentText s e t) : t.length < s.length := by
  obtain ⟨-, sign, -⟩ := h
  cases sign <;> (simp only [List.length_cons, List.length_append]; omega)

theorem LiteralText.length_lt {s t : List Char} {l : Literal} (h : LiteralText s l t) : t.length < s.length := by
  cases h with
  | trueWord => exact Nat.lt_of_lt_of_eq (Nat.lt_add_of_pos_left (by decide)) List.length_append.symm
  | falseWord => exact Nat.lt_of_lt_of_eq (Nat.lt_add_of_pos_left (by decide)) List.length_append.symm
  | int digit _ =>
    have := digit.length_pos
    simp only [List.length_append]
    omega
  | point _ _ =>
    simp only [List.length_append, List.length_cons]
    omega
  | pointExponent _ _ exponent =>
    have := exponent.length_lt
    simp only [List.length_append, List.length_cons]
    omega
  | exponent _ exponent =>
    have := exponent.length_lt
    simp only [List.length_append]
    omega
  | string _ _ =>
    simp only [List.length_append, List.length_cons]
    omega

theorem BinaryText.length_lt {s t : List Char} {op : Operator} (h : BinaryText s op t) : t.length < s.length := by
  obtain ⟨-, rfl⟩ := h
  have : 0 < op.symbol.toList.length := by cases op <;> decide
  simp only [List.length_append]
  omega

theorem UnaryText.length_lt {s t : List Char} {op : Operator} (h : UnaryText s op t) : t.length < s.length := by
  obtain ⟨-, rfl⟩ := h
  have : 0 < op.symbol.toList.length := by cases op <;> decide
  simp only [List.length_append]
  omega

mutual

theorem OperandText.length_lt : ∀ {s t : List Char} {x : Operand}, OperandText s x t → t.length < s.length
  | _, _, _, .unary blank sign blank' operand => by
    have := blank.length_le
    have := sign.length_lt
    have := blank'.length_le
    have := operand.length_lt
    omega
  | _, _, _, .primary blank primary => by
    have := blank.length_le
    have := primary.length_lt
    omega

theorem PrimaryText.length_lt : ∀ {s t : List Char} {x : Operand}, PrimaryText s x t → t.length < s.length
  | _, _, _, .paren blank inner closes => by
    have := blank.length_le
    have := inner.length_lt
    have := closes.length_le
    simp only [List.length_cons] at *
    omega
  | _, _, _, .lit literal => literal.length_lt
  | _, _, _, .call name blank arguments closes => by
    have := name.length_lt
    have := blank.length_le
    have := arguments.length_le
    have := closes.length_le
    simp only [List.length_cons] at *
    omega
  | _, _, _, .ident name => name.length_lt

theorem ExprText.length_lt : ∀ {s t : List Char} {e : Expr}, ExprText s e t → t.length < s.length
  | _, _, _, .mk first rest => Nat.lt_of_le_of_lt rest.length_le first.length_lt

theorem LinksText.length_le : ∀ {s t : List Char} {ls : List Link}, LinksText s ls t → t.length ≤ s.length
  | _, _, _, .nil _ => Nat.le_refl _
  | _, _, _, .cons blank operator blank' operand rest => by
    have := blank.length_le
    have := operator.length_lt
    have := blank'.length_le
    have := operand.length_lt
    have := rest.length_le
    omega

theorem ArgumentsText.length_le : ∀ {s t : List Char} {es : List Expr}, ArgumentsText s es t → t.length ≤ s.length
  | _, _, _, .none _ => Nat.le_refl _
  | _, _, _, .some first rest => Nat.le_trans rest.length_le (Nat.le_of_lt first.length_lt)
  | _, _, _, .comma first rest comma => by
    have := first.length_lt
    have := rest.length_le
    have := comma.length_le
    simp only [List.length_cons] at *
    omega

theorem MoreText.length_le : ∀ {s t : List Char} {es : List Expr}, MoreText s es t → t.length ≤ s.length
  | _, _, _, .nil _ => Nat.le_refl _
  | _, _, _, .cons comma blank argument rest => by
    have := comma.length_le
    have := blank.length_le
    have := argument.length_lt
    have := rest.length_le
    simp only [List.length_cons] at *
    omega

end

/-! ### A derivation is read as it stands -/

theorem many_of_none {α : Type} {p : Reader α} {s : List Char} (h : p s = none) : many p s = ([], s) := by
  rw [many, h]

theorem many_of_some {α : Type} {p : Reader α} {s rest final : List Char} {a : α} {as : List α} (h : p s = some (a, rest))
    (shorter : rest.length < s.length) (behind : many p rest = (as, final)) : many p s = (a :: as, final) := by
  rw [many, h]
  dsimp only
  rw [if_pos shorter, behind]

theorem many_eq_nil {α : Type} {p : Reader α} {s t : List Char} (h : many p s = ([], t)) : t = s := by
  rw [many] at h
  split at h
  · cases h
    rfl
  · split at h
    · cases h
    · cases h
      rfl

theorem many_eq_cons {α : Type} {p : Reader α} {s t : List Char} {a : α} {as : List α} (h : many p s = (a :: as, t)) :
    ∃ rest, p s = some (a, rest) ∧ rest.length < s.length ∧ many p rest = (as, t) := by
  rw [many] at h
  split at h
  · cases h
  · rename_i hp
    split at h
    · rename_i hlt
      cases h
      exact ⟨_, hp, hlt, rfl⟩
    · cases h

theorem operand_succ (n : Nat) (s : List Char) :
    operand (n + 1) s = orElse (prefixed (operand n)) (primary (chain (operand n))) (skipBlank s) := rfl

theorem operand_congr {s s' : List Char} (h : skipBlank s = skipBlank s') (n : Nat) : operand n s = operand n s' := by
  cases n with
  | zero => rfl
  | succ n => rw [operand_succ, operand_succ, h]

theorem chain_congr {s s' : List Char} (h : skipBlank s = skipBlank s') (n : Nat) :
    chain (operand n) s = chain (operand n) s' := by
  unfold chain
  rw [operand_congr h]

theorem skipBlank_skipBlank (s : List Char) : skipBlank (skipBlank s) = skipBlank s :=
  (skipBlank_of_blankText (blankText_skipBlank s)).symm

theorem link_of_binaryText {n : Nat} {s s' t : List Char} {op : Operator} {x : Operand}
    (operator : BinaryText (skipBlank s) op s') (inner : operand n s' = some (x, t)) :
    link (operand n) s = some (⟨op, x⟩, t) := by
  unfold link
  rw [binaryOperator_of_binaryText operator (operandText_of_operand inner).head?_ne]
  dsimp only
  rw [operand_congr (skipBlank_skipBlank s'), inner]
  rfl

theorem link_congr {s s' : List Char} (h : skipBlank s = skipBlank s') (operand : Reader Operand) :
    link operand s = link operand s' := by
  unfold link
  rw [h]

theorem chain_closing {s t : List Char} (h : skipBlank s = ')' :: t) (n : Nat) : chain (operand n) s = none := by
  have hoperand : operand n s = none := by
    cases n with
    | zero => rfl
    | succ n =>
      rw [operand_succ, h]
      rfl
  unfold chain
  rw [hoperand]

theorem PrimaryText.skipBlank_eq {s t : List Char} {x : Operand} (h : PrimaryText s x t) : skipBlank s = s := by
  obtain ⟨c, s', rfl, hc⟩ := h.opens
  exact skipBlank_of_solid (isSolid_of_opensPrimary hc) s'

theorem PrimaryText.prefixed_eq_none {s t : List Char} {x : Operand} (h : PrimaryText s x t) (operand : Reader Operand) :
    prefixed operand s = none := by
  obtain ⟨c, s', rfl, hc⟩ := h.opens
  have hnot := notMem_of_opensPrimary hc
  have hop : unaryOperator (c :: s') = none := by
    unfold unaryOperator
    split <;> simp_all
  unfold prefixed
  rw [hop]

/-- An operand that ends with a parenthesis of its own: nothing behind it could belong to it. -/
def endsItself : Operand → Bool
  | .paren _ => true
  | .call _ _ => true
  | _ => false

theorem primary_paren {expr : Reader Expr} {s s' t : List Char} {e : Expr} (inner : expr (skipBlank s) = some (e, s'))
    (closes : BlankText s' (')' :: t)) : primary expr ('(' :: s) = some (.paren e, t) := by
  refine orElse_of_some ?_
  simp only [parenthesised, inner, Grammar.skipBlank_eq closes (by decide)]

theorem nameEnds_opening (s : List Char) : NameEnds ('(' :: s) := fun c hc => by
  cases hc
  decide

theorem callOperand_of_nameText {expr : Reader Expr} {s s' v t : List Char} {f : String} {args : List Expr}
    (name : NameText s f ('(' :: s')) (read : arguments expr (skipBlank s') = (args, v)) (closes : skipBlank v = ')' :: t) :
    callOperand expr s = some (.call f args, t) := by
  simp only [callOperand, name_of_nameText name (nameEnds_opening s'), read, closes]

theorem primary_call {expr : Reader Expr} {s s' v t : List Char} {f : String} {args : List Expr}
    (name : NameText s f ('(' :: s')) (read : arguments expr (skipBlank s') = (args, v)) (closes : skipBlank v = ')' :: t) :
    primary expr s = some (.call f args, t) := by
  unfold primary
  rw [orElse_of_none (parenthesised_eq_none name.opens _),
    orElse_of_none (by rw [literal_of_nameText name (nameEnds_opening s').noneAhead]; rfl)]
  exact orElse_of_some (callOperand_of_nameText name read closes)

mutual

theorem OperandText.read : ∀ {s t : List Char} {x : Operand}, OperandText s x t → Stops t → ∀ {n : Nat},
    s.length < n + t.length → operand n s = some (x, t)
  | s, t, _, @OperandText.unary _ s₁ s₂ s₃ _ op x blank sign blank' inner, stops, n, bound => by
    have := blank.length_le
    have := sign.length_lt
    have := blank'.length_le
    have := inner.length_lt
    cases n with
    | zero => omega
    | succ n =>
      have hinner := inner.read stops (n := n) (by omega)
      rw [operand_succ, skipBlank_of_blankText blank, sign.skipBlank_eq]
      refine orElse_of_some ?_
      unfold prefixed
      rw [unaryOperator_of_unaryText sign (blank'.head?_ne inner.head?_ne)]
      dsimp only
      rw [operand_congr ((skipBlank_skipBlank s₂).trans (skipBlank_of_blankText blank')), hinner]
      rfl
  | s, t, x, @OperandText.primary _ s₁ _ _ blank inner, stops, n, bound => by
    have := blank.length_le
    have := inner.length_lt
    cases n with
    | zero => omega
    | succ n =>
      rw [operand_succ, skipBlank_of_blankText blank, inner.skipBlank_eq, orElse_of_none (inner.prefixed_eq_none _)]
      exact inner.read (fun _ => stops) (by omega)

theorem PrimaryText.read : ∀ {s t : List Char} {x : Operand}, PrimaryText s x t → (endsItself x = false → Stops t) →
    ∀ {n : Nat}, s.length < n + 1 + t.length → primary (chain (operand n)) s = some (x, t)
  | _, t, _, @PrimaryText.paren s s₁ s₂ _ e blank inner closes, _, n, bound => by
    have := blank.length_le
    have := closes.length_le
    simp only [List.length_cons] at *
    have hinner := inner.read (.inr ⟨t, .inl closes⟩) (n := n) (by omega)
    exact primary_paren ((chain_congr ((skipBlank_skipBlank s).trans (skipBlank_of_blankText blank)) n).trans hinner) closes
  | s, t, _, .lit (l := l) literal, stops, n, bound => by
    unfold primary
    rw [orElse_of_none (parenthesised_eq_none literal.opens _)]
    refine orElse_of_some ?_
    rw [literal_of_literalText literal (stops rfl)]
    rfl
  | s, t, _, @PrimaryText.call _ s₁ s₂ s₃ _ f args name blank arguments closes, _, n, bound => by
    have := name.length_lt
    have := blank.length_le
    have := closes.length_le
    simp only [List.length_cons] at *
    obtain ⟨v, hargs, hclose⟩ := arguments.read closes (n := n) (by omega)
    rw [← skipBlank_of_blankText blank] at hargs
    exact primary_call name hargs hclose
  | s, t, _, .ident (f := f) name, stops, n, bound => by
    have stops := stops rfl
    have ends : NameEnds t := stops.noneAhead rfl
    have hname := name_of_nameText name ends
    have hcall : callOperand (chain (operand n)) s = none := by
      unfold callOperand
      rw [hname]
      split
      · rename_i heq
        cases heq
        exact absurd (stops '(' rfl) (by decide)
      · rfl
    unfold primary
    rw [orElse_of_none (parenthesised_eq_none name.opens _), orElse_of_none (by rw [literal_of_nameText name ends.noneAhead]; rfl),
      orElse_of_none hcall, hname]
    rfl

theorem ExprText.read : ∀ {s t : List Char} {e : Expr}, ExprText s e t → Ends t → ∀ {n : Nat},
    s.length < n + t.length → chain (operand n) s = some (e, t)
  | s, t, _, @ExprText.mk _ s₁ _ _ _ first rest, ends, n, bound => by
    have := rest.length_le
    have hfirst := first.read (rest.stops ends.stops) (n := n) (by omega)
    have hrest := rest.read ends (n := n) (by have := first.length_lt; omega)
    unfold chain
    rw [hfirst]
    dsimp only
    rw [hrest]

theorem LinksText.read : ∀ {s t : List Char} {ls : List Link}, LinksText s ls t → Ends t → ∀ {n : Nat},
    s.length < n + t.length → many (link (operand n)) s = (ls, t)
  | s, _, _, .nil _, ends, n, _ => many_of_none (ends.link_eq_none _)
  | s, t, _, @LinksText.cons _ s₁ s₂ s₃ s₄ _ op x _ blank operator blank' inner rest, ends, n, bound => by
    have := blank.length_le
    have := operator.length_lt
    have := blank'.length_le
    have := inner.length_lt
    have := rest.length_le
    have hinner := inner.read (rest.stops ends.stops) (n := n) (by omega)
    have hrest := rest.read ends (n := n) (by omega)
    have hlink : link (operand n) s = some (⟨op, x⟩, s₄) :=
      link_of_binaryText (by rwa [skipBlank_of_blankText blank, operator.skipBlank_eq])
        ((operand_congr (skipBlank_of_blankText blank') n).trans hinner)
    exact many_of_some hlink (by omega) hrest

theorem ArgumentsText.read : ∀ {s u t : List Char} {es : List Expr}, ArgumentsText s es u → BlankText u (')' :: t) →
    ∀ {n : Nat}, s.length < n + u.length →
      ∃ v, arguments (chain (operand n)) (skipBlank s) = (es, v) ∧ skipBlank v = ')' :: t
  | s, _, t, _, .none _, closes, n, _ => by
    have hclose := Grammar.skipBlank_eq closes (by decide)
    refine ⟨skipBlank s, ?_, (skipBlank_skipBlank s).trans hclose⟩
    unfold arguments
    rw [chain_closing ((skipBlank_skipBlank s).trans hclose)]
  | s, u, t, _, @ArgumentsText.some _ s₁ _ _ _ first rest, closes, n, bound => by
    have := rest.length_le
    have := first.length_lt
    have hclose := Grammar.skipBlank_eq closes (by decide)
    have ends : Ends u := .inr ⟨t, .inl closes⟩
    have last : nextArgument (chain (operand n)) u = none := by
      simp only [nextArgument, hclose]
      rfl
    have hfirst := (chain_congr (skipBlank_skipBlank s) n).trans (first.read (rest.ends ends) (by omega))
    refine ⟨u, ?_, hclose⟩
    simp only [arguments, hfirst, rest.read ends last (by omega), hclose]
    rfl
  | s, u, t, _, @ArgumentsText.comma _ s₁ s₂ _ _ _ first rest comma, closes, n, bound => by
    have := rest.length_le
    have := first.length_lt
    have := comma.length_le
    simp only [List.length_cons] at *
    have hcomma := Grammar.skipBlank_eq comma (by decide)
    have hclose := Grammar.skipBlank_eq closes (by decide)
    have ends : Ends s₂ := .inr ⟨u, .inr (.inl comma)⟩
    have last : nextArgument (chain (operand n)) s₂ = none := by
      simp only [nextArgument, hcomma]
      exact chain_closing ((skipBlank_skipBlank u).trans hclose) n
    have hfirst := (chain_congr (skipBlank_skipBlank s) n).trans (first.read (rest.ends ends) (by omega))
    refine ⟨u, ?_, hclose⟩
    simp only [arguments, hfirst, rest.read ends last (by omega), hcomma]

theorem MoreText.read : ∀ {s t : List Char} {es : List Expr}, MoreText s es t → Ends t → ∀ {n : Nat},
    nextArgument (chain (operand n)) t = none → s.length < n + t.length →
      many (nextArgument (chain (operand n))) s = (es, t)
  | _, _, _, .nil _, _, _, last, _ => many_of_none last
  | s, t, _, @MoreText.cons _ s₁ s₂ s₃ _ e _ comma blank argument rest, ends, n, last, bound => by
    have := comma.length_le
    have := blank.length_le
    have := argument.length_lt
    have := rest.length_le
    simp only [List.length_cons] at *
    have hargument := argument.read (rest.ends ends) (n := n) (by omega)
    have hnext : nextArgument (chain (operand n)) s = some (e, s₃) := by
      unfold nextArgument
      rw [Grammar.skipBlank_eq comma (by decide)]
      exact (chain_congr ((skipBlank_skipBlank s₁).trans (skipBlank_of_blankText blank)) n).trans hargument
    exact many_of_some hnext (by omega) (rest.read ends last (by omega))

end

/-! ### Statements -/

theorem operand_nil (n : Nat) : operand n [] = none := by
  cases n with
  | zero => rfl
  | succ n =>
    rw [operand_succ, skipBlank]
    rfl

theorem statement_nil (n : Nat) : statement n [] = none := by
  simp [statement, expression, chain, skipBlank, operand_nil]

theorem chain_eq_some {operand : Reader Operand} {s t : List Char} {e : Expr} :
    chain operand s = some (e, t) ↔ ∃ s', operand s = some (e.first, s') ∧ many (link operand) s' = (e.rest, t) := by
  unfold chain
  constructor
  · intro h
    split at h
    · cases h
    · rename_i first s' hfirst
      cases h
      exact ⟨s', hfirst, rfl⟩
  · rintro ⟨s', hfirst, hrest⟩
    simp only [hfirst, hrest]
    cases e
    rfl

theorem statement_eq_some {n : Nat} {s t : List Char} {e : Expr} :
    statement n s = some (e, t) ↔ ∃ s', chain (operand n) s = some (e, s') ∧
      (skipBlank s' = ';' :: t ∨ (∀ t', t ≠ ';' :: t') ∧ skipBlank s' = t) := by
  unfold statement expression
  rw [chain_congr (skipBlank_skipBlank s)]
  constructor
  · intro h
    split at h
    · cases h
    · rename_i e' s' hread
      split at h
      · rename_i hskip
        cases h
        exact ⟨s', hread, .inl hskip⟩
      · rename_i hnot
        cases h
        exact ⟨s', hread, .inr ⟨hnot, rfl⟩⟩
  · rintro ⟨s', hread, hskip | ⟨hnot, rfl⟩⟩
    · rw [hread]
      dsimp only
      rw [hskip]
      rfl
    · rw [hread]
      dsimp only
      split
      · rename_i hskip
        exact absurd hskip (hnot _)
      · rfl

theorem statement_congr {s s' : List Char} (h : skipBlank s = skipBlank s') (n : Nat) : statement n s = statement n s' := by
  unfold statement
  rw [h]

end Grammar

open Grammar

theorem parseChars_eq_ok {s : List Char} {e : Expr} :
    Expr.parseChars s = .ok e ↔ ∃ rest, expression (nestingBound s) (skipBlank s) = some (e, rest) ∧ skipBlank rest = [] := by
  unfold Expr.parseChars
  constructor
  · intro h
    split at h
    · cases h
    · rename_i e' rest hread
      cases hrest : skipBlank rest with
      | nil =>
        rw [hrest] at h
        cases h
        exact ⟨rest, hread, hrest⟩
      | cons c t =>
        rw [hrest] at h
        cases h
  · rintro ⟨rest, hread, hrest⟩
    rw [hread]
    dsimp only
    rw [hrest]
    rfl

theorem Expr.parse_of_sourceText {s : String} {e : Expr} (h : SourceText s.toList e) : Expr.parse s = .ok e := by
  obtain ⟨s₁, s₂, opens, text, closes⟩ := h
  have hread : expression (nestingBound s.toList) (skipBlank s.toList) = some (e, s₂) := by
    have := opens.length_le
    have hstart := chain_congr ((skipBlank_skipBlank s.toList).trans (skipBlank_of_blankText opens)) (nestingBound s.toList)
    exact hstart.trans (text.read (.inl closes) (by unfold nestingBound; omega))
  have hrest : skipBlank s₂ = [] := by rw [skipBlank_of_blankText closes, skipBlank]
  exact parseChars_eq_ok.2 ⟨s₂, hread, hrest⟩

theorem Expr.sourceText_of_parse {s : String} {e : Expr} (h : Expr.parse s = .ok e) : SourceText s.toList e := by
  obtain ⟨rest, hread, hrest⟩ := parseChars_eq_ok.1 h
  have closes := blankText_skipBlank rest
  rw [hrest] at closes
  exact ⟨_, rest, blankText_skipBlank _, exprText_of_chain operandText_of_operand hread, closes⟩

/-- **The parser accepts exactly its grammar**: a text reads as an expression if and only if the grammar derives it as that
expression, and it is derivable as no other. -/
theorem parse_iff_sourceText (s : String) (e : Expr) :
    (Expr.parse s = .ok e ↔ SourceText s.toList e) ∧ ∀ e', SourceText s.toList e → SourceText s.toList e' → e = e' := by
  refine ⟨⟨Expr.sourceText_of_parse, Expr.parse_of_sourceText⟩, fun e' h h' => ?_⟩
  have heq := (Expr.parse_of_sourceText h).symm.trans (Expr.parse_of_sourceText h')
  exact Except.ok.inj heq

end ChainCalc
