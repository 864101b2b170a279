import ChainCalc.Expr.Printer
import ChainCalc.Proofs.Decimal.RoundTrip
import ChainCalc.Proofs.Grammar.Exact
/-!
# Printing — what is written is a phrase for what it was written from

`Expr.Formed P e` says that the names and operators of `e` are ones that the grammar has, and that its literals satisfy
`P`.  The text of such an expression derives as the expression itself, provided that the text of each literal does.  With
`Literal.Printable` literals, then, parsing undoes printing, for one expression and for a sequence of statements.
-/
namespace ChainCalc

open Grammar

/-! ### Expressions that can be written -/

def IsName (f : String) : Prop := NameText f.toList f []

theorem isName_iff {f : String} : IsName f ↔ name f.toList = some (f, []) ∧ (boolLiteral f.toList).isNone := by
  rw [Option.isNone_iff_eq_none]
  refine ⟨fun h => ⟨name_of_nameText h ?_, boolLiteral_of_nameText h ?_⟩, fun h => nameText_of_name h.1 h.2⟩
  all_goals
    intro c hc
    cases hc

instance : DecidablePred IsName := fun _ => decidable_of_iff' _ isName_iff

/-- Numbers that have a literal: integers that are not negative, and finite floats without a sign. -/
def Literal.Printable : Literal → Prop
  | .bool _ => True
  | .int n => 0 ≤ n.toInt
  | .float x => x.isFinite = true ∧ x.toBits.toNat < 2 ^ 63
  | .str _ => True

mutual

/-- Names and operators are of the grammar's form, at any depth, and every literal satisfies `P`. -/
def Operand.Formed (P : Literal → Prop) : Operand → Prop
  | .lit l => P l
  | .ident f => IsName f
  | .call f args => IsName f ∧ Expr.AllFormed P args
  | .paren e => e.Formed P
  | .unary op x => (op = .sub ∨ op = .not) ∧ x.Formed P

def Expr.Formed (P : Literal → Prop) : Expr → Prop
  | ⟨x, ls⟩ => x.Formed P ∧ Link.AllFormed P ls

def Link.AllFormed (P : Literal → Prop) : List Link → Prop
  | [] => True
  | ⟨op, x⟩ :: ls => op ≠ .not ∧ x.Formed P ∧ Link.AllFormed P ls

def Expr.AllFormed (P : Literal → Prop) : List Expr → Prop
  | [] => True
  | e :: es => e.Formed P ∧ Expr.AllFormed P es

end

namespace Grammar

/-! ### Texts of literals and names -/

theorem quotedText_escape (cs : List Char) : QuotedText '"' (cs.flatMap Literal.escape) cs := by
  induction cs with
  | nil => exact .nil
  | cons c cs ih =>
    rw [List.flatMap_cons]
    unfold Literal.escape
    split
    · exact .escape '"' ih
    · exact .escape '\\' ih
    · exact .escape 'n' ih
    · exact .escape 't' ih
    · exact .escape 'r' ih
    · exact .escape '0' ih
    · exact .char ‹_› ‹_› ih

theorem NameText.append {s : List Char} {f : String} (h : NameText s f []) (t : List Char) : NameText (s ++ t) f t := by
  cases h with
  | plain start chars notTrue notFalse => simpa using NameText.plain (t := t) start chars notTrue notFalse
  | dotted chars => simpa using NameText.dotted (t := t) chars

theorem literalText_written {l : Literal} (h : l.Printable) (t : List Char) : LiteralText (l.written ++ t) l t := by
  cases l with
  | bool b => cases b <;> constructor
  | int n =>
    obtain ⟨k, hk⟩ := Int.eq_ofNat_of_zero_le h
    have fits : k < 2 ^ 63 := by
      have := n.toInt_lt
      omega
    have same : Int64.ofNat k = n := by rw [← Int64.ofInt_toInt n, hk]; rfl
    have := LiteralText.int (t := t) (Decimal.digitText_toDigits k) (by rwa [Decimal.natOfDigits_toDigits])
    rw [Decimal.natOfDigits_toDigits, same] at this
    rwa [Literal.written, hk, show toString (k : Int) = toString k from rfl, Decimal.digits_eq]
  | float x => exact Decimal.text_literal .value h.1 h.2 t
  | str s =>
    have := LiteralText.string (t := t) (.inl rfl) (quotedText_escape s.toList)
    simpa [Literal.written] using this

/-! ### Texts of expressions -/

theorem mem_binary {op : Operator} (h : op ≠ .not) : op ∈ Operator.binary := by
  cases op <;> first | decide | exact absurd rfl h

mutual

theorem operandText_writtenOn : ∀ {x : Operand}, x.Formed Literal.Printable → ∀ t, OperandText (x.writtenOn t) x t
  | .lit _, h, t => .primary (.none _) (.lit (literalText_written h t))
  | .ident _, h, t => .primary (.none _) (.ident (h.append t))
  | .call _ _, h, _ =>
    .primary (.none _) (.call (h.1.append _) (.none _) (argumentsText_writtenOn h.2 _) (.none _))
  | .paren _, h, _ => .primary (.none _) (.paren (.none _) (exprText_writtenOn h _) (.none _))
  | .unary _ _, h, t => .unary (.none _) ⟨h.1, rfl⟩ (.none _) (operandText_writtenOn h.2 t)

theorem exprText_writtenOn : ∀ {e : Expr}, e.Formed Literal.Printable → ∀ t, ExprText (e.writtenOn t) e t
  | ⟨_, _⟩, h, t => .mk (operandText_writtenOn h.1 _) (linksText_writtenOn h.2 t)

theorem linksText_writtenOn : ∀ {ls : List Link}, Link.AllFormed Literal.Printable ls →
    ∀ t, LinksText (Link.allWrittenOn ls t) ls t
  | [], _, t => .nil t
  | ⟨_, _⟩ :: _, h, t =>
    .cons (.space rfl (.none _)) ⟨mem_binary h.1, rfl⟩ (.space rfl (.none _)) (operandText_writtenOn h.2.1 _)
      (linksText_writtenOn h.2.2 t)

theorem argumentsText_writtenOn : ∀ {es : List Expr}, Expr.AllFormed Literal.Printable es →
    ∀ t, ArgumentsText (Expr.argsWrittenOn es t) es t
  | [], _, t => .none t
  | [e], h, t => .some (exprText_writtenOn h.1 t) (.nil t)
  | _ :: _ :: _, h, t => .some (exprText_writtenOn h.1 _) (moreText_writtenOn h.2 (by simp) t)

theorem moreText_writtenOn : ∀ {es : List Expr}, Expr.AllFormed Literal.Printable es → es ≠ [] →
    ∀ t, MoreText (',' :: ' ' :: Expr.argsWrittenOn es t) es t
  | [], _, nonempty, _ => absurd rfl nonempty
  | [_], h, _, t => .cons (.none _) (.space rfl (.none _)) (exprText_writtenOn h.1 t) (.nil t)
  | _ :: _ :: _, h, _, t =>
    .cons (.none _) (.space rfl (.none _)) (exprText_writtenOn h.1 _) (moreText_writtenOn h.2 (by simp) t)

end

end Grammar

theorem Expr.argsWrittenOn_cons_cons (e e' : Expr) (es : List Expr) (t : List Char) :
    Expr.argsWrittenOn (e :: e' :: es) t = e.writtenOn (',' :: ' ' :: Expr.argsWrittenOn (e' :: es) t) := rfl

mutual

theorem Operand.writtenOn_append : ∀ (x : Operand) (s t : List Char), x.writtenOn (s ++ t) = x.writtenOn s ++ t
  | .lit _, s, t => by simp [Operand.writtenOn]
  | .ident _, s, t => by simp [Operand.writtenOn]
  | .call _ args, s, t => by
    have := Expr.argsWrittenOn_append args (')' :: s) t
    simp_all [Operand.writtenOn]
  | .paren e, s, t => by
    have := Expr.writtenOn_append e (')' :: s) t
    simp_all [Operand.writtenOn]
  | .unary _ x, s, t => by simp [Operand.writtenOn, Operand.writtenOn_append x]

theorem Expr.writtenOn_append : ∀ (e : Expr) (s t : List Char), e.writtenOn (s ++ t) = e.writtenOn s ++ t
  | ⟨x, ls⟩, s, t => by rw [Expr.writtenOn, Expr.writtenOn, Link.allWrittenOn_append ls, Operand.writtenOn_append x]

theorem Link.allWrittenOn_append : ∀ (ls : List Link) (s t : List Char),
    Link.allWrittenOn ls (s ++ t) = Link.allWrittenOn ls s ++ t
  | [], _, _ => rfl
  | ⟨_, x⟩ :: ls, s, t => by
    simp [Link.allWrittenOn, Link.allWrittenOn_append ls, Operand.writtenOn_append x]

theorem Expr.argsWrittenOn_append : ∀ (es : List Expr) (s t : List Char),
    Expr.argsWrittenOn es (s ++ t) = Expr.argsWrittenOn es s ++ t
  | [], _, _ => rfl
  | [e], s, t => by rw [Expr.argsWrittenOn, Expr.argsWrittenOn, Expr.writtenOn_append e]
  | e :: e' :: es, s, t => by
    rw [Expr.argsWrittenOn_cons_cons, Expr.argsWrittenOn_cons_cons, Expr.argsWrittenOn_append (e' :: es)]
    exact Expr.writtenOn_append e (',' :: ' ' :: Expr.argsWrittenOn (e' :: es) s) t

end

theorem Expr.written_append (e : Expr) (t : List Char) : e.written ++ t = e.writtenOn t := (e.writtenOn_append [] t).symm

/-! ### Statements -/

theorem statement_last {n : Nat} {s s₁ : List Char} {e : Expr} (blank : BlankText s s₁) (text : ExprText s₁ e [])
    (bound : s.length < n) : statement n s = some (e, []) := by
  have := blank.length_le
  have read := text.read (n := n) (.inl (.none [])) (by simp; omega)
  exact statement_eq_some.2 ⟨[], (chain_congr (skipBlank_of_blankText blank) n).trans read, .inr ⟨nofun, by rw [skipBlank]⟩⟩

theorem statement_next {n : Nat} {s s₁ t : List Char} {e : Expr} (blank : BlankText s s₁) (text : ExprText s₁ e (';' :: t))
    (bound : s.length < n) : statement n s = some (e, t) := by
  have := blank.length_le
  have read := text.read (n := n) (.inr ⟨t, .inr (.inr (.none _))⟩) (by simp; omega)
  have solid : skipBlank (';' :: t) = ';' :: t := skipBlank_of_solid (by decide) t
  exact statement_eq_some.2 ⟨_, (chain_congr (skipBlank_of_blankText blank) n).trans read, .inl solid⟩

def Program.written (es : List Expr) : List Char := [';', ' '].intercalate (es.map Expr.written)

theorem Program.written_cons_cons (e e' : Expr) (es : List Expr) :
    Program.written (e :: e' :: es) = e.writtenOn (';' :: ' ' :: Program.written (e' :: es)) := by
  simp [Program.written, List.intercalate_cons_cons, ← Expr.written_append]

theorem many_statement {n : Nat} : ∀ {e : Expr} {es : List Expr} {s : List Char}, (∀ x ∈ e :: es, x.Formed Literal.Printable) →
    BlankText s (Program.written (e :: es)) → s.length < n → Reader.many (statement n) s = (e :: es, [])
  | e, [], s, h, blank, bound => by
    have text : ExprText (Program.written [e]) e [] := by
      simpa [Program.written, Expr.written] using exprText_writtenOn (h e (by simp)) []
    refine many_of_some (statement_last blank text bound) ?_ (many_of_none (statement_nil n))
    exact text.length_lt.trans_le blank.length_le
  | e, e' :: es, s, h, blank, bound => by
    rw [Program.written_cons_cons] at blank
    have text := exprText_writtenOn (h e (by simp)) (';' :: ' ' :: Program.written (e' :: es))
    have := blank.length_le
    have := text.length_lt
    simp only [List.length_cons] at this
    have space : BlankText (' ' :: Program.written (e' :: es)) (Program.written (e' :: es)) := .space rfl (.none _)
    have rest := many_statement (n := n) (fun x hx => h x (List.mem_cons_of_mem e hx)) space
      (by simp only [List.length_cons]; omega)
    exact many_of_some (statement_next blank text bound) (by simp only [List.length_cons]; omega) rest

/-! ### Print, then parse -/

theorem Expr.parse_text {e : Expr} (h : e.Formed Literal.Printable) : Expr.parse e.text = .ok e := by
  apply Expr.parse_of_sourceText
  rw [Expr.text, String.toList_ofList]
  exact ⟨_, [], .none _, exprText_writtenOn h [], .none _⟩

theorem Program.parseChars_written {es : List Expr} (h : ∀ e ∈ es, e.Formed Literal.Printable) :
    Program.parseChars (Program.written es) = .ok es := by
  have read : Reader.many (statement (nestingBound (Program.written es))) (Program.written es) = (es, []) := by
    cases es with
    | nil => exact many_of_none (statement_nil _)
    | cons e es => exact many_statement h (.none _) (Nat.lt_succ_self _)
  simp [Program.parseChars, statements, read, skipBlank, complete]

/-- **Parsing undoes printing**: the text of an expression whose numbers can be written reads as that expression, and the
texts of such expressions, with semicolons between them, read as their list. -/
theorem parse_undoes_printing :
    (∀ e : Expr, e.Formed Literal.Printable → Expr.parse e.text = .ok e) ∧
      ∀ es : List Expr, (∀ e ∈ es, e.Formed Literal.Printable) → Program.parse ("; ".intercalate (es.map Expr.text)) = .ok es := by
  refine ⟨fun e h => e.parse_text h, fun es h => ?_⟩
  have written : ("; ".intercalate (es.map Expr.text)).toList = Program.written es := by
    simp [String.toList_intercalate, Program.written, Expr.text, Function.comp_def]
  rw [Program.parse, written, Program.parseChars_written h]

theorem parse_undoes_printing_mixed :
    let e : Expr := ⟨.unary .not (.unary .sub (.ident "_x...")),
      [⟨.ne, .call "f" [⟨.lit (.float 0.1), []⟩, ⟨.paren ⟨.lit (.int 12), [⟨.sub, .unary .sub (.lit (.float 2.5e20))⟩]⟩, []⟩]⟩]⟩
    let e' : Expr := ⟨.lit (.str "a\"\n\x00"), [⟨.or, .lit (.bool true)⟩]⟩
    e.text = "!-_x... != f(0.1, (12 - -2.5e20))" ∧ e'.text = "\"a\\\"\\n\\0\" || true" ∧ Expr.parse e.text = .ok e ∧
      Program.parse ("; ".intercalate ([e, e'].map Expr.text)) = .ok [e, e'] := by
  intro e e'
  have he : e.Formed Literal.Printable := by
    have names : IsName "_x..." ∧ IsName "f" := by decide
    have floats : (0.1 : Float).isFinite ∧ (0.1 : Float).toBits.toNat < 2 ^ 63 ∧ (2.5e20 : Float).isFinite ∧
        (2.5e20 : Float).toBits.toNat < 2 ^ 63 := by decide
    have int : 0 ≤ (12 : Int64).toInt := by decide
    exact ⟨⟨.inr rfl, .inl rfl, names.1⟩, by decide, ⟨names.2, ⟨⟨floats.1, floats.2.1⟩, trivial⟩,
      ⟨⟨int, by decide, ⟨.inl rfl, floats.2.2⟩, trivial⟩, trivial⟩, trivial⟩, trivial⟩
  have he' : e'.Formed Literal.Printable := ⟨trivial, by decide, trivial, trivial⟩
  refine ⟨?_, ?_, parse_undoes_printing.1 e he, parse_undoes_printing.2 [e, e'] (by simp [he, he'])⟩
  · decide +kernel
  · decide +kernel

end ChainCalc
