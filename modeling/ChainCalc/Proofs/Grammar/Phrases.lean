import Mathlib.Algebra.Group.Nat.Defs
import ChainCalc.Expr.Parser
/-!
# Phrases — the grammar of expressions as derivations

`ExprText s e t` says that the text `s` is a phrase for `e` with `t` behind it, and so for every rule.  Nothing is said
here about which alternative is tried first or how much a repetition takes: a name, a number or a chain may end anywhere.
Only a comment looks at what is behind it, since it may end with the text.
-/
namespace ChainCalc
namespace Grammar

/-! ### Blanks -/

/-- Where a comment may end: at a line end or at the end of the text. -/
inductive LineEnd : List Char → Prop
  | text : LineEnd []
  | feed (s : List Char) : LineEnd ('\n' :: s)
  | returnFeed (s : List Char) : LineEnd ('\r' :: '\n' :: s)

/-- **Any run of spaces, tabs, carriage returns, line feeds and comments.** -/
inductive BlankText : List Char → List Char → Prop
  | none (s : List Char) : BlankText s s
  | space {c : Char} {s t : List Char} (h : isSpace c = true) (behind : BlankText s t) : BlankText (c :: s) t
  | comment {body s t : List Char} (line : ∀ c ∈ body, c ≠ '\r' ∧ c ≠ '\n') (ends : LineEnd s) (behind : BlankText s t) :
      BlankText ('#' :: (body ++ s)) t

/-! ### Operators -/

def BinaryText (s : List Char) (op : Operator) (t : List Char) : Prop :=
  op ∈ Operator.binary ∧ s = op.symbol.toList ++ t

def UnaryText (s : List Char) (op : Operator) (t : List Char) : Prop :=
  (op = .sub ∨ op = .not) ∧ s = op.symbol.toList ++ t

/-! ### Names and literals -/

/-- **A name**: letters, digits and underscores, no digit in front, and neither `true` nor `false`; one that starts with an
underscore may have three dots behind it. -/
inductive NameText : List Char → String → List Char → Prop
  | plain {c : Char} {cs t : List Char} (start : isNameStart c = true) (chars : ∀ x ∈ cs, isNameChar x = true)
      (notTrue : c :: cs ≠ "true".toList) (notFalse : c :: cs ≠ "false".toList) :
      NameText (c :: (cs ++ t)) (String.ofList (c :: cs)) t
  | dotted {cs t : List Char} (chars : ∀ x ∈ cs, isNameChar x = true) :
      NameText ('_' :: (cs ++ '.' :: '.' :: '.' :: t)) (String.ofList ('_' :: cs ++ ['.', '.', '.'])) t

structure DigitText (ds : List Char) : Prop where
  some : ds ≠ []
  digit : ∀ c ∈ ds, c.isDigit = true

inductive SignText : List Char → Bool → List Char → Prop
  | none (s : List Char) : SignText s false s
  | plus (s : List Char) : SignText ('+' :: s) false s
  | minus (s : List Char) : SignText ('-' :: s) true s

inductive ExponentText : List Char → Int → List Char → Prop
  | mk {c : Char} {s ds t : List Char} {negative : Bool} (letter : c = 'e' ∨ c = 'E') (sign : SignText s negative (ds ++ t))
      (digits : DigitText ds) :
      ExponentText (c :: s) (if negative then -(Decimal.natOfDigits ds : Int) else Decimal.natOfDigits ds) t

inductive QuotedText (quote : Char) : List Char → List Char → Prop
  | nil : QuotedText quote [] []
  | char {c : Char} {body cs : List Char} (notQuote : c ≠ quote) (notEscape : c ≠ '\\') (behind : QuotedText quote body cs) :
      QuotedText quote (c :: body) (c :: cs)
  | escape (c : Char) {body cs : List Char} (behind : QuotedText quote body cs) :
      QuotedText quote ('\\' :: c :: body) (unescape c :: cs)

/-- **A literal.** -/
inductive LiteralText : List Char → Literal → List Char → Prop
  | trueWord (t : List Char) : LiteralText ("true".toList ++ t) (.bool true) t
  | falseWord (t : List Char) : LiteralText ("false".toList ++ t) (.bool false) t
  | int {ds t : List Char} (digits : DigitText ds) (fits : Decimal.natOfDigits ds < 2 ^ 63) :
      LiteralText (ds ++ t) (.int (Int64.ofNat (Decimal.natOfDigits ds))) t
  | point {whole part t : List Char} (digits : DigitText whole) (digits' : DigitText part) :
      LiteralText (whole ++ '.' :: (part ++ t)) (.float (Decimal.ofParts false whole part 0)) t
  | pointExponent {whole part s t : List Char} {e : Int} (digits : DigitText whole) (digits' : DigitText part)
      (exponent : ExponentText s e t) :
      LiteralText (whole ++ '.' :: (part ++ s)) (.float (Decimal.ofParts false whole part e)) t
  | exponent {whole s t : List Char} {e : Int} (digits : DigitText whole) (exponent : ExponentText s e t) :
      LiteralText (whole ++ s) (.float (Decimal.ofParts false whole [] e)) t
  | string {quote : Char} {body cs t : List Char} (opens : quote = '"' ∨ quote = '\'') (contents : QuotedText quote body cs) :
      LiteralText (quote :: (body ++ quote :: t)) (.str (String.ofList cs)) t

/-! ### Operands and chains -/

mutual

/-- **An operand**: blanks, then an operator and its operand, or a primary one. -/
inductive OperandText : List Char → Operand → List Char → Prop
  | unary {s s₁ s₂ s₃ t : List Char} {op : Operator} {x : Operand} (blank : BlankText s s₁) (sign : UnaryText s₁ op s₂)
      (blank' : BlankText s₂ s₃) (operand : OperandText s₃ x t) : OperandText s (.unary op x) t
  | primary {s s₁ t : List Char} {x : Operand} (blank : BlankText s s₁) (primary : PrimaryText s₁ x t) : OperandText s x t

inductive PrimaryText : List Char → Operand → List Char → Prop
  | paren {s s₁ s₂ t : List Char} {e : Expr} (blank : BlankText s s₁) (inner : ExprText s₁ e s₂)
      (closes : BlankText s₂ (')' :: t)) : PrimaryText ('(' :: s) (.paren e) t
  | lit {s t : List Char} {l : Literal} (literal : LiteralText s l t) : PrimaryText s (.lit l) t
  | call {s s₁ s₂ s₃ t : List Char} {f : String} {args : List Expr} (name : NameText s f ('(' :: s₁)) (blank : BlankText s₁ s₂)
      (arguments : ArgumentsText s₂ args s₃) (closes : BlankText s₃ (')' :: t)) : PrimaryText s (.call f args) t
  | ident {s t : List Char} {f : String} (name : NameText s f t) : PrimaryText s (.ident f) t

/-- **An expression**: operands with operators between them. -/
inductive ExprText : List Char → Expr → List Char → Prop
  | mk {s s₁ t : List Char} {x : Operand} {ls : List Link} (first : OperandText s x s₁) (rest : LinksText s₁ ls t) :
      ExprText s ⟨x, ls⟩ t

inductive LinksText : List Char → List Link → List Char → Prop
  | nil (s : List Char) : LinksText s [] s
  | cons {s s₁ s₂ s₃ s₄ t : List Char} {op : Operator} {x : Operand} {ls : List Link} (blank : BlankText s s₁)
      (operator : BinaryText s₁ op s₂) (blank' : BlankText s₂ s₃) (operand : OperandText s₃ x s₄)
      (rest : LinksText s₄ ls t) : LinksText s (⟨op, x⟩ :: ls) t

/-- The arguments of a call: none, or some with commas between them and perhaps one behind. -/
inductive ArgumentsText : List Char → List Expr → List Char → Prop
  | none (s : List Char) : ArgumentsText s [] s
  | some {s s₁ t : List Char} {e : Expr} {es : List Expr} (first : ExprText s e s₁) (rest : MoreText s₁ es t) :
      ArgumentsText s (e :: es) t
  | comma {s s₁ s₂ t : List Char} {e : Expr} {es : List Expr} (first : ExprText s e s₁) (rest : MoreText s₁ es s₂)
      (comma : BlankText s₂ (',' :: t)) : ArgumentsText s (e :: es) t

inductive MoreText : List Char → List Expr → List Char → Prop
  | nil (s : List Char) : MoreText s [] s
  | cons {s s₁ s₂ s₃ t : List Char} {e : Expr} {es : List Expr} (comma : BlankText s (',' :: s₁)) (blank : BlankText s₁ s₂)
      (argument : ExprText s₂ e s₃) (rest : MoreText s₃ es t) : MoreText s (e :: es) t

end

/-- **A text that is one expression**, with blanks around it. -/
def SourceText (s : List Char) (e : Expr) : Prop :=
  ∃ s₁ s₂, BlankText s s₁ ∧ ExprText s₁ e s₂ ∧ BlankText s₂ []

end Grammar
end ChainCalc
