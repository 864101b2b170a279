import ChainCalc.Proofs.Grammar.Printing
/-!
# Rereading — what the text of a parsed expression reads as

Every literal that the grammar derives is `Readable`: a number without a sign, but a float may be infinite.  An infinite
float has no literal; it is written `inf`, which reads as a name.  `Expr.reread` puts that name in its place, and
`parse_text_reread` says that this is what the text reads as.  So an expression that was parsed survives printing exactly
if its floats are finite.
-/
namespace ChainCalc

open Grammar

/-! ### What the parser can produce -/

def Literal.Readable : Literal → Prop
  | .bool _ => True
  | .int n => 0 ≤ n.toInt
  | .float x => x.toBits.toNat ≤ Dyadic.infinityBits
  | .str _ => True

def Literal.IsFinite : Literal → Prop
  | .float x => x.isFinite = true
  | _ => True

namespace Grammar

theorem NameText.isName {s t : List Char} {f : String} (h : NameText s f t) : IsName f := by
  cases h with
  | plain start chars notTrue notFalse => simpa [IsName] using NameText.plain (t := []) start chars notTrue notFalse
  | dotted chars => simpa [IsName] using NameText.dotted (t := []) chars

theorem LiteralText.readable {s t : List Char} {l : Literal} (h : LiteralText s l t) : l.Readable := by
  cases h with
  | int digits fits =>
    rw [Literal.Readable, Int64.toInt_ofNat_of_lt fits]
    exact Int.natCast_nonneg _
  | point => exact Decimal.toFloat_bits _ _
  | pointExponent => exact Decimal.toFloat_bits _ _
  | exponent => exact Decimal.toFloat_bits _ _
  | _ => trivial

theorem ne_not_of_mem_binary {op : Operator} (h : op ∈ Operator.binary) : op ≠ .not := by
  rintro rfl
  exact absurd h (by decide)

mutual

theorem OperandText.formed : ∀ {s t : List Char} {x : Operand}, OperandText s x t → x.Formed Literal.Readable
  | _, _, _, .unary _ sign _ operand => ⟨sign.1, operand.formed⟩
  | _, _, _, .primary _ primary => primary.formed

theorem PrimaryText.formed : ∀ {s t : List Char} {x : Operand}, PrimaryText s x t → x.Formed Literal.Readable
  | _, _, _, .paren _ inner _ => inner.formed
  | _, _, _, .lit literal => literal.readable
  | _, _, _, .call name _ arguments _ => ⟨name.isName, arguments.formed⟩
  | _, _, _, .ident name => name.isName

theorem ExprText.formed : ∀ {s t : List Char} {e : Expr}, ExprText s e t → e.Formed Literal.Readable
  | _, _, _, .mk first rest => ⟨first.formed, rest.formed⟩

theorem LinksText.formed : ∀ {s t : List Char} {ls : List Link}, LinksText s ls t → Link.AllFormed Literal.Readable ls
  | _, _, _, .nil _ => trivial
  | _, _, _, .cons _ operator _ operand rest => ⟨ne_not_of_mem_binary operator.1, operand.formed, rest.formed⟩

theorem ArgumentsText.formed : ∀ {s t : List Char} {es : List Expr}, ArgumentsText s es t → Expr.AllFormed Literal.Readable es
  | _, _, _, .none _ => trivial
  | _, _, _, .some first rest => ⟨first.formed, rest.formed⟩
  | _, _, _, .comma first rest _ => ⟨first.formed, rest.formed⟩

theorem MoreText.formed : ∀ {s t : List Char} {es : List Expr}, MoreText s es t → Expr.AllFormed Literal.Readable es
  | _, _, _, .nil _ => trivial
  | _, _, _, .cons _ _ argument rest => ⟨argument.formed, rest.formed⟩

end

theorem formed_of_statement {n : Nat} {s t : List Char} {e : Expr} (h : statement n s = some (e, t)) :
    e.Formed Literal.Readable := by
  obtain ⟨s', read, -⟩ := statement_eq_some.1 h
  exact (exprText_of_chain operandText_of_operand read).formed

theorem formed_of_mem_many {n : Nat} (s : List Char) : ∀ e ∈ (Reader.many (statement n) s).1, e.Formed Literal.Readable := by
  fun_induction Reader.many (statement n) s with
  | case1 s h => simp
  | case2 s e rest read shorter es final more ih =>
    rw [more] at ih
    simpa using ⟨formed_of_statement read, ih⟩
  | case3 => simp

end Grammar

/-! ### What is read back -/

mutual

/-- The operand with the name `inf` for each float that is not finite. -/
def Operand.reread : Operand → Operand
  | .lit (.float x) => if x.isFinite then .lit (.float x) else .ident "inf"
  | .lit l => .lit l
  | .ident f => .ident f
  | .call f args => .call f (Expr.rereadAll args)
  | .paren e => .paren e.reread
  | .unary op x => .unary op x.reread

def Expr.reread : Expr → Expr
  | ⟨x, ls⟩ => ⟨x.reread, Link.rereadAll ls⟩

def Link.rereadAll : List Link → List Link
  | [] => []
  | ⟨op, x⟩ :: ls => ⟨op, x.reread⟩ :: Link.rereadAll ls

def Expr.rereadAll : List Expr → List Expr
  | [] => []
  | e :: es => e.reread :: Expr.rereadAll es

end

theorem text_of_not_isFinite {x : Float} (bits : x.toBits.toNat ≤ Dyadic.infinityBits) (h : ¬ x.isFinite = true) :
    (Decimal.Layout.value.text x).toList = "inf".toList := by
  have infinite := (Dyadic.isFinite_or_infinite bits).resolve_left h
  rw [Decimal.Layout.text, infinite]
  rfl

theorem Literal.printable_of_isFinite {l : Literal} (h : l.Readable) (finite : l.IsFinite) : l.Printable := by
  cases l with
  | float x => exact ⟨finite, h.trans_lt (by decide)⟩
  | _ => exact h

mutual

theorem Operand.writtenOn_reread : ∀ {x : Operand}, x.Formed Literal.Readable → ∀ t, x.reread.writtenOn t = x.writtenOn t
  | .lit (.float x), h, t => by
    rw [Operand.reread]
    split_ifs with finite
    · rfl
    · rw [Operand.writtenOn, Operand.writtenOn, Literal.written, text_of_not_isFinite h finite]
  | .lit (.bool _), _, _ | .lit (.int _), _, _ | .lit (.str _), _, _ | .ident _, _, _ => rfl
  | .call _ _, h, _ => by rw [Operand.reread, Operand.writtenOn, Operand.writtenOn, Expr.argsWrittenOn_reread h.2]
  | .paren _, h, _ => by rw [Operand.reread, Operand.writtenOn, Operand.writtenOn, Expr.writtenOn_reread h]
  | .unary _ _, h, _ => by rw [Operand.reread, Operand.writtenOn, Operand.writtenOn, Operand.writtenOn_reread h.2]

theorem Expr.writtenOn_reread : ∀ {e : Expr}, e.Formed Literal.Readable → ∀ t, e.reread.writtenOn t = e.writtenOn t
  | ⟨_, _⟩, h, _ => by
    rw [Expr.reread, Expr.writtenOn, Expr.writtenOn, Link.allWrittenOn_reread h.2, Operand.writtenOn_reread h.1]

theorem Link.allWrittenOn_reread : ∀ {ls : List Link}, Link.AllFormed Literal.Readable ls →
    ∀ t, Link.allWrittenOn (Link.rereadAll ls) t = Link.allWrittenOn ls t
  | [], _, _ => rfl
  | ⟨_, _⟩ :: _, h, _ => by
    rw [Link.rereadAll, Link.allWrittenOn, Link.allWrittenOn, Link.allWrittenOn_reread h.2.2, Operand.writtenOn_reread h.2.1]

theorem Expr.argsWrittenOn_reread : ∀ {es : List Expr}, Expr.AllFormed Literal.Readable es →
    ∀ t, Expr.argsWrittenOn (Expr.rereadAll es) t = Expr.argsWrittenOn es t
  | [], _, _ => rfl
  | [_], h, t => Expr.writtenOn_reread h.1 t
  | e :: e' :: es, h, t => by
    have rest := Expr.argsWrittenOn_reread h.2 t
    rw [Expr.rereadAll] at rest
    rw [Expr.rereadAll, Expr.rereadAll, Expr.argsWrittenOn_cons_cons, Expr.argsWrittenOn_cons_cons, rest,
      Expr.writtenOn_reread h.1]

end

mutual

theorem Operand.formed_reread : ∀ {x : Operand}, x.Formed Literal.Readable → x.reread.Formed Literal.Printable
  | .lit (.float x), h => by
    rw [Operand.reread]
    split_ifs with finite
    · exact Literal.printable_of_isFinite h finite
    · exact (by decide : IsName "inf")
  | .lit (.bool _), h | .lit (.int _), h | .lit (.str _), h | .ident _, h => h
  | .call _ _, h => ⟨h.1, Expr.allFormed_reread h.2⟩
  | .paren _, h => Expr.formed_reread h
  | .unary _ _, h => ⟨h.1, Operand.formed_reread h.2⟩

theorem Expr.formed_reread : ∀ {e : Expr}, e.Formed Literal.Readable → e.reread.Formed Literal.Printable
  | ⟨_, _⟩, h => ⟨Operand.formed_reread h.1, Link.allFormed_reread h.2⟩

theorem Link.allFormed_reread : ∀ {ls : List Link}, Link.AllFormed Literal.Readable ls →
    Link.AllFormed Literal.Printable (Link.rereadAll ls)
  | [], _ => trivial
  | ⟨_, _⟩ :: _, h => ⟨h.1, Operand.formed_reread h.2.1, Link.allFormed_reread h.2.2⟩

theorem Expr.allFormed_reread : ∀ {es : List Expr}, Expr.AllFormed Literal.Readable es →
    Expr.AllFormed Literal.Printable (Expr.rereadAll es)
  | [], _ => trivial
  | _ :: _, h => ⟨Expr.formed_reread h.1, Expr.allFormed_reread h.2⟩

end

mutual

theorem Operand.reread_eq_iff : ∀ {x : Operand}, x.Formed Literal.Readable → (x.reread = x ↔ x.Formed Literal.IsFinite)
  | .lit (.float x), _ => by
    rw [Operand.reread]
    split_ifs with finite <;> simp [Operand.Formed, Literal.IsFinite, finite]
  | .lit (.bool _), _ | .lit (.int _), _ | .lit (.str _), _ => by simp [Operand.reread, Operand.Formed, Literal.IsFinite]
  | .ident _, h => by simpa [Operand.reread, Operand.Formed] using h
  | .call _ _, h => by simp [Operand.reread, Operand.Formed, Expr.rereadAll_eq_iff h.2, h.1]
  | .paren _, h => by simp [Operand.reread, Operand.Formed, Expr.reread_eq_iff h]
  | .unary _ _, h => by simp [Operand.reread, Operand.Formed, Operand.reread_eq_iff h.2, h.1]

theorem Expr.reread_eq_iff : ∀ {e : Expr}, e.Formed Literal.Readable → (e.reread = e ↔ e.Formed Literal.IsFinite)
  | ⟨_, _⟩, h => by simp [Expr.reread, Expr.Formed, Operand.reread_eq_iff h.1, Link.rereadAll_eq_iff h.2]

theorem Link.rereadAll_eq_iff : ∀ {ls : List Link}, Link.AllFormed Literal.Readable ls →
    (Link.rereadAll ls = ls ↔ Link.AllFormed Literal.IsFinite ls)
  | [], _ => by simp [Link.rereadAll, Link.AllFormed]
  | ⟨_, _⟩ :: _, h => by
    simp [Link.rereadAll, Link.AllFormed, Operand.reread_eq_iff h.2.1, Link.rereadAll_eq_iff h.2.2, h.1]

theorem Expr.rereadAll_eq_iff : ∀ {es : List Expr}, Expr.AllFormed Literal.Readable es →
    (Expr.rereadAll es = es ↔ Expr.AllFormed Literal.IsFinite es)
  | [], _ => by simp [Expr.rereadAll, Expr.AllFormed]
  | _ :: _, h => by simp [Expr.rereadAll, Expr.AllFormed, Expr.reread_eq_iff h.1, Expr.rereadAll_eq_iff h.2]

end

/-- **The text of a parsed expression reads as the expression with `inf` for its infinite floats.** -/
theorem Expr.parse_text_reread {e : Expr} (h : e.Formed Literal.Readable) : Expr.parse e.text = .ok e.reread := by
  have same : e.reread.text = e.text := by rw [Expr.text, Expr.text, Expr.written, Expr.written, Expr.writtenOn_reread h]
  rw [← same]
  exact Expr.parse_text (Expr.formed_reread h)

theorem Expr.parse_text_iff {e : Expr} (h : e.Formed Literal.Readable) :
    Expr.parse e.text = .ok e ↔ e.Formed Literal.IsFinite := by
  rw [Expr.parse_text_reread h, Except.ok.injEq, Expr.reread_eq_iff h]

theorem Expr.formed_of_parse {s : String} {e : Expr} (h : Expr.parse s = .ok e) : e.Formed Literal.Readable := by
  obtain ⟨_, _, _, text, _⟩ := Expr.sourceText_of_parse h
  exact text.formed

theorem Program.formed_of_parse {s : String} {es : List Expr} (h : Program.parse s = .ok es) :
    ∀ e ∈ es, e.Formed Literal.Readable := by
  have all := formed_of_mem_many (n := nestingBound s.toList) s.toList
  simp only [Program.parse, Program.parseChars, statements] at h
  cases final : skipBlank (Reader.many (statement (nestingBound s.toList)) s.toList).2 with
  | nil =>
    rw [final] at h
    cases h
    exact all
  | cons c rest =>
    rw [final] at h
    cases h

/-- **An expression that was parsed survives printing exactly if its floats are finite**, and so does each statement of a
program. -/
theorem parsed_survives_printing_iff (s : String) :
    (∀ e, Expr.parse s = .ok e → (Expr.parse e.text = .ok e ↔ e.Formed Literal.IsFinite)) ∧
      ∀ es, Program.parse s = .ok es → ∀ x ∈ es, (Expr.parse x.text = .ok x ↔ x.Formed Literal.IsFinite) :=
  ⟨fun _ h => Expr.parse_text_iff (Expr.formed_of_parse h), fun _ h x hx => Expr.parse_text_iff (Program.formed_of_parse h x hx)⟩

theorem parsed_survives_printing_iff_decimal :
    let e : Expr := ⟨.lit (.float 0.1), [⟨.add, .ident "x"⟩]⟩
    Expr.parse "0.1 + x" = .ok e ∧ Program.parse "0.1 + x; 0.1 + x" = .ok [e, e] ∧ Expr.parse e.text = .ok e := by
  intro e
  have finite : (0.1 : Float).isFinite = true ∧ (0.1 : Float).toBits.toNat < 2 ^ 63 := by decide
  have formed : e.Formed Literal.Printable := ⟨finite, by decide, (by decide : IsName "x"), trivial⟩
  have text : e.text = "0.1 + x" := by decide +kernel
  have parsed : Expr.parse "0.1 + x" = .ok e := text ▸ Expr.parse_text formed
  have program : Program.parse "0.1 + x; 0.1 + x" = .ok [e, e] := by
    have written : "0.1 + x; 0.1 + x".toList = Program.written [e, e] := by decide +kernel
    rw [Program.parse, written, Program.parseChars_written (by simp [formed])]
  have survives := (parsed_survives_printing_iff "0.1 + x; 0.1 + x").2 [e, e] program e (by simp)
  exact ⟨parsed, program, survives.mpr ⟨finite.1, by decide, (by decide : IsName "x"), trivial⟩⟩

/-- A number beyond the largest double reads as infinity, which is printed as a name. -/
theorem infinite_literal_does_not_survive :
    let e : Expr := .lit (.float (Float.ofBits 0x7FF0000000000000))
    Expr.parse "1e999" = .ok e ∧ e.text = "inf" ∧ Expr.parse e.text = .ok (.ident "inf") ∧ Expr.parse e.text ≠ .ok e := by
  intro e
  have one : DigitText ['1'] := ⟨by simp, by simp⟩
  have nines : DigitText ['9', '9', '9'] := ⟨by simp, by simp⟩
  have exponent : ExponentText ['e', '9', '9', '9'] (Decimal.natOfDigits ['9', '9', '9']) [] :=
    .mk (.inl rfl) (.none (['9', '9', '9'] ++ [])) nines
  have value : Decimal.ofParts false ['1'] [] (Decimal.natOfDigits ['9', '9', '9']) = Float.ofBits 0x7FF0000000000000 := by
    decide +kernel
  have literal := value ▸ LiteralText.exponent one exponent
  have read : Expr.parse "1e999" = .ok e :=
    Expr.parse_of_sourceText ⟨_, [], .none _, .mk (.primary (.none _) (.lit literal)) (.nil _), .none _⟩
  have text : e.text = "inf" := by decide +kernel
  have reread : e.reread = .ident "inf" := rfl
  have again : Expr.parse e.text = .ok (.ident "inf") := reread ▸ Expr.parse_text_reread (Expr.formed_of_parse read)
  refine ⟨read, text, again, fun same => ?_⟩
  rw [again] at same
  simp [e, Expr.ident, Expr.lit, Expr.ofOperand] at same

end ChainCalc
