import Mathlib.Data.List.DropRight
import ChainCalc.Source
import ChainCalc.Proofs.Grammar.Cutting
/-!
# Where reading stops — an error behind a text that reads well

A text that goes on behind what could be read is refused at its first character that is no blank.  What stands in front of
that character is a text of its own: the chains and statements read there are read again when the rest is cut off
(`chain_cut`, `statement_cut`, `statements_cut`), so the error points behind a text that is accepted
(`trailing_input_follows_accepted_text`).
-/
namespace ChainCalc
namespace Grammar

open Reader

variable {w u r : List Char}

/-! ### Repetitions -/

section

variable {α : Type} {p q : Reader α}

theorem exists_append_of_many (taken : ∀ {s t a}, p s = some (a, t) → ∃ v, s = v ++ t) :
    ∀ {as : List α} {s t : List Char}, many p s = (as, t) → ∃ v, s = v ++ t
  | [], s, _, h => ⟨[], (many_eq_nil h).symm⟩
  | a :: as, s, t, h => by
    obtain ⟨rest, hp, -, hmany⟩ := many_eq_cons h
    obtain ⟨v, rfl⟩ := taken hp
    obtain ⟨v', rfl⟩ := exists_append_of_many taken hmany
    exact ⟨v ++ v', by simp⟩

theorem eq_none_of_many (shorter : ∀ {s t a}, p s = some (a, t) → t.length < s.length) :
    ∀ {as : List α} {s t : List Char}, many p s = (as, t) → p t = none
  | [], s, t, h => by
    obtain rfl := many_eq_nil h
    rw [many] at h
    split at h
    · assumption
    · rename_i hp
      rw [if_pos (shorter hp)] at h
      cases h
  | a :: as, s, t, h => by
    obtain ⟨rest, -, -, hmany⟩ := many_eq_cons h
    exact eq_none_of_many shorter hmany

/-- **A repetition may be cut behind its last phrase** if each phrase may be cut that is followed by one more or by the
end `D`, and nothing can be read at that end. -/
theorem many_cut {D : List Char → Prop} {b : Nat} (taken : ∀ {s t a}, p s = some (a, t) → ∃ v, s = v ++ t)
    (step : ∀ {w u a}, w.length ≤ b → p (w ++ r) = some (a, u ++ r) → p (u ++ r) ≠ none ∨ D u → q w = some (a, u))
    (stop : ∀ {u}, D u → q u = none) : ∀ {as : List α} {w u : List Char}, w.length ≤ b →
      many p (w ++ r) = (as, u ++ r) → D u → many q w = (as, u)
  | [], w, u, _, h, hD => by
    obtain rfl := List.append_cancel_right (many_eq_nil h)
    exact many_of_none (stop hD)
  | a :: as, w, u, bound, h, hD => by
    obtain ⟨rest, hp, hlt, hmany⟩ := many_eq_cons h
    obtain ⟨v, rfl⟩ : ∃ v, rest = v ++ r := by
      obtain ⟨v, rfl⟩ := exists_append_of_many taken hmany
      exact ⟨v ++ u, by simp⟩
    simp only [List.length_append] at hlt
    have next : p (v ++ r) ≠ none ∨ D v := by
      cases as with
      | nil =>
        obtain rfl := List.append_cancel_right (many_eq_nil hmany)
        exact .inr hD
      | cons a' as =>
        obtain ⟨rest', hp', -⟩ := many_eq_cons hmany
        exact .inl (by rw [hp']; simp)
    exact many_of_some (step bound hp next) (by omega) (many_cut taken step stop (by omega) hmany hD)

end

/-! ### Chains -/

theorem exists_append_of_link {n : Nat} {s t : List Char} {l : Link} (h : link (operand n) s = some (l, t)) :
    ∃ v, s = v ++ t := by
  obtain ⟨op, s', x, rfl, operator, hx⟩ := exists_of_link h
  have text := LinksText.cons (blankText_skipBlank s) operator (blankText_skipBlank s') (operandText_of_operand hx) (.nil t)
  obtain ⟨v, hv, -⟩ := text.moved
  exact ⟨v, hv⟩

theorem length_lt_of_link {n : Nat} {s t : List Char} {l : Link} (h : link (operand n) s = some (l, t)) :
    t.length < s.length := by
  obtain ⟨op, s', x, rfl, operator, hx⟩ := exists_of_link h
  have := (blankText_skipBlank s).length_le
  have := operator.length_lt
  have := (blankText_skipBlank s').length_le
  have := (operandText_of_operand hx).length_lt
  omega

theorem link_eq_none_of_chain {n : Nat} {s t : List Char} {e : Expr} (h : chain (operand n) s = some (e, t)) :
    link (operand n) t = none := by
  obtain ⟨s', -, hrest⟩ := chain_eq_some.1 h
  exact eq_none_of_many length_lt_of_link hrest

/-- **A chain is read again when the rest is cut off**, provided that no link begins in what it leaves. -/
theorem chain_cut {n m : Nat} {e : Expr} (h : chain (operand n) (w ++ r) = some (e, u ++ r)) (bound : (w ++ r).length < n)
    (bound' : w.length < m) (stop : link (operand m) u = none) : chain (operand m) w = some (e, u) := by
  obtain ⟨s, hfirst, hrest⟩ := chain_eq_some.1 h
  obtain ⟨v, rfl⟩ : ∃ v, s = v ++ r := by
    obtain ⟨v, rfl⟩ := exists_append_of_many exists_append_of_link hrest
    exact ⟨v ++ u, by simp⟩
  have hlen := (operandText_of_operand hfirst).length_lt
  simp only [List.length_append] at hlen bound
  refine chain_eq_some.2 ⟨v, operand_cut hfirst (by simpa using bound) bound', ?_⟩
  have step : ∀ {w u : List Char} {l : Link}, w.length ≤ v.length → link (operand n) (w ++ r) = some (l, u ++ r) →
      link (operand n) (u ++ r) ≠ none ∨ link (operand m) u = none → link (operand m) w = some (l, u) :=
    fun hw hl _ => link_cut hl (by simp only [List.length_append]; omega) (by omega)
  exact many_cut exists_append_of_link step id (Nat.le_refl _) hrest stop

/-! ### Statements -/

theorem exists_append_of_statement {n : Nat} {s t : List Char} {e : Expr} (h : statement n s = some (e, t)) :
    ∃ v, s = v ++ t := by
  obtain ⟨s', hread, hskip⟩ := statement_eq_some.1 h
  obtain ⟨v, rfl, -⟩ := (exprText_of_chain operandText_of_operand hread).moved
  obtain ⟨b, hb⟩ := (blankText_skipBlank s').exists_append
  obtain hskip | ⟨-, hskip⟩ := hskip
  · exact ⟨v ++ (b ++ [';']), by rw [hb, hskip]; simp⟩
  · exact ⟨v ++ b, by rw [hb, hskip]; simp⟩

theorem length_lt_of_statement {n : Nat} {s t : List Char} {e : Expr} (h : statement n s = some (e, t)) :
    t.length < s.length := by
  obtain ⟨s', hread, hskip⟩ := statement_eq_some.1 h
  have := (exprText_of_chain operandText_of_operand hread).length_lt
  have hlen := (blankText_skipBlank s').length_le
  obtain hskip | ⟨-, hskip⟩ := hskip
  · rw [hskip, List.length_cons] at hlen
    omega
  · rw [hskip] at hlen
    omega

theorem exists_solid_of_operand {n : Nat} {s t : List Char} {x : Operand} (h : operand n s = some (x, t)) :
    ∃ c s', skipBlank s = c :: s' ∧ isSolid c = true := by
  cases operandText_of_operand h with
  | unary blank sign _ _ =>
    rw [skipBlank_of_blankText blank, sign.skipBlank_eq]
    obtain ⟨rfl | rfl, rfl⟩ := sign
    · exact ⟨'-', _, rfl, by decide⟩
    · exact ⟨'!', _, rfl, by decide⟩
  | primary blank primary =>
    obtain ⟨c, s', hs, hc⟩ := primary.opens
    exact ⟨c, s', by rw [skipBlank_of_blankText blank, primary.skipBlank_eq, hs], isSolid_of_opensPrimary hc⟩

theorem exists_operand_of_statement {n : Nat} {s : List Char} (h : statement n s ≠ none) :
    ∃ x t, operand n s = some (x, t) := by
  obtain ⟨⟨e, t⟩, h⟩ := Option.ne_none_iff_exists'.1 h
  obtain ⟨s', hread, -⟩ := statement_eq_some.1 h
  obtain ⟨s'', hfirst, -⟩ := chain_eq_some.1 hread
  exact ⟨_, _, hfirst⟩

theorem skipBlank_cut_all (h : skipBlank (w ++ r) = r) (ahead : NoneAhead isSpace r) : skipBlank w = [] := by
  have blank := blankText_skipBlank (w ++ r)
  rw [h] at blank
  obtain ⟨v, hv, alone⟩ := blank.cut ahead
  obtain rfl := List.append_cancel_right hv
  rw [skipBlank_of_blankText alone, skipBlank]

theorem skipBlank_cut_of_operand {n : Nat} {v t : List Char} {x : Operand} (next : operand n (u ++ r) = some (x, t))
    (nonempty : u ≠ []) (h : skipBlank (v ++ r) = u ++ r) : skipBlank v = u := by
  obtain ⟨c, s, hs, solid⟩ := exists_solid_of_operand next
  rw [← h, skipBlank_skipBlank, h] at hs
  obtain ⟨d, u, rfl⟩ := List.exists_cons_of_ne_nil nonempty
  obtain rfl : d = c := (List.cons.inj hs).1
  exact skipBlank_cut h solid

theorem link_cut_none {n : Nat} {v t : List Char} {x : Operand} (next : operand n (skipBlank v ++ r) = some (x, t))
    (bound : (skipBlank v ++ r).length < n) (nolink : link (operand n) (skipBlank v ++ r) = none) (q : Reader Operand) :
    link q v = none := by
  by_contra hsome
  obtain ⟨⟨l, t'⟩, hl⟩ := Option.ne_none_iff_exists'.1 hsome
  obtain ⟨op, s, _, -, ⟨hop, hs⟩, -⟩ := exists_of_link hl
  have operator : BinaryText (skipBlank v ++ r) op (s ++ r) := ⟨hop, by rw [hs, List.append_assoc]⟩
  exact link_ne_none_of_operand operator next bound nolink

/-- What ends a statement behind its chain ends it there when the rest is cut off: a semicolon, the next statement, or
nothing more that could be read. -/
theorem statementEnd_cut {n : Nat} {v : List Char} (ahead : NoneAhead isSpace r) (stuck : statement n r = none)
    (nolink : link (operand n) (v ++ r) = none) (bound : (v ++ r).length < n)
    (ends : skipBlank (v ++ r) = ';' :: (u ++ r) ∨ (∀ t, u ++ r ≠ ';' :: t) ∧ skipBlank (v ++ r) = u ++ r)
    (next : statement n (u ++ r) ≠ none ∨ skipBlank (u ++ r) = r) (q : Reader Operand) :
    (skipBlank v = ';' :: u ∨ (∀ t, u ≠ ';' :: t) ∧ skipBlank v = u) ∧ link q v = none := by
  obtain hskip | ⟨hnot, hskip⟩ := ends
  · have hv := skipBlank_cut hskip (by decide)
    have ends : Ends v := .inr ⟨u, .inr (.inr (hv ▸ blankText_skipBlank v))⟩
    exact ⟨.inl hv, ends.link_eq_none q⟩
  · obtain next | next := next
    · obtain ⟨x, t, hx⟩ := exists_operand_of_statement next
      obtain rfl := skipBlank_cut_of_operand hx (by rintro rfl; exact next stuck) hskip
      have hlen := (blankText_skipBlank (v ++ r)).length_le
      rw [hskip] at hlen
      rw [← link_congr (skipBlank_skipBlank (v ++ r)), hskip] at nolink
      refine ⟨.inr ⟨fun t ht => hnot (t ++ r) (by rw [ht]; rfl), rfl⟩, ?_⟩
      exact link_cut_none hx (by omega) nolink q
    · have hu : u ++ r = [] ++ r := by rw [← hskip, ← skipBlank_skipBlank, hskip, next, List.nil_append]
      obtain rfl := List.append_cancel_right hu
      have hv := skipBlank_cut_all hskip ahead
      have ends : Ends v := .inl (hv ▸ blankText_skipBlank v)
      exact ⟨.inr ⟨fun t => by simp, hv⟩, ends.link_eq_none q⟩

/-- **A statement is read again when the rest is cut off**, if one more begins behind it or nothing is left but `r`, where
none begins. -/
theorem statement_cut {n m : Nat} {e : Expr} (ahead : NoneAhead isSpace r) (stuck : statement n r = none)
    (h : statement n (w ++ r) = some (e, u ++ r)) (bound : (w ++ r).length < n) (bound' : w.length < m)
    (next : statement n (u ++ r) ≠ none ∨ skipBlank (u ++ r) = r) : statement m w = some (e, u) := by
  obtain ⟨s, hread, ends⟩ := statement_eq_some.1 h
  obtain ⟨v, rfl⟩ : ∃ v, s = v ++ r := by
    obtain ⟨b, hb⟩ := (blankText_skipBlank s).exists_append
    obtain hskip | ⟨-, hskip⟩ := ends
    · exact ⟨b ++ ';' :: u, by rw [hb, hskip]; simp⟩
    · exact ⟨b ++ u, by rw [hb, hskip]; simp⟩
  have hlen := (exprText_of_chain operandText_of_operand hread).length_lt
  obtain ⟨ends', stop⟩ :=
    statementEnd_cut ahead stuck (link_eq_none_of_chain hread) (by omega) ends next (operand m)
  exact statement_eq_some.2 ⟨v, chain_cut hread bound bound' stop, ends'⟩

theorem noneAhead_skipBlank (s : List Char) : NoneAhead isSpace (skipBlank s) := by
  fun_induction skipBlank s with
  | case1 => intro c hc; cases hc
  | case2 _ _ _ ih => exact ih
  | case3 _ _ _ _ _ _ ih => exact ih
  | case4 c s hc _ _ =>
    intro x hx
    cases hx
    simpa using hc
  | case5 c s hc _ =>
    intro x hx
    cases hx
    simpa using hc

/-- **Statements are read again when the rest is cut off**, and nothing but blanks is left behind them. -/
theorem statements_cut {n m : Nat} {es : List Expr} (h : statements n (w ++ r) = (es, r)) (bound : (w ++ r).length < n)
    (bound' : w.length < m) : statements m w = (es, []) := by
  obtain ⟨as, final, hmany⟩ : ∃ as final, many (statement n) (w ++ r) = (as, final) := ⟨_, _, rfl⟩
  simp only [statements, hmany, Prod.mk.injEq] at h
  obtain ⟨rfl, hrest⟩ := h
  have ahead : NoneAhead isSpace r := by
    rw [← hrest]
    exact noneAhead_skipBlank final
  have stuck : statement n r = none := by
    rw [← hrest, statement_congr (skipBlank_skipBlank final)]
    exact eq_none_of_many length_lt_of_statement hmany
  obtain ⟨v, rfl⟩ : ∃ v, final = v ++ r := by
    obtain ⟨v, hv⟩ := (blankText_skipBlank final).exists_append
    exact ⟨v, by rw [hv, hrest]⟩
  have step : ∀ {w' u : List Char} {e : Expr}, w'.length ≤ w.length → statement n (w' ++ r) = some (e, u ++ r) →
      statement n (u ++ r) ≠ none ∨ skipBlank (u ++ r) = r → statement m w' = some (e, u) := by
    intro w' u e hw' he next
    refine statement_cut ahead stuck he ?_ (by omega) next
    simp only [List.length_append] at bound ⊢
    omega
  have stop : ∀ {u : List Char}, skipBlank (u ++ r) = r → statement m u = none := by
    intro u hu
    have nothing : skipBlank u = skipBlank [] := by rw [skipBlank_cut_all hu ahead, skipBlank]
    rw [statement_congr nothing, statement_nil]
  have hcut := many_cut (q := statement m) (D := fun u => skipBlank (u ++ r) = r) exists_append_of_statement step
    stop (Nat.le_refl _) hmany hrest
  simp only [statements, hcut, skipBlank_cut_all hrest ahead]

end Grammar

open Grammar Reader

/-! ### Places in a text -/

namespace Position

theorem behind_concat (l : List Char) (c : Char) : behind (l ++ [c]) = (behind l).advance c := by
  rw [behind, List.foldl_append]
  rfl

/-- **A place counts what is before it**: its bytes, its line feeds, and its characters behind the last of these. -/
theorem behind_eq (l : List Char) :
    behind l = ⟨(String.ofList l).utf8ByteSize, 1 + l.count '\n', 1 + (l.rtakeWhile (· != '\n')).length⟩ := by
  induction l using List.reverseRecOn with
  | nil => rfl
  | append_singleton l c ih =>
    have bytes : (String.ofList (l ++ [c])).utf8ByteSize = (String.ofList l).utf8ByteSize + c.utf8Size := by
      simp [String.ofList_append]
    rw [behind_concat, ih, advance, bytes, List.rtakeWhile_concat, List.count_append]
    by_cases hc : c = '\n'
    · simp [hc, Nat.add_assoc]
    · simp [hc, Nat.add_assoc]

end Position

structure SyntaxError.PointsBehind (e : SyntaxError) (read source : String) : Prop where
  inside : ∃ rest, rest ≠ "" ∧ source = read ++ rest
  offset : e.position.offset = read.utf8ByteSize
  line : e.position.line = 1 + read.toList.count '\n'
  column : e.position.column = 1 + (read.toList.rtakeWhile (· != '\n')).length

theorem complete_eq_error {α : Type} {source rest : List Char} {a : α} {e : SyntaxError}
    (h : complete source (a, rest) = .error e) : rest ≠ [] ∧ e = .trailing (placeOf source (trailingFrom rest)) := by
  cases rest with
  | nil => cases h
  | cons c rest =>
    cases h
    exact ⟨List.cons_ne_nil _ _, rfl⟩

theorem pointsBehind_of_complete {α : Type} {source : String} {w r : List Char} {a : α} {e : SyntaxError}
    (hsource : source.toList = w ++ r) (h : complete source.toList (a, r) = .error e) (ahead : NoneAhead isSpace r)
    (blanks : ∀ c ∈ source.toList, Text.isBlank c = true → isSpace c = true) :
    e.PointsBehind (String.ofList w) source := by
  obtain ⟨nonempty, rfl⟩ := complete_eq_error h
  have visible : trailingFrom r = r := by
    cases r with
    | nil => exact absurd rfl nonempty
    | cons c r =>
      have hc : ¬ Text.isBlank c = true := fun blank => by
        have := blanks c (by rw [hsource]; simp) blank
        rw [ahead c rfl] at this
        cases this
      rw [trailingFrom, List.dropWhile_cons_of_neg hc]
  have place : placeOf source.toList (trailingFrom r) = Position.behind w := by
    rw [visible, placeOf, hsource]
    simp
  have whole : source = String.ofList w ++ String.ofList r := by
    rw [← String.ofList_append, ← hsource, String.ofList_toList]
  have counted := place.trans (Position.behind_eq w)
  constructor
  case inside => exact ⟨String.ofList r, by simpa using nonempty, whole⟩
  case offset => rw [SyntaxError.position, counted]
  all_goals rw [SyntaxError.position, counted, String.toList_ofList]

theorem Program.exists_accepted {source : String} {e : SyntaxError} (h : Program.parse source = .error e)
    (blanks : ∀ c ∈ source.toList, Text.isBlank c = true → isSpace c = true) :
    ∃ read, e.PointsBehind read source ∧ ∃ statements, Program.parse read = .ok statements := by
  obtain ⟨es, final, hmany⟩ : ∃ es final, many (statement (nestingBound source.toList)) source.toList = (es, final) :=
    ⟨_, _, rfl⟩
  have hread : statements (nestingBound source.toList) source.toList = (es, skipBlank final) := by
    simp only [statements, hmany]
  obtain ⟨w, hsource⟩ : ∃ w, source.toList = w ++ skipBlank final := by
    obtain ⟨v, hv⟩ := exists_append_of_many exists_append_of_statement hmany
    obtain ⟨b, hb⟩ := (blankText_skipBlank final).exists_append
    exact ⟨v ++ b, by rw [hv, List.append_assoc, ← hb]⟩
  rw [Program.parse, Program.parseChars, hread] at h
  refine ⟨String.ofList w, pointsBehind_of_complete hsource h (noneAhead_skipBlank final) blanks, es, ?_⟩
  rw [hsource] at hread
  have hcut := statements_cut (m := nestingBound w) hread (Nat.lt_succ_self _) (Nat.lt_succ_self _)
  rw [Program.parse, Program.parseChars, String.toList_ofList, hcut]
  rfl

theorem Expr.exists_accepted {source : String} {e : SyntaxError} (h : Expr.parse source = .error e)
    (blanks : ∀ c ∈ source.toList, Text.isBlank c = true → isSpace c = true)
    (trailing : e.message = "unexpected trailing input") :
    ∃ read, e.PointsBehind read source ∧ ∃ x, Expr.parse read = .ok x := by
  rw [Expr.parse, Expr.parseChars] at h
  split at h
  · cases h
    exact absurd trailing (by simp [SyntaxError.message])
  · rename_i x rest hread
    obtain ⟨v, hv, visible, text⟩ := (exprText_of_chain operandText_of_operand hread).moved
    have opens := blankText_skipBlank source.toList
    rw [hv] at opens
    obtain ⟨b, hb, opens⟩ := opens.moved visible
    obtain ⟨c, hc, closes⟩ := (blankText_skipBlank rest).cut (noneAhead_skipBlank rest)
    have hsource : source.toList = (b ++ (v ++ c)) ++ skipBlank rest := by
      rw [hb, List.append_assoc, List.append_assoc, ← hc]
    refine ⟨String.ofList (b ++ (v ++ c)), pointsBehind_of_complete hsource h (noneAhead_skipBlank rest) blanks, x, ?_⟩
    refine Expr.parse_of_sourceText ?_
    rw [String.toList_ofList]
    exact ⟨v ++ c, c, opens c, text c, closes⟩

/-- **Input that trails behind a text is reported behind a text that is accepted**: reading the source up to the place of
the error succeeds, and the place counts the bytes, the lines and the columns of what was read.  There must be no blanks
but those of the grammar: the place passes over others, which no reader does. -/
theorem trailing_input_follows_accepted_text (source : String)
    (blanks : ∀ c ∈ source.toList, Text.isBlank c = true → isSpace c = true) {e : SyntaxError}
    (trailing : e.message = "unexpected trailing input") :
    (Program.parse source = .error e →
      ∃ read, e.PointsBehind read source ∧ ∃ statements, Program.parse read = .ok statements) ∧
    (Expr.parse source = .error e → ∃ read, e.PointsBehind read source ∧ ∃ x, Expr.parse read = .ok x) :=
  ⟨fun h => Program.exists_accepted h blanks, fun h => Expr.exists_accepted h blanks trailing⟩

theorem eq_error_of_map {ε α β : Type} {f : α → β} {x : Except ε α} {e : ε} (h : x.map f = .error e) : x = .error e := by
  cases x with
  | ok _ => cases h
  | error _ =>
    cases h
    rfl

/-- A call that is not closed is no call: its name is read, and the error stands at the parenthesis. -/
theorem trailing_input_follows_accepted_text_call :
    Program.parse "x # f\n+ g(1" = .error (.trailing ⟨9, 2, 4⟩) ∧
      Expr.parse "x # f\n+ g(1" = .error (.trailing ⟨9, 2, 4⟩) ∧
      (∃ read, (SyntaxError.trailing ⟨9, 2, 4⟩).PointsBehind read "x # f\n+ g(1" ∧
        ∃ statements, Program.parse read = .ok statements) ∧
      ∃ read, (SyntaxError.trailing ⟨9, 2, 4⟩).PointsBehind read "x # f\n+ g(1" ∧ ∃ x, Expr.parse read = .ok x := by
  have program : Program.parse "x # f\n+ g(1" = .error (.trailing ⟨9, 2, 4⟩) :=
    eq_error_of_map (f := fun _ => ()) (by decide +kernel)
  have expr : Expr.parse "x # f\n+ g(1" = .error (.trailing ⟨9, 2, 4⟩) :=
    eq_error_of_map (f := fun _ => ()) (by decide +kernel)
  have points := trailing_input_follows_accepted_text "x # f\n+ g(1" (by simp [Text.isBlank, isSpace])
    (e := .trailing ⟨9, 2, 4⟩) rfl
  exact ⟨program, expr, points.1 program, points.2 expr⟩

end ChainCalc
