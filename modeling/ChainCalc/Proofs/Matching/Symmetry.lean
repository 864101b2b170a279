import Mathlib
import ChainCalc.Proofs.Expr.Equality
import ChainCalc.Proofs.Matching.Filling
import ChainCalc.Proofs.Matching.Offers
/-!
# Symmetry of matching — a placeholder works on either side

The pattern is looked at first, so two placeholders that meet are not treated alike.  Against a side without placeholders
nothing of that order shows: either way round the same captures are offered under the same names, in the same order, with
the same verdict (`sides_may_be_swapped`).
-/
namespace ChainCalc

open Attempt

/-! ### The sequence of calls -/

section

variable {σ : Type}

/-- The callback with a record of what it was called with, refused captures included. -/
def OnCapture.recorded (report : OnCapture σ) : OnCapture (σ × List (String × Expr)) := fun name e (s, log) =>
  ((report name e s).1, (report name e s).2, log ++ [(name, e)])

/-- **What the callback is called with in the course of a match**, name and capture of each call in order. -/
def matchCalls (report : OnCapture σ) (p c : Expr) (s : σ) : List (String × Expr) :=
  (matchExpr report.recorded p c (s, [])).2.2

/-- **What a callback is asked about** when captures are offered one after another: all of them, or those up to the first
that it refuses. -/
def OnCapture.asked (report : OnCapture σ) : List (String × Expr) → σ → List (String × Expr)
  | [], _ => []
  | r :: l, s =>
    match report r.1 r.2 s with
    | (true, s) => r :: asked report l s
    | (false, _) => [r]

/-- The record is what was asked about, and the callback does not notice that it is kept. -/
theorem offer_recorded (report : OnCapture σ) (b : Bool) : ∀ (l : List (String × Expr)) (s : σ)
    (log : List (String × Expr)), offer report.recorded b l (s, log) =
      ((offer report b l s).1, (offer report b l s).2, log ++ report.asked l s)
  | [], s, log => by
    rw [OnCapture.asked, List.append_nil]
    rfl
  | (name, e) :: l, s, log => by
    rw [offer, offer, OnCapture.asked]
    cases hr : report name e s with
    | mk answer s' =>
      have called : report.recorded name e (s, log) = (answer, s', log ++ [(name, e)]) := by
        unfold OnCapture.recorded
        dsimp only
        rw [hr]
      cases answer with
      | false =>
        unfold Attempt.andThen
        dsimp only
        rw [called, hr]
      | true =>
        rw [andThen_of_true called, andThen_of_true hr, offer_recorded report b l s' (log ++ [(name, e)]), List.append_assoc,
          List.singleton_append]

theorem matchExpr_recorded (report : OnCapture σ) (p c : Expr) (s : σ) : matchExpr report.recorded p c (s, []) =
    ((matchExpr report p c s).1, (matchExpr report p c s).2, matchCalls report p c s) := by
  unfold matchCalls
  rw [matchExpr_eq_offer, matchExpr_eq_offer, offer_recorded]

theorem matchCalls_eq_asked (report : OnCapture σ) (p c : Expr) (s : σ) :
    matchCalls report p c s = report.asked (p.matchLog (fun _ _ => true) c).2 s := by
  unfold matchCalls
  rw [matchExpr_eq_offer, offer_recorded, List.nil_append]

end

/-! ### Without placeholders -/

theorem handedDown_plain : HandedDown (fun e => e.holes = []) where
  inner h := (Expr.holes_eq_nil.1 h).1
  front h :=
    have ⟨first, rest⟩ := Expr.holes_eq_nil.1 h
    Expr.holes_eq_nil.2 ⟨first, (List.forall_mem_append.1 rest).1⟩
  back h := Expr.holes_eq_nil.2 (List.forall_mem_cons.1 (Expr.holes_eq_nil.1 h).2)
  unary h := Expr.holes_eq_nil.2 ⟨(Expr.holes_eq_nil.1 h).1, nofun⟩
  name h := Expr.holes_eq_nil.2 ⟨(List.append_eq_nil_iff.1 (Expr.holes_eq_nil.1 h).1).1, nofun⟩
  args h := Expr.holesAll_eq_nil.1 (List.append_eq_nil_iff.1 (Expr.holes_eq_nil.1 h).1).2

theorem Operand.holes_ofOperand {x : Operand} : (Expr.ofOperand x).holes = [] ↔ x.holes = [] :=
  Expr.holes_eq_nil.trans (and_iff_left nofun)

theorem Cursor.not_repeats_of_holes {c : Cursor} (h : c.here.holes = []) (op : Operator) : ¬c.repeats op = true := by
  unfold Cursor.repeats
  rw [Operand.isEllipsis_of_holes h, Bool.false_and]
  exact Bool.false_ne_true

/-! ### Literals -/

theorem float_beq_comm (x y : Float) : (x == y) = (y == x) := by
  rw [Bool.eq_iff_iff, Float.beq_iff_ne_nan_and_eq, Float.beq_iff_ne_nan_and_eq]
  grind

theorem Literal.beq_comm (a b : Literal) : (a == b) = (b == a) := by
  cases a <;> cases b <;> try rfl
  case bool.bool a b => exact BEq.comm (a := a) (b := b)
  case int.int a b => exact BEq.comm (a := a) (b := b)
  case float.float a b => exact float_beq_comm a b
  case str.str a b => exact BEq.comm (a := a) (b := b)

/-! ### Either way round -/

section

variable {σ : Type} (report : OnCapture σ)

theorem matchName_swap (f : String) {g : String} (plain : Placeholder.classify g = none) :
    matchName report g f = matchName report f g := by
  unfold matchName
  rw [plain]
  cases Placeholder.classify f with
  | some h => rfl
  | none => exact congrArg Attempt.verdict BEq.comm

mutual

theorem matchExpr_swap (p c : Expr) (plain : c.holes = []) : matchExpr report c p = matchExpr report p c := by
  have none' := Expr.placeholder?_of_holes plain
  cases hole : p.placeholder? with
  | some h => rw [matchExpr_candidate_hole report none' hole, matchExpr_hole report hole]
  | none =>
    rw [matchExpr_chain report none' hole, matchExpr_chain report hole none']
    exact matchChain_swap (.start p.bare) (.start c.bare) (handedDown_plain.start plain)
termination_by 5 * (p.size + c.size) + 3
decreasing_by
  have := p.size_bare_le
  have := c.size_bare_le
  simp only [Cursor.size_start]
  omega

theorem matchChain_swap (p c : Cursor) (plain : (⟨c.here, c.after⟩ : Expr).holes = []) :
    matchChain report c p = matchChain report p c := by
  have none' := Operand.placeholder?_of_holes (Expr.holes_eq_nil.1 plain).1
  cases hole : p.here.placeholder? with
  | some h =>
    rw [matchChain_candidate_hole report none' hole, matchChain_hole report hole,
      matchRest_swap p (c.segmentEnd p.floor) (handedDown_plain.segmentEnd plain _)]
  | none =>
    rw [matchChain_operand report none' hole, matchChain_operand report hole none',
      matchOperand_swap p.here c.here (Expr.holes_eq_nil.1 plain).1, matchRest_swap p c plain]
termination_by 5 * (p.size + c.size) + 2
decreasing_by
  all_goals
    have := c.size_segmentEnd_le p.floor
    simp only [Cursor.size] at *
    omega

theorem matchRest_swap (p c : Cursor) (plain : (⟨c.here, c.after⟩ : Expr).holes = []) :
    matchRest report c p = matchRest report p c := by
  match p, c, plain with
  | ⟨pb, ph, []⟩, ⟨cb, ch, []⟩, _ => rw [matchRest_nil_nil, matchRest_nil_nil]
  | ⟨pb, ph, ⟨a, x⟩ :: xs⟩, ⟨cb, ch, ⟨b, y⟩ :: ys⟩, plain =>
    -- the two questions about repetition are asked in the other order, but one of them is always answered no
    have once := Cursor.not_repeats_of_holes (c := ⟨cb, ch, ⟨b, y⟩ :: ys⟩) (Expr.holes_eq_nil.1 plain).1 a
    by_cases same : a = b
    · rw [matchRest, matchRest, if_pos same, if_pos same.symm]
      exact matchChain_swap ⟨some a, x, xs⟩ ⟨some b, y, ys⟩ (handedDown_plain.back plain)
    rw [matchRest, matchRest, if_neg same, if_neg (Ne.symm same), if_neg once]
    by_cases again : Cursor.repeats ⟨pb, ph, ⟨a, x⟩ :: xs⟩ b = true
    · rw [if_pos again, if_pos again]
      exact matchChain_swap ⟨pb, ph, ⟨a, x⟩ :: xs⟩ ⟨some b, y, ys⟩ (handedDown_plain.back plain)
    · rw [if_neg again, if_neg again, if_neg once]
  | ⟨pb, ph, []⟩, ⟨cb, ch, ⟨b, y⟩ :: ys⟩, plain =>
    by_cases again : Cursor.repeats ⟨pb, ph, []⟩ b = true
    · rw [matchRest, matchRest, if_pos again, if_pos again]
      exact matchChain_swap ⟨pb, ph, []⟩ ⟨some b, y, ys⟩ (handedDown_plain.back plain)
    · rw [matchRest, matchRest, if_neg again, if_neg again]
  | ⟨pb, ph, ⟨a, x⟩ :: xs⟩, ⟨cb, ch, []⟩, plain =>
    have once := Cursor.not_repeats_of_holes (c := ⟨cb, ch, []⟩) (Expr.holes_eq_nil.1 plain).1 a
    rw [matchRest, matchRest, if_neg once, if_neg once]
termination_by 5 * (p.size + c.size) + 1
decreasing_by
  all_goals
    have := ph.size_pos
    have := ch.size_pos
    simp only [Cursor.size, Link.sizes]
    omega

theorem matchOperand_swap (p c : Operand) (plain : c.holes = []) : matchOperand report c p = matchOperand report p c := by
  have none' := Operand.placeholder?_of_holes plain
  cases hole : p.placeholder? with
  | some h => rw [matchOperand_candidate_hole report none' hole, matchOperand_hole report hole]
  | none =>
    rw [matchOperand_bare report none' hole, matchOperand_bare report hole none']
    exact matchBare_swap p.bare c.bare (c.holes_bare.trans plain)
termination_by 5 * (p.size + c.size) + 1
decreasing_by
  have := p.size_bare_le
  have := c.size_bare_le
  omega

theorem matchBare_swap (p c : Operand) (plain : c.holes = []) : matchBare report c p = matchBare report p c := by
  cases p' : p <;> cases c' : c <;> try simp only [matchBare]
  case lit.lit a b => rw [Literal.beq_comm]
  case ident.ident a b => rw [BEq.comm]
  case call.call f xs g ys =>
    rw [c'] at plain
    have plain' := Operand.holes_ofOperand.2 plain
    rw [matchName_swap report f (classify_of_holes (Operand.holes_ofOperand.1 (handedDown_plain.name plain'))),
      matchArgs_swap xs ys (handedDown_plain.args plain')]
  case paren.paren a b =>
    rw [c'] at plain
    exact matchExpr_swap a b plain
  case unary.unary op x op' y =>
    rw [c'] at plain
    by_cases same : op = op'
    · rw [if_pos same, if_pos same.symm]
      exact matchOperand_swap x y plain
    · rw [if_neg same, if_neg (Ne.symm same)]
termination_by 5 * (p.size + c.size)
decreasing_by
  all_goals
    simp only [c', Operand.size]
    omega

theorem matchArgs_swap (ps cs : List Expr) (plain : ∀ c ∈ cs, c.holes = []) :
    matchArgs report cs ps = matchArgs report ps cs := by
  match ps, cs, plain with
  | [], cs, _ => rw [matchArgs_nil, matchArgs_none]
  | p :: ps, [], _ => rw [matchArgs_nil, matchArgs_none]
  | p :: ps, c :: cs, plain =>
    obtain ⟨plain', all⟩ := List.forall_mem_cons.1 plain
    have none' := Expr.ellipsis?_of_holes plain'
    cases hole : p.ellipsis? with
    | some h =>
      rw [matchArgs_candidate_ellipsis report none' hole, matchArgs_ellipsis report hole, matchArgs_swap (p :: ps) cs all]
    | none =>
      rw [matchArgs_each report none' hole, matchArgs_each report hole none', matchExpr_swap p c plain',
        matchArgs_swap ps cs all]
termination_by 5 * (Expr.sizes ps + Expr.sizes cs) + 4
decreasing_by
  all_goals
    have := c.size_pos
    have := p.size_pos
    simp only [Expr.sizes]
    omega

end

/-- **Against an expression without placeholders the sides of a match may be swapped**: for every callback, whatever state
it keeps, the verdict and the state are the same, and so is the sequence of calls. -/
theorem sides_may_be_swapped (p : Expr) {c : Expr} (plain : c.holes = []) (s : σ) :
    matchExpr report p c s = matchExpr report c p s ∧ matchCalls report p c s = matchCalls report c p s := by
  unfold matchCalls
  rw [matchExpr_swap report p c plain, matchExpr_swap report.recorded p c plain]
  exact ⟨rfl, rfl⟩

end

/-- An ellipsis among arguments and one at the end of a chain, and a callback that refuses its sixth capture. -/
theorem sides_may_be_swapped_sum :
    let p : Expr := ⟨.call "f" [.ident "_x", .ident "__more"], [⟨.add, .ident "__rest"⟩]⟩
    let c : Expr := ⟨.call "f" [.ident "a", .binary (.ident "b") .mul (.ident "c"), .ident "d"],
      [⟨.add, .ident "u"⟩, ⟨.add, .ident "v"⟩, ⟨.add, .ident "w"⟩]⟩
    let five : OnCapture Nat := fun _ _ n => (n < 5, n + 1)
    let seen := [("_x", .ident "a"), ("__more", .binary (.ident "b") .mul (.ident "c")), ("__more", .ident "d"),
      ("__rest", .ident "u"), ("__rest", .ident "v"), ("__rest", .ident "w")]
    (matchExpr five p c 0 = matchExpr five c p 0 ∧ matchCalls five p c 0 = matchCalls five c p 0) ∧
      matchExpr five p c 0 = (false, 6) ∧ matchCalls five p c 0 = seen :=
  ⟨sides_may_be_swapped _ _ (by decide) 0, by decide +kernel, by decide +kernel⟩

end ChainCalc
