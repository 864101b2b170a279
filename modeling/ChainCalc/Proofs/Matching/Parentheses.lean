import ChainCalc.Proofs.Expr.Parentheses
import ChainCalc.Proofs.Matching.Offers
/-!
# Matching and redundant parentheses — they never show

A match takes parentheses off piecemeal: around an expression when it gets there, around an operand when it stands against
another, around a capture when it is reported, and wherever it asks for a placeholder.  Together that is as good as taking
all of them off beforehand (`matchExpr_strip`): the walk over two expressions is the walk over their stripped forms, and
what is captured is stripped to what is captured there.  So expressions that are the same up to redundant parentheses
match alike (`reparen_matches_alike`).
-/
namespace ChainCalc

open Attempt

/-! ### Stripped views -/

theorem Operand.isChain_of_bare {x : Operand} {e : Expr} (h : x.bare = .paren e) : e.isChain = true := by
  fun_induction Operand.bare x with
  | case1 x ih => exact ih h
  | case2 x single =>
    obtain ⟨first, rest⟩ := e
    cases rest with
    | nil => exact absurd h (single first)
    | cons l ls => rfl

theorem Operand.strip_paren_of_isChain {e : Expr} (h : e.isChain = true) : (Operand.paren e).strip = .paren e.strip := by
  rw [Operand.strip, Operand.group_of_isChain (Expr.strip_of_isChain h)]

@[simp] theorem Operand.placeholder?_strip (x : Operand) : x.strip.placeholder? = x.placeholder? := by
  unfold Operand.placeholder?
  rw [Operand.bare_strip, ← Operand.strip_bare]
  cases hx : x.bare with
  | paren e => rw [Operand.strip_paren_of_isChain (Operand.isChain_of_bare hx)]
  | _ => rfl

@[simp] theorem Operand.isEllipsis_strip (x : Operand) : x.strip.isEllipsis = x.isEllipsis := by
  unfold Operand.isEllipsis
  rw [Operand.placeholder?_strip]

@[simp] theorem Expr.placeholder?_strip (e : Expr) : e.strip.placeholder? = e.placeholder? := by
  unfold Expr.placeholder?
  rw [Expr.bare_strip, Expr.strip_eq]
  match e.bare with
  | ⟨x, []⟩ => exact x.placeholder?_strip
  | ⟨x, ⟨_, _⟩ :: _⟩ => rfl

@[simp] theorem Expr.ellipsis?_strip (e : Expr) : e.strip.ellipsis? = e.ellipsis? := by
  unfold Expr.ellipsis?
  rw [Expr.placeholder?_strip]

@[simp] theorem exhausted_stripAll (es : List Expr) : exhausted (Expr.stripAll es) = exhausted es := by
  match es with
  | [] => rfl
  | [e] =>
    show e.strip.ellipsis?.isSome = _
    rw [Expr.ellipsis?_strip]
    rfl
  | _ :: _ :: _ => rfl

@[simp] theorem trailingEllipsis_stripAll (ls : List Link) : trailingEllipsis (Link.stripAll ls) = trailingEllipsis ls := by
  match ls with
  | [] => rfl
  | [⟨op, x⟩] => exact x.isEllipsis_strip
  | ⟨_, _⟩ :: ⟨_, _⟩ :: _ => rfl

theorem Link.stripAll_takeWhile (floor : Nat) (ls : List Link) :
    Link.stripAll (ls.takeWhile (fun l => floor < l.op.precedence)) =
      (Link.stripAll ls).takeWhile (fun l => floor < l.op.precedence) := by
  induction ls with
  | nil => rfl
  | cons l ls ih =>
    obtain ⟨op, x⟩ := l
    rw [Link.stripAll, List.takeWhile_cons, List.takeWhile_cons, ← ih]
    split <;> rfl

namespace Cursor

def strip (c : Cursor) : Cursor := ⟨c.before, c.here.strip, Link.stripAll c.after⟩

theorem start_strip (e : Expr) : Cursor.start e.strip = (Cursor.start e.bare).strip := by
  rw [Expr.strip_eq]
  rfl

@[simp] theorem floor_strip (c : Cursor) : c.strip.floor = c.floor := by
  obtain ⟨before, x, after⟩ := c
  cases after with
  | nil => rfl
  | cons l ls => cases l with
    | mk op y => rfl

theorem repeats_strip (c : Cursor) (op : Operator) : c.strip.repeats op = c.repeats op := by
  show (c.here.strip.isEllipsis && c.before == some op) = _
  rw [Operand.isEllipsis_strip]
  rfl

theorem segment_strip (c : Cursor) (floor : Nat) : (c.strip.segment floor).bare = (c.segment floor).strip := by
  unfold segment
  rw [Expr.strip, Link.stripAll_takeWhile]
  rfl

theorem walk_strip (floor : Nat) (before : Option Operator) (x : Operand) (ls : List Link) :
    Cursor.walk floor before x.strip (Link.stripAll ls) = (Cursor.walk floor before x ls).strip := by
  induction ls generalizing before x with
  | nil => rfl
  | cons l ls ih =>
    obtain ⟨op, y⟩ := l
    rw [Link.stripAll, Cursor.walk, Cursor.walk]
    split
    · exact ih (some op) y
    · rfl

theorem segmentEnd_strip (c : Cursor) (floor : Nat) : c.strip.segmentEnd floor = (c.segmentEnd floor).strip :=
  walk_strip floor c.before c.here c.after

end Cursor

/-! ### The walk over stripped expressions -/

section

variable {σ : Type} (report : OnCapture σ)

def OnCapture.stripped (report : OnCapture σ) : OnCapture σ := fun name e => report name e.strip

theorem matchName_stripped (f g : String) : matchName report.stripped f g = matchName report f g := by
  unfold matchName
  cases Placeholder.classify f with
  | some h => rfl
  | none =>
    cases Placeholder.classify g with
    | some h => rfl
    | none => rfl

theorem OnCapture.stripped_bare (name : String) (e : Expr) : report.stripped name e.bare = report name e.strip :=
  congrArg (report name) e.strip_bare

mutual

/-- **A match takes all redundant parentheses off.** -/
theorem matchExpr_strip (p c : Expr) : matchExpr report p.strip c.strip = matchExpr report.stripped p c := by
  cases hole : p.placeholder? with
  | some h =>
    rw [matchExpr_hole report ((p.placeholder?_strip).trans hole), matchExpr_hole _ hole, Expr.bare_strip,
      OnCapture.stripped_bare]
  | none =>
    have hole₁ := (p.placeholder?_strip).trans hole
    cases hole' : c.placeholder? with
    | some h =>
      rw [matchExpr_candidate_hole report hole₁ ((c.placeholder?_strip).trans hole'),
        matchExpr_candidate_hole _ hole hole', Expr.bare_strip, OnCapture.stripped_bare]
    | none =>
      rw [matchExpr_chain report hole₁ ((c.placeholder?_strip).trans hole'), matchExpr_chain _ hole hole', Expr.bare_strip,
        Expr.bare_strip, Cursor.start_strip, Cursor.start_strip]
      exact matchChain_strip (.start p.bare) (.start c.bare)
termination_by 5 * (p.size + c.size) + 3
decreasing_by
  have := p.size_bare_le
  have := c.size_bare_le
  simp only [Cursor.size_start]
  omega

theorem matchChain_strip (p c : Cursor) : matchChain report p.strip c.strip = matchChain report.stripped p c := by
  cases hole : p.here.placeholder? with
  | some h =>
    rw [matchChain_hole report ((p.here.placeholder?_strip).trans hole), matchChain_hole _ hole, Cursor.floor_strip,
      Cursor.segment_strip, OnCapture.stripped_bare, Cursor.segmentEnd_strip,
      matchRest_strip p (c.segmentEnd p.floor)]
  | none =>
    have hole₁ := (p.here.placeholder?_strip).trans hole
    cases hole' : c.here.placeholder? with
    | some h =>
      rw [matchChain_candidate_hole report hole₁ ((c.here.placeholder?_strip).trans hole'),
        matchChain_candidate_hole _ hole hole', Cursor.floor_strip, Cursor.segment_strip, OnCapture.stripped_bare,
        Cursor.segmentEnd_strip, matchRest_strip (p.segmentEnd c.floor) c]
    | none =>
      rw [matchChain_operand report hole₁ ((c.here.placeholder?_strip).trans hole'), matchChain_operand _ hole hole',
        matchRest_strip p c]
      exact congrArg (andThen · _) (matchOperand_strip p.here c.here)
termination_by 5 * (p.size + c.size) + 2
decreasing_by
  all_goals
    have := c.size_segmentEnd_le p.floor
    have := p.size_segmentEnd_le c.floor
    simp only [Cursor.size] at *
    omega

/-- Operators and the order of operands are what they were, so the same branch is taken. -/
theorem matchRest_strip (p c : Cursor) : matchRest report p.strip c.strip = matchRest report.stripped p c := by
  match p, c with
  | ⟨pb, ph, []⟩, ⟨cb, ch, []⟩ => exact (matchRest_nil_nil ..).trans (matchRest_nil_nil ..).symm
  | ⟨pb, ph, ⟨a, x⟩ :: xs⟩, ⟨cb, ch, ⟨b, y⟩ :: ys⟩ =>
    have again := Cursor.repeats_strip ⟨pb, ph, ⟨a, x⟩ :: xs⟩ b
    have again' := Cursor.repeats_strip ⟨cb, ch, ⟨b, y⟩ :: ys⟩ a
    have both := matchChain_strip ⟨some a, x, xs⟩ ⟨some b, y, ys⟩
    have left := matchChain_strip ⟨pb, ph, ⟨a, x⟩ :: xs⟩ ⟨some b, y, ys⟩
    have right := matchChain_strip ⟨some a, x, xs⟩ ⟨cb, ch, ⟨b, y⟩ :: ys⟩
    simp only [Cursor.strip, Link.stripAll] at again again' both left right ⊢
    rw [matchRest, matchRest, again, again', both, left, right]
  | ⟨pb, ph, []⟩, ⟨cb, ch, ⟨b, y⟩ :: ys⟩ =>
    have again := Cursor.repeats_strip ⟨pb, ph, []⟩ b
    have on := matchChain_strip ⟨pb, ph, []⟩ ⟨some b, y, ys⟩
    have trailing := trailingEllipsis_stripAll (⟨b, y⟩ :: ys)
    simp only [Cursor.strip, Link.stripAll] at again on trailing ⊢
    rw [matchRest, matchRest, again, on, trailing]
  | ⟨pb, ph, ⟨a, x⟩ :: xs⟩, ⟨cb, ch, []⟩ =>
    have again := Cursor.repeats_strip ⟨cb, ch, []⟩ a
    have on := matchChain_strip ⟨some a, x, xs⟩ ⟨cb, ch, []⟩
    have trailing := trailingEllipsis_stripAll (⟨a, x⟩ :: xs)
    simp only [Cursor.strip, Link.stripAll] at again on trailing ⊢
    rw [matchRest, matchRest, again, on, trailing]
termination_by 5 * (p.size + c.size) + 1
decreasing_by
  all_goals
    have := ph.size_pos
    have := ch.size_pos
    simp only [Cursor.size, Link.sizes]
    omega

theorem matchOperand_strip (p c : Operand) : matchOperand report p.strip c.strip = matchOperand report.stripped p c := by
  cases hole : p.placeholder? with
  | some h =>
    rw [matchOperand_hole report ((p.placeholder?_strip).trans hole), matchOperand_hole _ hole, OnCapture.stripped_bare]
    rfl
  | none =>
    have hole₁ := (p.placeholder?_strip).trans hole
    cases hole' : c.placeholder? with
    | some h =>
      rw [matchOperand_candidate_hole report hole₁ ((c.placeholder?_strip).trans hole'),
        matchOperand_candidate_hole _ hole hole', OnCapture.stripped_bare]
      rfl
    | none =>
      rw [matchOperand_bare report hole₁ ((c.placeholder?_strip).trans hole'), matchOperand_bare _ hole hole',
        Operand.bare_strip, Operand.bare_strip, ← p.strip_bare, ← c.strip_bare]
      exact matchBare_strip p c
termination_by 5 * (p.size + c.size) + 1

theorem matchBare_strip (p c : Operand) :
    matchBare report p.bare.strip c.bare.strip = matchBare report.stripped p.bare c.bare := by
  have sp := p.size_bare_le
  have sc := c.size_bare_le
  have chain {x : Operand} {e : Expr} (h : x.bare = .paren e) : (Operand.paren e).strip = .paren e.strip :=
    Operand.strip_paren_of_isChain (Operand.isChain_of_bare h)
  cases hp : p.bare <;> cases hc : c.bare
  case call.call f xs g ys =>
    rw [Operand.strip, Operand.strip, matchBare, matchBare, matchName_stripped]
    exact congrArg _ (matchArgs_strip xs ys)
  case paren.paren a b =>
    rw [chain hp, chain hc, matchBare, matchBare]
    exact matchExpr_strip a b
  case unary.unary op x op' y =>
    rw [Operand.strip, Operand.strip, matchBare, matchBare, matchOperand_strip x y]
  -- the forms differ, or there is nothing inside
  case paren.lit | paren.ident | paren.call | paren.unary =>
    rw [chain hp]
    simp only [Operand.strip, matchBare]
  case lit.paren | ident.paren | call.paren | unary.paren =>
    rw [chain hc]
    simp only [Operand.strip, matchBare]
  all_goals simp only [Operand.strip, matchBare]
termination_by 5 * (p.size + c.size)
decreasing_by
  all_goals
    rw [hp] at sp
    rw [hc] at sc
    simp only [Operand.size] at sp sc
    omega

theorem matchArgs_strip (ps cs : List Expr) :
    matchArgs report (Expr.stripAll ps) (Expr.stripAll cs) = matchArgs report.stripped ps cs := by
  match ps, cs with
  | [], cs =>
    rw [Expr.stripAll, matchArgs_nil, matchArgs_nil, exhausted_stripAll]
  | p :: ps, [] =>
    rw [Expr.stripAll.eq_1, matchArgs_none, matchArgs_none, exhausted_stripAll]
  | p :: ps, c :: cs =>
    have left := matchArgs_strip (p :: ps) cs
    have right := matchArgs_strip ps (c :: cs)
    simp only [Expr.stripAll] at left right ⊢
    cases hole : p.ellipsis? with
    | some h =>
      rw [matchArgs_ellipsis report ((p.ellipsis?_strip).trans hole), matchArgs_ellipsis _ hole, Expr.bare_strip,
        OnCapture.stripped_bare, left]
    | none =>
      have hole₁ := (p.ellipsis?_strip).trans hole
      cases hole' : c.ellipsis? with
      | some h =>
        rw [matchArgs_candidate_ellipsis report hole₁ ((c.ellipsis?_strip).trans hole'),
          matchArgs_candidate_ellipsis _ hole hole', Expr.bare_strip, OnCapture.stripped_bare, right]
      | none =>
        rw [matchArgs_each report hole₁ ((c.ellipsis?_strip).trans hole'), matchArgs_each _ hole hole', matchExpr_strip p c,
          matchArgs_strip ps cs]
termination_by 5 * (Expr.sizes ps + Expr.sizes cs) + 4
decreasing_by
  all_goals
    have := c.size_pos
    have := p.size_pos
    simp only [Expr.sizes]
    omega

end

end

/-! ### Expressions that differ in nothing else -/

theorem matchLog_strip (p c : Expr) : p.strip.matchLog (fun _ _ => true) c.strip =
    ((p.matchLog (fun _ _ => true) c).1, (p.matchLog (fun _ _ => true) c).2.map (fun r => (r.1, r.2.strip))) := by
  have walk := matchExpr_strip (fun name e log => (true, log ++ [(name, e)])) p c
  have kept := offer_of_accepting (fun log (r : String × Expr) => log ++ [(r.1, r.2.strip)])
    (p.matchLog (fun _ _ => true) c).1 (p.matchLog (fun _ _ => true) c).2 []
  rw [List.foldl_append_eq_append, List.nil_append, ← List.flatMap_def, ← List.map_eq_flatMap] at kept
  exact (congrFun walk []).trans ((congrFun (matchExpr_eq_offer _ p c) []).trans kept)

section

variable {p p' c c' : Expr} (hp : p.Reparen p') (hc : c.Reparen c')

include hp hc

/-- **Redundant parentheses never influence a match**: if both sides are the same up to redundant parentheses, the match
ends the same way and reports the same placeholders in the same order, with captures that are the same up to redundant
parentheses. -/
theorem reparen_matches_alike :
    (p.matchLog (fun _ _ => true) c).1 = (p'.matchLog (fun _ _ => true) c').1 ∧
      List.Forall₂ (fun r r' => r.1 = r'.1 ∧ r.2.Reparen r'.2) (p.matchLog (fun _ _ => true) c).2
        (p'.matchLog (fun _ _ => true) c').2 := by
  have same := matchLog_strip p c
  rw [Expr.reparen_iff.1 hp, Expr.reparen_iff.1 hc, matchLog_strip p' c'] at same
  obtain ⟨verdict, captured⟩ := Prod.mk.inj same
  rw [← List.forall₂_eq_eq_eq, List.forall₂_map_left_iff, List.forall₂_map_right_iff] at captured
  refine ⟨verdict.symm, captured.flip.imp (fun r r' h => ?_)⟩
  obtain ⟨name, stripped⟩ := Prod.mk.inj h
  exact ⟨name.symm, Expr.reparen_iff.2 stripped.symm⟩

/-- **No callback notices redundant parentheses either**, if it treats captures alike that are the same but for them. -/
theorem matchExpr_reparen {σ : Type} {report : OnCapture σ}
    (blind : ∀ name {e e' : Expr}, e.Reparen e' → report name e = report name e') :
    matchExpr report p c = matchExpr report p' c' := by
  have same : report.stripped = report := funext₂ fun name e => (blind name e.reparen_strip).symm
  have walk := matchExpr_strip report p c
  rw [Expr.reparen_iff.1 hp, Expr.reparen_iff.1 hc, matchExpr_strip, same] at walk
  exact walk.symm

end

/-- Parentheses around a placeholder, around an ellipsis, around an operand of a segment and around a whole chain. -/
theorem reparen_matches_alike_sum :
    let p : Expr := ⟨.ident "_a", [⟨.add, .paren (.ident "__rest")⟩]⟩
    let p' : Expr := .ofOperand (.paren ⟨.paren (.ident "_a"), [⟨.add, .ident "__rest"⟩]⟩)
    let inner : Expr := .binary (.ident "d") .mul (.ident "e")
    let c : Expr := ⟨.ident "a", [⟨.mul, .ident "b"⟩, ⟨.add, .paren (.ident "c")⟩, ⟨.add, .paren inner⟩]⟩
    let c' : Expr := ⟨.paren (.ident "a"),
      [⟨.mul, .ident "b"⟩, ⟨.add, .ident "c"⟩, ⟨.add, .paren (.ofOperand (.paren inner))⟩]⟩
    ((p.matchLog (fun _ _ => true) c).1 = (p'.matchLog (fun _ _ => true) c').1 ∧
      List.Forall₂ (fun r r' => r.1 = r'.1 ∧ r.2.Reparen r'.2) (p.matchLog (fun _ _ => true) c).2
        (p'.matchLog (fun _ _ => true) c').2) ∧
      p'.matchLog (fun _ _ => true) c' =
        (true, [("_a", ⟨.paren (.ident "a"), [⟨.mul, .ident "b"⟩]⟩), ("__rest", .ident "c"), ("__rest", inner)]) :=
  ⟨reparen_matches_alike (by decide +kernel) (by decide +kernel), by decide +kernel⟩

end ChainCalc
