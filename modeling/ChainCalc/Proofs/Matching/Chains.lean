import Mathlib.Data.List.TakeWhile
import ChainCalc.Proofs.Matching.Steps
/-!
# Placeholders in chains — which segment each of them takes

A candidate's chain without an ellipsis behind one of its operators is cut up by the operators alone: a placeholder with an operator
behind it takes everything up to the first link of that operator, provided that all links taken bind tighter than the
operators on either side (`matchChain_hole_step`), and the last placeholder takes the rest under the same condition
(`matchChain_hole_last`).  A pattern of a single operand never matches a longer chain (`matchChain_short`).
-/
namespace ChainCalc

namespace Cursor

/-- Nothing here is repeated, and no operand further on is an ellipsis. -/
def Steady (c : Cursor) : Prop := (∀ op, c.repeats op = false) ∧ ∀ l ∈ c.after, l.operand.isEllipsis = false

theorem steady_start {e : Expr} : (start e).Steady ↔ ∀ l ∈ e.rest, l.operand.isEllipsis = false :=
  ⟨fun h => h.2, fun h => ⟨fun op => by simp [repeats, start], h⟩⟩

theorem steady_of_isEllipsis {before : Option Operator} {here : Operand} {after : List Link}
    (hhere : here.isEllipsis = false) (hafter : ∀ l ∈ after, l.operand.isEllipsis = false) :
    (⟨before, here, after⟩ : Cursor).Steady := ⟨fun op => by simp [repeats, hhere], hafter⟩

theorem after_walk (floor : Nat) : ∀ (before : Option Operator) (here : Operand) (ls : List Link),
    (walk floor before here ls).after = ls.dropWhile (fun l => floor < l.op.precedence)
  | _, _, [] => rfl
  | before, here, ⟨op, x⟩ :: ls => by
    rw [walk, List.dropWhile_cons]
    by_cases h : floor < op.precedence
    · rw [if_pos h, if_pos (by simpa using h), after_walk floor]
    · rw [if_neg h, if_neg (by simpa using h)]

theorem after_segmentEnd (c : Cursor) (floor : Nat) :
    (c.segmentEnd floor).after = c.after.dropWhile (fun l => floor < l.op.precedence) := after_walk floor _ _ _

theorem steady_walk (floor : Nat) : ∀ (before : Option Operator) (here : Operand) (ls : List Link),
    (⟨before, here, ls⟩ : Cursor).Steady → (walk floor before here ls).Steady
  | _, _, [], h => h
  | before, here, ⟨op, x⟩ :: ls, h => by
    rw [walk]
    split
    · exact steady_walk floor _ _ ls (steady_of_isEllipsis (h.2 ⟨op, x⟩ List.mem_cons_self)
        (fun l hl => h.2 l (List.mem_cons_of_mem _ hl)))
    · exact h

theorem Steady.segmentEnd {c : Cursor} (h : c.Steady) (floor : Nat) : (c.segmentEnd floor).Steady :=
  steady_walk floor _ _ _ h

theorem Steady.trailingEllipsis {c : Cursor} (h : c.Steady) : trailingEllipsis c.after = false := by
  obtain ⟨before, here, ls⟩ := c
  match ls, h with
  | [], _ => rfl
  | [l], h => exact h.2 l List.mem_cons_self
  | _ :: _ :: _, _ => rfl

theorem floor_last (before : Option Operator) (here : Operand) :
    (⟨before, here, []⟩ : Cursor).floor = (before.map Operator.precedence).getD 0 := Nat.max_eq_left (Nat.zero_le _)

theorem floor_step (before : Option Operator) (here x : Operand) (op : Operator) (ls : List Link) :
    (⟨before, here, ⟨op, x⟩ :: ls⟩ : Cursor).floor = max ((before.map Operator.precedence).getD 0) op.precedence := rfl

end Cursor

theorem Link.sizes_append (xs ys : List Link) : Link.sizes (xs ++ ys) = Link.sizes xs + Link.sizes ys := by
  induction xs with
  | nil => rw [List.nil_append, Link.sizes, Nat.zero_add]
  | cons l xs ih =>
    obtain ⟨op, x⟩ := l
    rw [List.cons_append, Link.sizes, Link.sizes, ih, Nat.add_assoc]

theorem takeWhile_append_of_stop {α : Type} (p : α → Bool) {seg : List α} {a : α} (rest : List α)
    (h : ∀ x ∈ seg, p x = true) (ha : p a = false) : (seg ++ a :: rest).takeWhile p = seg ∧ (seg ++ a :: rest).dropWhile p = a :: rest := by
  rw [List.takeWhile_append_of_pos h, List.dropWhile_append_of_pos h, List.takeWhile_cons_of_neg (by simp [ha]),
    List.dropWhile_cons_of_neg (by simp [ha]), List.append_nil]
  exact ⟨rfl, rfl⟩

section

variable {σ : Type} (report : OnCapture σ)

/-- **The last placeholder of a pattern takes all that is left**, if that binds tighter than the operator in front. -/
theorem matchChain_hole_last {before : Option Operator} {hole : Operand} {h : Placeholder} {c : Cursor} {s s' : σ}
    (hh : hole.placeholder? = some h) (single : hole.isEllipsis = false) (steady : c.Steady) :
    matchChain report ⟨before, hole, []⟩ c s = (true, s') ↔
      (∀ l ∈ c.after, (before.map Operator.precedence).getD 0 < l.op.precedence) ∧
        report h.name (⟨c.here, c.after⟩ : Expr).bare s = (true, s') := by
  have hsteady := steady.segmentEnd (Cursor.floor ⟨before, hole, []⟩)
  have hafter := c.after_segmentEnd (Cursor.floor ⟨before, hole, []⟩)
  rw [matchChain_hole report hh, Cursor.segment]
  rw [Cursor.floor_last] at hsteady hafter ⊢
  generalize hend : c.segmentEnd ((before.map Operator.precedence).getD 0) = last at hsteady hafter
  obtain ⟨lb, lh, la⟩ := last
  rw [Attempt.andThen_eq_true]
  cases la with
  | nil =>
    have hall := List.dropWhile_eq_nil_iff.1 hafter.symm
    have hseg := List.takeWhile_eq_self_iff.2 hall
    rw [hseg, matchRest_nil_nil]
    constructor
    · rintro ⟨s₁, hr, hv⟩
      obtain ⟨-, rfl⟩ := Attempt.verdict_eq_true.1 hv
      exact ⟨fun l hl => by simpa using hall l hl, hr⟩
    · rintro ⟨-, hr⟩
      exact ⟨s', hr, rfl⟩
  | cons l ls =>
    rw [matchRest_nil_cons report _ _ _ _ _ single, hsteady.trailingEllipsis]
    constructor
    · rintro ⟨s₁, -, hv⟩
      cases (Attempt.verdict_eq_true.1 hv).1
    · rintro ⟨hall, -⟩
      have hnil : c.after.dropWhile (fun l => (before.map Operator.precedence).getD 0 < l.op.precedence) = [] :=
        List.dropWhile_eq_nil_iff.2 (fun l hl => by simpa using hall l hl)
      rw [hnil] at hafter
      cases hafter

/-- **A placeholder with an operator behind it takes what stands before the first link of that operator.** -/
theorem matchChain_hole_step {before : Option Operator} {hole x : Operand} {op : Operator} {xs : List Link}
    {h : Placeholder} {c : Cursor} {s s' : σ} (hh : hole.placeholder? = some h) (single : hole.isEllipsis = false)
    (single' : trailingEllipsis (⟨op, x⟩ :: xs) = false) (steady : c.Steady) :
    matchChain report ⟨before, hole, ⟨op, x⟩ :: xs⟩ c s = (true, s') ↔
      ∃ seg y ys s₁, c.after = seg ++ ⟨op, y⟩ :: ys ∧
        (∀ l ∈ seg, max ((before.map Operator.precedence).getD 0) op.precedence < l.op.precedence) ∧
        report h.name (⟨c.here, seg⟩ : Expr).bare s = (true, s₁) ∧
        matchChain report ⟨some op, x, xs⟩ ⟨some op, y, ys⟩ s₁ = (true, s') := by
  have hsteady := steady.segmentEnd (Cursor.floor ⟨before, hole, ⟨op, x⟩ :: xs⟩)
  have hafter := c.after_segmentEnd (Cursor.floor ⟨before, hole, ⟨op, x⟩ :: xs⟩)
  rw [matchChain_hole report hh, Cursor.segment]
  rw [Cursor.floor_step] at hsteady hafter ⊢
  generalize hfloor : max ((before.map Operator.precedence).getD 0) op.precedence = floor at hsteady hafter ⊢
  have hop : op.precedence ≤ floor := hfloor ▸ Nat.le_max_right _ _
  generalize hend : c.segmentEnd floor = last at hsteady hafter
  obtain ⟨lb, lh, la⟩ := last
  have hcut := List.takeWhile_append_dropWhile (p := fun l : Link => decide (floor < l.op.precedence)) (l := c.after)
  rw [Attempt.andThen_eq_true]
  -- where the candidate's chain is cut is decided by its operators, whatever the match does afterwards
  have hstop : ∀ {seg y ys}, c.after = seg ++ ⟨op, y⟩ :: ys → (∀ l ∈ seg, floor < l.op.precedence) →
      c.after.takeWhile (fun l => decide (floor < l.op.precedence)) = seg ∧ la = ⟨op, y⟩ :: ys := by
    intro seg y ys hc hseg
    have := takeWhile_append_of_stop (fun l : Link => decide (floor < l.op.precedence)) (a := ⟨op, y⟩) ys
      (fun l hl => by simpa using hseg l hl) (by simpa using hop)
    rw [← hc] at this
    exact ⟨this.1, hafter.trans this.2⟩
  cases la with
  | nil =>
    rw [matchRest_cons_nil report _ _ _ _ _ (hsteady.1 op), single']
    constructor
    · rintro ⟨s₁, -, hv⟩
      cases (Attempt.verdict_eq_true.1 hv).1
    · rintro ⟨seg, y, ys, s₁, hc, hseg, -, -⟩
      cases (hstop hc hseg).2
  | cons l ls =>
    obtain ⟨b, y⟩ := l
    by_cases hb : op = b
    · subst hb
      rw [matchRest_same]
      constructor
      · rintro ⟨s₁, hr, hm⟩
        refine ⟨_, y, ls, s₁, ?_, fun l hl => ?_, hr, hm⟩
        · rw [show (⟨op, y⟩ : Link) :: ls = _ from hafter]
          exact hcut.symm
        · simpa using List.mem_takeWhile_imp hl
      · rintro ⟨seg, y', ys, s₁, hc, hseg, hr, hm⟩
        obtain ⟨htake, hla⟩ := hstop hc hseg
        cases hla
        rw [htake]
        exact ⟨s₁, hr, hm⟩
    · rw [matchRest_differ report hb _ _ _ _ _ _ single (hsteady.1 op)]
      constructor
      · rintro ⟨s₁, -, hv⟩
        cases (Attempt.verdict_eq_true.1 hv).1
      · rintro ⟨seg, y', ys, s₁, hc, hseg, -, -⟩
        cases (hstop hc hseg).2
        exact absurd rfl hb

/-- **A pattern of one operand that is no placeholder never matches a longer chain.** -/
theorem matchChain_short {before : Option Operator} {x : Operand} {c : Cursor} {s : σ} (hx : x.placeholder? = none)
    (long : c.after ≠ []) (steady : c.Steady) : (matchChain report ⟨before, x, []⟩ c s).1 = false := by
  obtain ⟨cb, ch, la⟩ := c
  obtain ⟨l, ls, rfl⟩ := List.exists_cons_of_ne_nil long
  have hrest : matchRest report ⟨before, x, []⟩ ⟨cb, ch, l :: ls⟩ = Attempt.verdict false := by
    rw [matchRest_nil_cons report _ _ _ _ _ (Operand.isEllipsis_of_placeholder?_eq_none hx), steady.trailingEllipsis]
  have hfail : ∀ p : Attempt σ, (p.andThen (matchRest report ⟨before, x, []⟩ ⟨cb, ch, l :: ls⟩) s).1 = false := by
    intro p
    rw [hrest]
    unfold Attempt.andThen
    split <;> rfl
  cases hc : ch.placeholder? with
  | some h =>
    rw [matchChain_candidate_hole report hx hc]
    exact hfail _
  | none =>
    rw [matchChain_operand report hx hc]
    exact hfail _

end

end ChainCalc
