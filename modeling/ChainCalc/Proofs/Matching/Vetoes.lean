import ChainCalc.Proofs.Matching.Symmetry
/-!
# Vetoes — a refused capture ends the match and changes nothing before it

What a callback answers decides only how far the match goes.  It is called with the captures that the one who accepts
everything sees, in their order, up to and including the first that it refuses, and the match goes through exactly if
nothing is refused and the match of the one who accepts everything goes through (`veto_cuts_match_short`).
-/
namespace ChainCalc

open Attempt

section

variable {σ : Type} (report : OnCapture σ)

/-- **The answers of a callback** to captures that it is called with one after another, each with the state that the
call before it left. -/
def OnCapture.answers (report : OnCapture σ) : List (String × Expr) → σ → List Bool
  | [], _ => []
  | r :: l, s => (report r.1 r.2 s).1 :: answers report l (report r.1 r.2 s).2

namespace OnCapture

theorem asked_prefix : ∀ (l : List (String × Expr)) (s : σ), report.asked l s <+: l
  | [], _ => List.nil_prefix
  | r :: l, s => by
    rw [asked]
    split
    · rename_i s' _
      exact List.cons_prefix_cons.2 ⟨rfl, asked_prefix l s'⟩
    · exact List.cons_prefix_cons.2 ⟨rfl, List.nil_prefix⟩

theorem asked_of_accepted : ∀ {l : List (String × Expr)} {s : σ}, false ∉ report.answers (report.asked l s) s →
    report.asked l s = l
  | [], _, _ => rfl
  | r :: l, s, accepted => by
    rw [asked] at accepted ⊢
    split at accepted
    · rename_i s' hr
      rw [answers, hr, List.mem_cons, not_or] at accepted
      rw [asked_of_accepted accepted.2]
    · rename_i s' hr
      rw [answers, hr] at accepted
      exact absurd List.mem_cons_self accepted

theorem exists_last_of_refused : ∀ {l : List (String × Expr)} {s : σ}, false ∈ report.answers (report.asked l s) s →
    ∃ earlier last, report.asked l s = earlier ++ [last] ∧
      report.answers (report.asked l s) s = report.answers earlier s ++ [false] ∧ false ∉ report.answers earlier s
  | [], _, refused => absurd refused List.not_mem_nil
  | r :: l, s, refused => by
    rw [asked] at refused ⊢
    split at refused
    · rename_i s' hr
      rw [answers, hr, List.mem_cons, or_iff_right Bool.false_ne_true] at refused
      obtain ⟨earlier, last, called, answered, accepted⟩ := exists_last_of_refused refused
      refine ⟨r :: earlier, last, by rw [called, List.cons_append], ?_, ?_⟩
      · rw [answers, answers, hr, answered, List.cons_append]
      · rw [answers, hr]
        exact List.not_mem_cons_of_ne_of_not_mem Bool.false_ne_true accepted
    · rename_i s' hr
      exact ⟨[], r, rfl, by rw [answers, answers, hr, answers, List.nil_append], List.not_mem_nil⟩

theorem offer_fst_iff (b : Bool) : ∀ (l : List (String × Expr)) (s : σ),
    (offer report b l s).1 = true ↔ false ∉ report.answers (report.asked l s) s ∧ b = true
  | [], _ => (and_iff_right List.not_mem_nil).symm
  | r :: l, s => by
    rw [offer, asked]
    cases hr : report r.1 r.2 s with
    | mk answer s' =>
      cases answer with
      | false =>
        have refused : false ∈ report.answers [r] s := by
          rw [answers, hr]
          exact List.mem_cons_self
        unfold Attempt.andThen
        dsimp only
        rw [hr]
        exact ⟨fun h => absurd h Bool.false_ne_true, fun h => absurd refused h.1⟩
      | true =>
        rw [andThen_of_true hr, offer_fst_iff b l s']
        dsimp only
        rw [answers, hr, List.mem_cons, or_iff_right Bool.false_ne_true]

end OnCapture

theorem matchExpr_fst_iff (p c : Expr) (s : σ) : (matchExpr report p c s).1 = true ↔
    false ∉ report.answers (matchCalls report p c s) s ∧ (p.matchLog (fun _ _ => true) c).1 = true := by
  rw [matchExpr_eq_offer, matchCalls_eq_asked]
  exact report.offer_fst_iff _ _ s

theorem matchCalls_of_true {p c : Expr} {s : σ} (h : (matchExpr report p c s).1 = true) :
    p.matchLog (fun _ _ => true) c = (true, matchCalls report p c s) := by
  obtain ⟨accepted, goes⟩ := (matchExpr_fst_iff report p c s).1 h
  rw [matchCalls_eq_asked] at accepted ⊢
  rw [report.asked_of_accepted accepted]
  exact Prod.ext goes rfl

/-- **A veto only cuts the match short.**  Whatever state the callback keeps and whatever it answers: the captures that it
is called with are a first part of those that the one who accepts everything sees; they are all of those if it refuses
none, and otherwise the last of them is the first that it refuses; and the match goes through if and only if it refuses
none and the match of the one who accepts everything goes through. -/
theorem veto_cuts_match_short (p c : Expr) (s : σ) :
    let whole := p.matchLog (fun _ _ => true) c
    let calls := matchCalls report p c s
    let answers := report.answers calls s
    calls <+: whole.2 ∧ (false ∉ answers → calls = whole.2) ∧
      (false ∈ answers → ∃ earlier last, calls = earlier ++ [last] ∧ answers = report.answers earlier s ++ [false] ∧
        false ∉ report.answers earlier s) ∧
      ((matchExpr report p c s).1 = true ↔ false ∉ answers ∧ whole.1 = true) := by
  intro whole calls answers
  have asked : calls = report.asked whole.2 s := matchCalls_eq_asked report p c s
  have answered : answers = report.answers (report.asked whole.2 s) s := congrArg (report.answers · s) asked
  refine ⟨?_, fun accepted => ?_, fun refused => ?_, matchExpr_fst_iff report p c s⟩
  · rw [asked]
    exact report.asked_prefix whole.2 s
  · rw [answered] at accepted
    exact asked.trans (report.asked_of_accepted accepted)
  · rw [answered] at refused
    rw [asked, answered]
    exact report.exists_last_of_refused refused

/-- A callback that counts, and refuses the second capture of three, and placeholders on both sides. -/
example :
    let p : Expr := .call "f" [.ident "_x", .ident "b", .ident "__more"]
    let c : Expr := .call "f" [.ident "a", .ident "_y", .ident "c"]
    let one : OnCapture Nat := fun _ _ n => (n < 1, n + 1)
    matchCalls one p c 0 = [("_x", .ident "a"), ("_y", .ident "b")] ∧ one.answers (matchCalls one p c 0) 0 = [true, false] ∧
      p.matchLog (fun _ _ => true) c = (true, [("_x", .ident "a"), ("_y", .ident "b"), ("__more", .ident "c")]) := by
  decide +kernel

end

end ChainCalc
