import ChainCalc.Proofs.Matching.Soundness
import ChainCalc.Proofs.Matching.Vetoes
/-!
# Accounts — which names a match reports, and how often

A candidate without placeholders reports nothing under a name of its own: every name that is reported is one that the
pattern binds.  When the match goes through, the captures fill the placeholders of the pattern one by one (`explain_expr`),
so a placeholder that is no ellipsis is reported once for each place where it stands (`placeholders_are_accounted_for`).
-/
namespace ChainCalc

/-! ### Names that are reported -/

theorem Link.mem_holesAll {name : String} {ls : List Link} :
    name ∈ Link.holesAll ls ↔ ∃ l ∈ ls, name ∈ l.operand.holes := by
  induction ls with
  | nil => simp [Link.holesAll]
  | cons l ls ih =>
    obtain ⟨op, x⟩ := l
    rw [Link.holesAll, List.mem_append, ih, List.exists_mem_cons_iff]

theorem Expr.mem_holesAll {name : String} {es : List Expr} : name ∈ Expr.holesAll es ↔ ∃ e ∈ es, name ∈ e.holes := by
  induction es with
  | nil => simp [Expr.holesAll]
  | cons e es ih => rw [Expr.holesAll, List.mem_append, ih, List.exists_mem_cons_iff]

theorem Expr.mem_holes {name : String} {x : Operand} {ls : List Link} :
    name ∈ (⟨x, ls⟩ : Expr).holes ↔ name ∈ x.holes ∨ ∃ l ∈ ls, name ∈ l.operand.holes := by
  rw [Expr.holes, List.mem_append, Link.mem_holesAll]

theorem Operand.mem_holes_ofOperand {name : String} {x : Operand} : name ∈ (Expr.ofOperand x).holes ↔ name ∈ x.holes :=
  Expr.mem_holes.trans (or_iff_left (by simp))

theorem handedDown_holes (names : List String) : HandedDown (fun e => ∀ name ∈ e.holes, name ∈ names) where
  inner h name hn := h name (Operand.mem_holes_ofOperand.2 hn)
  front h name hn := h name (Expr.mem_holes.2 ((Expr.mem_holes.1 hn).imp id (fun ⟨l, hl, here⟩ =>
    ⟨l, List.mem_append_left _ hl, here⟩)))
  back h name hn := h name (Expr.mem_holes.2 (.inr ((List.exists_mem_cons_iff _ _ _).2 (Expr.mem_holes.1 hn))))
  unary h name hn := h name (Operand.mem_holes_ofOperand.2 (Operand.mem_holes_ofOperand.1 hn))
  name h name hn := h name (Operand.mem_holes_ofOperand.2 (List.mem_append_left _ (Operand.mem_holes_ofOperand.1 hn)))
  args h e he name hn :=
    h name (Operand.mem_holes_ofOperand.2 (List.mem_append_right _ (Expr.mem_holesAll.2 ⟨e, he, hn⟩)))

theorem mem_holes_of_mem_log {p c : Expr} (plain : c.holes = []) {r : String × Expr}
    (hr : r ∈ (p.matchLog (fun _ _ => true) c).2) : r.1 ∈ p.holes := by
  obtain ⟨hole, -, ⟨own, -⟩ | ⟨foreign, -⟩⟩ := captured_of_mem (handedDown_holes p.holes) handedDown_plain (fun _ h => h) plain hr
  · refine own r.1 (Operand.mem_holes_ofOperand.2 ?_)
    rw [Operand.holes, if_pos hole]
    exact List.mem_singleton.2 rfl
  · rw [classify_of_holes (Operand.holes_ofOperand.1 foreign)] at hole
    cases hole

/-! ### How often -/

theorem count_names_reports {name : String} (single : Placeholder.kindOf name = .single) {sites : List Site}
    {filling : Filling} (takes : List.Forall₂ Site.Takes sites filling) :
    ((reports sites filling).map Prod.fst).count name = (sites.map Site.name).count name := by
  induction takes with
  | nil => rfl
  | @cons s es sites filling here _ ih =>
    rw [names_reports_cons, List.count_append, ih, List.map_cons, List.count_cons, Nat.add_comm]
    refine congrArg _ ?_
    by_cases own : s.name = name
    · subst own
      obtain ⟨e, rfl⟩ := here.one single
      simp
    · rw [if_neg (by simpa using own), List.count_eq_zero]
      exact fun hin => own (List.mem_map.1 hin).choose_spec.2

/-- **Every placeholder of a pattern is accounted for, and no other name is reported.**  Whatever the callback answers,
each name that it is told is one that the pattern binds; and if the match goes through, it has been told each placeholder
that is no ellipsis exactly as often as it stands in the pattern, names of calls included. -/
theorem placeholders_are_accounted_for {σ : Type} (report : OnCapture σ) (p : Expr) {c : Expr} (plain : c.holes = []) (s : σ) :
    (∀ r ∈ matchCalls report p c s, (Pattern.ofExpr p).binds r.1 = true) ∧
      ((matchExpr report p c s).1 = true → ∀ name, Placeholder.kindOf name = .single →
        ((matchCalls report p c s).map Prod.fst).count name = p.holes.count name) := by
  refine ⟨fun r hr => ?_, fun goes name single => ?_⟩
  · rw [matchCalls_eq_asked] at hr
    exact Pattern.binds_iff.2 (mem_holes_of_mem_log plain ((report.asked_prefix _ s).subset hr))
  · have whole : matchExpr record p c [] = (true, matchCalls report p c s) := matchCalls_of_true report goes
    obtain ⟨filling, takes, logged, -⟩ := explain_expr plain whole
    rw [logged, List.nil_append, count_names_reports single takes, Expr.map_name_sites]

/-- A placeholder in the place of a name and of an argument, one that comes back, and an ellipsis that takes nothing. -/
theorem placeholders_are_accounted_for_call :
    let p : Expr := ⟨.call "_f" [.ident "_x", .ident "_x", .ident "_f", .ident "__more"], []⟩
    let c : Expr := ⟨.call "g" [.ident "a", .binary (.ident "b") .add (.ident "c"), .ident "d"], []⟩
    let all : OnCapture Unit := fun _ _ s => (true, s)
    (∀ r ∈ matchCalls all p c (), (Pattern.ofExpr p).binds r.1 = true) ∧ (matchExpr all p c ()).1 = true ∧
      ((matchCalls all p c ()).map Prod.fst).count "_x" = 2 ∧ ((matchCalls all p c ()).map Prod.fst).count "_f" = 2 := by
  intro p c all
  obtain ⟨own, counts⟩ := placeholders_are_accounted_for all p (c := c) (by decide) ()
  have goes : (matchExpr all p c ()).1 = true := by decide +kernel
  exact ⟨own, goes, (counts goes "_x" (by decide)).trans (by decide), (counts goes "_f" (by decide)).trans (by decide)⟩

end ChainCalc
