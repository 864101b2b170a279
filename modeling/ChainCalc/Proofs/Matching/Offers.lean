import ChainCalc.Registry
import ChainCalc.Proofs.Matching.Steps
import ChainCalc.Proofs.Table
/-!
# What a match offers — the same captures to whoever asks

A match offers its captures one after another to the one who asked for it, and stops at the first that is refused.  Which
captures they are and in which order does not depend on the answers (`matchExpr_eq_offer`), so a veto only cuts a match
short.

A capture is a part of the one side, and the placeholder that it is offered under is a part of the other: what holds of an
expression and is handed down to its parts holds of everything captured (`captured_of_mem`).
-/
namespace ChainCalc

open Attempt

/-! ### Captures offered in order -/

def Attempt.offer {σ : Type} (report : OnCapture σ) (b : Bool) : List (String × Expr) → Attempt σ
  | [] => verdict b
  | r :: log => (report r.1 r.2).andThen (offer report b log)

namespace Attempt

variable {σ : Type} {report : OnCapture σ}

theorem andThen_assoc (a b c : Attempt σ) : (a.andThen b).andThen c = a.andThen (b.andThen c) := by
  funext s
  unfold andThen
  generalize a s = r
  obtain ⟨_ | _, s'⟩ := r <;> rfl

theorem offer_true_andThen (b : Bool) (m : List (String × Expr)) : ∀ l : List (String × Expr),
    (offer report true l).andThen (offer report b m) = offer report b (l ++ m)
  | [] => rfl
  | r :: l => by
    rw [offer, andThen_assoc, offer_true_andThen b m l]
    rfl

theorem offer_false_andThen (a : Attempt σ) : ∀ l : List (String × Expr),
    (offer report false l).andThen a = offer report false l
  | [] => rfl
  | r :: l => by
    rw [offer, andThen_assoc, offer_false_andThen a l]

theorem offer_of_accepting (keep : σ → String × Expr → σ) (b : Bool) : ∀ (l : List (String × Expr)) (s : σ),
    offer (fun name e s => (true, keep s (name, e))) b l s = (b, l.foldl keep s)
  | [], _ => rfl
  | _ :: l, s => offer_of_accepting keep b l (keep s _)

theorem offer_eq_true (P : String × Expr → Prop) (keep : σ → String × Expr → σ) {b : Bool} {s' : σ}
    (taken : ∀ name e s s', report name e s = (true, s') → P (name, e) ∧ s' = keep s (name, e)) :
    ∀ {l : List (String × Expr)} {s : σ}, offer report b l s = (true, s') →
      b = true ∧ (∀ r ∈ l, P r) ∧ s' = l.foldl keep s
  | [], s, h => by
    obtain ⟨hb, hs⟩ := verdict_eq_true.1 h
    exact ⟨hb, by simp, hs⟩
  | r :: l, s, h => by
    obtain ⟨s₁, hreport, hrest⟩ := andThen_eq_true.1 h
    obtain ⟨hr, rfl⟩ := taken r.1 r.2 s s₁ hreport
    obtain ⟨hb, all, hs⟩ := offer_eq_true P keep taken hrest
    exact ⟨hb, List.forall_mem_cons.2 ⟨hr, all⟩, hs⟩

end Attempt

/-! ### What is handed down to the parts of an expression -/

/-- What holds of an expression holds of its parts: of what stands in parentheses, of the first operands of a chain, of
the last ones, of the operand behind an operator, and of the name and the arguments of a call. -/
structure HandedDown (P : Expr → Prop) : Prop where
  inner : ∀ {e : Expr}, P (.ofOperand (.paren e)) → P e
  front : ∀ {x : Operand} {ls ms : List Link}, P ⟨x, ls ++ ms⟩ → P ⟨x, ls⟩
  back : ∀ {x : Operand} {l : Link} {ls : List Link}, P ⟨x, l :: ls⟩ → P ⟨l.operand, ls⟩
  unary : ∀ {op : Operator} {x : Operand}, P (.ofOperand (.unary op x)) → P (.ofOperand x)
  name : ∀ {f : String} {args : List Expr}, P (.call f args) → P (.ident f)
  args : ∀ {f : String} {args : List Expr}, P (.call f args) → ∀ e ∈ args, P e

namespace HandedDown

variable {P : Expr → Prop} (down : HandedDown P)

include down

theorem bare {e : Expr} (h : P e) : P e.bare := by
  fun_induction Expr.bare e with
  | case1 e ih => exact ih (down.inner h)
  | case2 => exact h

theorem bareOperand {x : Operand} (h : P (.ofOperand x)) : P (.ofOperand x.bare) := by
  fun_induction Operand.bare x with
  | case1 x ih => exact ih (down.inner h)
  | case2 => exact h

theorem start {e : Expr} (h : P e) : P ⟨(Cursor.start e.bare).here, (Cursor.start e.bare).after⟩ := by
  have hbare := down.bare h
  generalize e.bare = b at hbare ⊢
  obtain ⟨x, ls⟩ := b
  exact hbare

theorem first {x : Operand} {ls : List Link} (h : P ⟨x, ls⟩) : P (.ofOperand x) :=
  down.front (show P ⟨x, [] ++ ls⟩ from h)

theorem after {x : Operand} {l : Link} {ms : List Link} :
    ∀ {ls : List Link}, P ⟨x, ls ++ l :: ms⟩ → P ⟨l.operand, ms⟩
  | [], h => down.back h
  | _ :: _, h => after (down.back h)

theorem segment {c : Cursor} (h : P ⟨c.here, c.after⟩) (floor : Nat) : P (c.segment floor) := by
  rw [← List.takeWhile_append_dropWhile (p := fun l => floor < l.op.precedence) (l := c.after)] at h
  exact down.front h

theorem walk (floor : Nat) : ∀ (before : Option Operator) (x : Operand) (ls : List Link), P ⟨x, ls⟩ →
    P ⟨(Cursor.walk floor before x ls).here, (Cursor.walk floor before x ls).after⟩
  | _, _, [], h => h
  | before, x, ⟨op, y⟩ :: ls, h => by
    rw [Cursor.walk]
    split
    · exact walk floor (some op) y ls (down.back h)
    · exact h

theorem segmentEnd {c : Cursor} (h : P ⟨c.here, c.after⟩) (floor : Nat) :
    P ⟨(c.segmentEnd floor).here, (c.segmentEnd floor).after⟩ := down.walk floor c.before c.here c.after h

theorem hole {x : Operand} {h : Placeholder} (hx : P (.ofOperand x)) (hole : x.placeholder? = some h) :
    P (.ident h.name) := by
  have hbare := down.bareOperand hx
  unfold Operand.placeholder? at hole
  split at hole
  · rename_i name hname
    rw [hname] at hbare
    rwa [Placeholder.name_of_classify hole]
  · cases hole

theorem placeholder {e : Expr} {h : Placeholder} (he : P e) (hole : e.placeholder? = some h) : P (.ident h.name) := by
  have hbare := down.bare he
  unfold Expr.placeholder? at hole
  split at hole
  · rename_i x hx
    rw [hx] at hbare
    exact down.hole hbare hole
  · cases hole

end HandedDown

/-- The capture has no outer parentheses, and is a part of a side of which `G` holds, under a placeholder of a side of
which `F` holds, or the other way round. -/
structure Captured (F G : Expr → Prop) (r : String × Expr) : Prop where
  hole : (Placeholder.classify r.1).isSome = true
  bare : r.2.bare = r.2
  part : F (.ident r.1) ∧ G r.2 ∨ G (.ident r.1) ∧ F r.2

/-! ### Every match offers something -/

def Offers (Q : String × Expr → Prop) (a : (σ : Type) → OnCapture σ → Attempt σ) : Prop :=
  ∃ b log, (∀ r ∈ log, Q r) ∧ ∀ σ report, a σ report = offer report b log

namespace Offers

variable {Q : String × Expr → Prop} {a a' : (σ : Type) → OnCapture σ → Attempt σ}

theorem congr (h : ∀ σ report, a σ report = a' σ report) (ha : Offers Q a') : Offers Q a := by
  obtain ⟨b, log, all, same⟩ := ha
  exact ⟨b, log, all, fun σ report => (h σ report).trans (same σ report)⟩

theorem verdict (b : Bool) : Offers Q (fun _ _ => Attempt.verdict b) := ⟨b, [], by simp, fun _ _ => rfl⟩

theorem report {name : String} {e : Expr} (h : Q (name, e)) : Offers Q (fun _ report => report name e) :=
  ⟨true, [(name, e)], by simpa using h, fun _ report => (andThen_verdict_true (report name e)).symm⟩

theorem andThen (ha : Offers Q a) (ha' : Offers Q a') : Offers Q (fun σ report => (a σ report).andThen (a' σ report)) := by
  obtain ⟨b, log, all, same⟩ := ha
  obtain ⟨b', log', all', same'⟩ := ha'
  cases b with
  | true =>
    refine ⟨b', log ++ log', List.forall_mem_append.2 ⟨all, all'⟩, fun σ report => ?_⟩
    dsimp only
    rw [same, same', offer_true_andThen]
  | false =>
    refine ⟨false, log, all, fun σ report => ?_⟩
    dsimp only
    rw [same, offer_false_andThen]

end Offers

section

variable {F G : Expr → Prop} (hF : HandedDown F) (hG : HandedDown G)

include hG in
theorem offers_left {name : String} {h : Placeholder} {e : Expr} (hname : Placeholder.classify name = some h)
    (hf : F (.ident name)) (he : G e) : Offers (Captured F G) (fun _ report => report name e.bare) :=
  .report ⟨by rw [hname]; rfl, e.bare_bare, .inl ⟨hf, hG.bare he⟩⟩

include hF in
theorem offers_right {name : String} {h : Placeholder} {e : Expr} (hname : Placeholder.classify name = some h)
    (hg : G (.ident name)) (he : F e) : Offers (Captured F G) (fun _ report => report name e.bare) :=
  .report ⟨by rw [hname]; rfl, e.bare_bare, .inr ⟨hg, hF.bare he⟩⟩

include hF hG

theorem offers_matchName {f g : String} (hf : F (.ident f)) (hg : G (.ident g)) :
    Offers (Captured F G) (fun _ report => matchName report f g) := by
  cases hp : Placeholder.classify f with
  | some h =>
    refine .congr (fun _ report => ?_) (offers_left hG hp hf hg)
    unfold matchName
    rw [hp]
    dsimp only
    rw [Placeholder.name_of_classify hp, Expr.bare_ident]
  | none =>
    cases hc : Placeholder.classify g with
    | none => exact .congr (fun _ report => matchName_plain report hp hc) (.verdict _)
    | some h =>
      refine .congr (fun _ report => ?_) (offers_right hF hc hg hf)
      rw [matchName_candidate_hole report hp hc, Placeholder.name_of_classify hc, Expr.bare_ident]

mutual

theorem offers_matchExpr (p c : Expr) (hp : F p) (hc : G c) :
    Offers (Captured F G) (fun _ report => matchExpr report p c) := by
  cases hole : p.placeholder? with
  | some h =>
    exact .congr (fun _ report => matchExpr_hole report hole)
      (offers_left hG (Expr.classify_of_placeholder? hole) (hF.placeholder hp hole) hc)
  | none =>
    cases hole' : c.placeholder? with
    | some h =>
      exact .congr (fun _ report => matchExpr_candidate_hole report hole hole')
        (offers_right hF (Expr.classify_of_placeholder? hole') (hG.placeholder hc hole') hp)
    | none =>
      exact .congr (fun _ report => matchExpr_chain report hole hole')
        (offers_matchChain (.start p.bare) (.start c.bare) (hF.start hp) (hG.start hc))
termination_by 5 * (p.size + c.size) + 3
decreasing_by
  have := p.size_bare_le
  have := c.size_bare_le
  simp only [Cursor.size_start]
  omega

theorem offers_matchChain (p c : Cursor) (hp : F ⟨p.here, p.after⟩) (hc : G ⟨c.here, c.after⟩) :
    Offers (Captured F G) (fun _ report => matchChain report p c) := by
  cases hole : p.here.placeholder? with
  | some h =>
    exact .congr (fun _ report => matchChain_hole report hole)
      ((offers_left hG (Operand.classify_of_placeholder? hole) (hF.hole (hF.first hp) hole) (hG.segment hc _)).andThen
        (offers_matchRest p (c.segmentEnd p.floor) hp (hG.segmentEnd hc _)))
  | none =>
    cases hole' : c.here.placeholder? with
    | some h =>
      exact .congr (fun _ report => matchChain_candidate_hole report hole hole')
        ((offers_right hF (Operand.classify_of_placeholder? hole') (hG.hole (hG.first hc) hole')
            (hF.segment hp _)).andThen
          (offers_matchRest (p.segmentEnd c.floor) c (hF.segmentEnd hp _) hc))
    | none =>
      exact .congr (fun _ report => matchChain_operand report hole hole')
        ((offers_matchOperand p.here c.here (hF.first hp) (hG.first hc)).andThen (offers_matchRest p c hp hc))
termination_by 5 * (p.size + c.size) + 2
decreasing_by
  all_goals
    have := c.size_segmentEnd_le p.floor
    have := p.size_segmentEnd_le c.floor
    simp only [Cursor.size] at *
    omega

theorem offers_matchRest (p c : Cursor) (hp : F ⟨p.here, p.after⟩) (hc : G ⟨c.here, c.after⟩) :
    Offers (Captured F G) (fun _ report => matchRest report p c) := by
  match p, c, hp, hc with
  | ⟨pb, ph, []⟩, ⟨cb, ch, []⟩, _, _ =>
    exact .congr (fun _ report => matchRest_nil_nil report pb cb ph ch) (.verdict true)
  | ⟨pb, ph, ⟨a, x⟩ :: xs⟩, ⟨cb, ch, ⟨b, y⟩ :: ys⟩, hp, hc =>
    by_cases same : a = b
    · exact .congr (fun _ report => by rw [matchRest, if_pos same])
        (offers_matchChain ⟨some a, x, xs⟩ ⟨some b, y, ys⟩ (hF.back hp) (hG.back hc))
    by_cases again : Cursor.repeats ⟨pb, ph, ⟨a, x⟩ :: xs⟩ b = true
    · exact .congr (fun _ report => by rw [matchRest, if_neg same, if_pos again])
        (offers_matchChain ⟨pb, ph, ⟨a, x⟩ :: xs⟩ ⟨some b, y, ys⟩ hp (hG.back hc))
    by_cases again' : Cursor.repeats ⟨cb, ch, ⟨b, y⟩ :: ys⟩ a = true
    · exact .congr (fun _ report => by rw [matchRest, if_neg same, if_neg again, if_pos again'])
        (offers_matchChain ⟨some a, x, xs⟩ ⟨cb, ch, ⟨b, y⟩ :: ys⟩ (hF.back hp) hc)
    · exact .congr (fun _ report => by rw [matchRest, if_neg same, if_neg again, if_neg again']) (.verdict false)
  | ⟨pb, ph, []⟩, ⟨cb, ch, ⟨b, y⟩ :: ys⟩, hp, hc =>
    by_cases again : Cursor.repeats ⟨pb, ph, []⟩ b = true
    · exact .congr (fun _ report => by rw [matchRest, if_pos again])
        (offers_matchChain ⟨pb, ph, []⟩ ⟨some b, y, ys⟩ hp (hG.back hc))
    · exact .congr (fun _ report => by rw [matchRest, if_neg again]) (.verdict _)
  | ⟨pb, ph, ⟨a, x⟩ :: xs⟩, ⟨cb, ch, []⟩, hp, hc =>
    by_cases again : Cursor.repeats ⟨cb, ch, []⟩ a = true
    · exact .congr (fun _ report => by rw [matchRest, if_pos again])
        (offers_matchChain ⟨some a, x, xs⟩ ⟨cb, ch, []⟩ (hF.back hp) hc)
    · exact .congr (fun _ report => by rw [matchRest, if_neg again]) (.verdict _)
termination_by 5 * (p.size + c.size) + 1
decreasing_by
  all_goals
    have := ph.size_pos
    have := ch.size_pos
    simp only [Cursor.size, Link.sizes]
    omega

theorem offers_matchOperand (p c : Operand) (hp : F (.ofOperand p)) (hc : G (.ofOperand c)) :
    Offers (Captured F G) (fun _ report => matchOperand report p c) := by
  cases hole : p.placeholder? with
  | some h =>
    exact .congr (fun _ report => matchOperand_hole report hole)
      (offers_left hG (Operand.classify_of_placeholder? hole) (hF.hole hp hole) hc)
  | none =>
    cases hole' : c.placeholder? with
    | some h =>
      exact .congr (fun _ report => matchOperand_candidate_hole report hole hole')
        (offers_right hF (Operand.classify_of_placeholder? hole') (hG.hole hc hole') hp)
    | none =>
      exact .congr (fun _ report => matchOperand_bare report hole hole')
        (offers_matchBare p.bare c.bare (hF.bareOperand hp) (hG.bareOperand hc))
termination_by 5 * (p.size + c.size) + 1
decreasing_by
  have := p.size_bare_le
  have := c.size_bare_le
  omega

theorem offers_matchBare (p c : Operand) (hp : F (.ofOperand p)) (hc : G (.ofOperand c)) :
    Offers (Captured F G) (fun _ report => matchBare report p c) := by
  cases p' : p with
  | call f xs =>
    cases c' : c with
    | call g ys =>
      rw [p'] at hp
      rw [c'] at hc
      exact .congr (fun _ report => by rw [matchBare])
        ((offers_matchName hF hG (hF.name hp) (hG.name hc)).andThen (offers_matchArgs xs ys (hF.args hp) (hG.args hc)))
    | _ => exact .congr (fun _ report => by simp only [matchBare]) (.verdict false)
  | paren a =>
    cases c' : c with
    | paren b =>
      rw [p'] at hp
      rw [c'] at hc
      exact .congr (fun _ report => by rw [matchBare]) (offers_matchExpr a b (hF.inner hp) (hG.inner hc))
    | _ => exact .congr (fun _ report => by simp only [matchBare]) (.verdict false)
  | unary op x =>
    cases c' : c with
    | unary op' y =>
      rw [p'] at hp
      rw [c'] at hc
      by_cases same : op = op'
      · exact .congr (fun _ report => by rw [matchBare, if_pos same]) (offers_matchOperand x y (hF.unary hp) (hG.unary hc))
      · exact .congr (fun _ report => by rw [matchBare, if_neg same]) (.verdict false)
    | _ => exact .congr (fun _ report => by simp only [matchBare]) (.verdict false)
  | lit a =>
    cases c' : c with
    | lit b => exact .congr (fun _ report => by rw [matchBare]) (.verdict (a == b))
    | _ => exact .congr (fun _ report => by simp only [matchBare]) (.verdict false)
  | ident a =>
    cases c' : c with
    | ident b => exact .congr (fun _ report => by rw [matchBare]) (.verdict (a == b))
    | _ => exact .congr (fun _ report => by simp only [matchBare]) (.verdict false)
termination_by 5 * (p.size + c.size)
decreasing_by
  all_goals
    simp only [p', c', Operand.size]
    omega

theorem offers_matchArgs (ps cs : List Expr) (hps : ∀ p ∈ ps, F p) (hcs : ∀ c ∈ cs, G c) :
    Offers (Captured F G) (fun _ report => matchArgs report ps cs) := by
  match ps, cs, hps, hcs with
  | [], cs, _, _ => exact .congr (fun _ report => matchArgs_nil report cs) (.verdict _)
  | p :: ps, [], _, _ => exact .congr (fun _ report => matchArgs_none report (p :: ps)) (.verdict _)
  | p :: ps, c :: cs, hps, hcs =>
    obtain ⟨hp, hps'⟩ := List.forall_mem_cons.1 hps
    obtain ⟨hc, hcs'⟩ := List.forall_mem_cons.1 hcs
    cases hole : p.ellipsis? with
    | some h =>
      have hole' := (Option.filter_eq_some_iff.1 hole).1
      exact .congr (fun _ report => matchArgs_ellipsis report hole ps c cs)
        ((offers_left hG (Expr.classify_of_placeholder? hole') (hF.placeholder hp hole') hc).andThen
          (offers_matchArgs (p :: ps) cs hps hcs'))
    | none =>
      cases hole' : c.ellipsis? with
      | some h =>
        have hole'' := (Option.filter_eq_some_iff.1 hole').1
        exact .congr (fun _ report => matchArgs_candidate_ellipsis report hole hole' ps cs)
          ((offers_right hF (Expr.classify_of_placeholder? hole'') (hG.placeholder hc hole'') hp).andThen
            (offers_matchArgs ps (c :: cs) hps' hcs))
      | none =>
        exact .congr (fun _ report => matchArgs_each report hole hole' ps cs)
          ((offers_matchExpr p c hp hc).andThen (offers_matchArgs ps cs hps' hcs'))
termination_by 5 * (Expr.sizes ps + Expr.sizes cs) + 4
decreasing_by
  all_goals
    have := c.size_pos
    have := p.size_pos
    simp only [Expr.sizes]
    omega

end

theorem exists_offered {p c : Expr} (hp : F p) (hc : G c) : ∃ b log, (∀ r ∈ log, Captured F G r) ∧
    p.matchLog (fun _ _ => true) c = (b, log) ∧
      ∀ {σ : Type} (report : OnCapture σ), matchExpr report p c = offer report b log := by
  obtain ⟨b, log, all, same⟩ := offers_matchExpr hF hG p c hp hc
  refine ⟨b, log, all, ?_, fun report => same _ report⟩
  refine (congrFun (same _ _) []).trans ((offer_of_accepting (fun log r => log ++ [r]) b log []).trans ?_)
  rw [List.foldl_append_eq_append, List.nil_append, ← List.flatMap_def, List.flatMap_singleton']

/-- **What is captured is a part of one side, under a placeholder of the other.** -/
theorem captured_of_mem {p c : Expr} (hp : F p) (hc : G c) {r : String × Expr}
    (hr : r ∈ (p.matchLog (fun _ _ => true) c).2) : Captured F G r := by
  obtain ⟨b, log, all, same, -⟩ := exists_offered hF hG hp hc
  rw [same] at hr
  exact all r hr

end

theorem handedDown_true : HandedDown (fun _ => True) := by constructor <;> intros <;> trivial

/-- **Every callback is offered the same captures in the same order**: those that the one who accepts everything sees, up
to the first that is refused. -/
theorem matchExpr_eq_offer {σ : Type} (report : OnCapture σ) (p c : Expr) :
    matchExpr report p c = offer report (p.matchLog (fun _ _ => true) c).1 (p.matchLog (fun _ _ => true) c).2 := by
  obtain ⟨b, log, -, same, offered⟩ := exists_offered handedDown_true handedDown_true (p := p) (c := c) trivial trivial
  rw [same, offered]

/-! ### Captures of a pattern -/

namespace Captures

def collect (log : List (String × Expr)) : Captures := log.foldl (fun c r => c.push r.1 r.2) .none

theorem mem_foldl_push {name : String} {e : Expr} : ∀ {log : List (String × Expr)} {c : Captures} {es : List Expr},
    (name, es) ∈ (log.foldl (fun c r => c.push r.1 r.2) c).entries → e ∈ es →
      (name, e) ∈ log ∨ ∃ es, (name, es) ∈ c.entries ∧ e ∈ es
  | [], _, es, h, he => .inr ⟨es, h, he⟩
  | r :: log, c, es, h, he => by
    obtain hlog | ⟨es', h, he⟩ := mem_foldl_push (c := c.push r.1 r.2) h he
    · exact .inl (List.mem_cons_of_mem _ hlog)
    rcases Table.mem_put h with hput | h
    · cases hput
      rcases List.mem_append.1 he with he | he
      · cases hget : c.get? r.1 with
        | none =>
          rw [hget] at he
          cases he
        | some es =>
          rw [hget] at he
          exact .inr ⟨es, Table.mem_of_get? hget, he⟩
      · cases List.mem_singleton.1 he
        exact .inl List.mem_cons_self
    · exact .inr ⟨es', h, he⟩

theorem mem_of_collect {log : List (String × Expr)} {g : String × List Expr} (hg : g ∈ (collect log).entries) {e : Expr}
    (he : e ∈ g.2) : (g.1, e) ∈ log := by
  obtain h | ⟨_, h, -⟩ := mem_foldl_push hg he
  · exact h
  · cases h

end Captures

namespace Pattern

/-- The report of a pattern: its own placeholders only, and never the whole candidate. -/
def keepOwn (p : Pattern) (candidate : Expr) : OnCapture Captures := fun name e c =>
  if !p.binds name || e == candidate then (false, c) else (true, c.push name e)

theorem capture?_eq (p : Pattern) (candidate : Expr) :
    p.capture? candidate = match matchExpr (p.keepOwn candidate) p.expr candidate .none with
      | (true, c) => some c
      | (false, _) => none := rfl

theorem capture?_eq_some {p : Pattern} {candidate : Expr} {c : Captures} :
    p.capture? candidate = some c ↔ matchExpr (p.keepOwn candidate) p.expr candidate .none = (true, c) := by
  rw [capture?_eq]
  obtain ⟨b, c'⟩ := matchExpr (p.keepOwn candidate) p.expr candidate Captures.none
  cases b <;> simp

theorem capture?_eq_none {p : Pattern} {candidate : Expr}
    (h : (matchExpr (p.keepOwn candidate) p.expr candidate .none).1 = false) : p.capture? candidate = none := by
  cases hc : p.capture? candidate with
  | none => rfl
  | some c =>
    rw [capture?_eq_some.1 hc] at h
    cases h

theorem keepOwn_eq_true {p : Pattern} {candidate e : Expr} {name : String} {c c' : Captures} (hb : p.binds name = true) :
    p.keepOwn candidate name e c = (true, c') ↔ (e == candidate) = false ∧ c' = c.push name e := by
  unfold keepOwn
  rw [hb]
  cases e == candidate with
  | true => simp
  | false => simp [eq_comm]

theorem binds_iff {p : Pattern} {name : String} : p.binds name = true ↔ name ∈ p.holes := by simp [binds]

theorem binds_of_keepOwn {p : Pattern} {candidate e : Expr} {name : String} {c c' : Captures}
    (h : p.keepOwn candidate name e c = (true, c')) : p.binds name = true := by
  by_contra hb
  unfold keepOwn at h
  rw [Bool.not_eq_true] at hb
  rw [hb] at h
  cases h

/-- **The captures of a pattern are all that its match offers**: none is foreign to the pattern, none is the whole
candidate, and each is a part of one side under a placeholder of the other. -/
theorem exists_log_of_capture? {F G : Expr → Prop} (hF : HandedDown F) (hG : HandedDown G) {p : Pattern} {candidate : Expr}
    {captures : Captures} (hp : F p.expr) (hc : G candidate) (found : p.capture? candidate = some captures) :
    ∃ log, p.expr.matchLog (fun _ _ => true) candidate = (true, log) ∧ captures = .collect log ∧
      ∀ r ∈ log, Captured F G r ∧ p.binds r.1 = true ∧ (r.2 == candidate) = false := by
  obtain ⟨b, log, all, same, offered⟩ := exists_offered hF hG hp hc
  rw [capture?_eq_some, offered] at found
  obtain ⟨rfl, kept, rfl⟩ := offer_eq_true (fun r => p.binds r.1 = true ∧ (r.2 == candidate) = false)
    (fun c r => c.push r.1 r.2) (fun name e c c' h => by
      have own := binds_of_keepOwn h
      obtain ⟨other, rfl⟩ := (keepOwn_eq_true own).1 h
      exact ⟨⟨own, other⟩, rfl⟩) found
  exact ⟨log, same, rfl, fun r hr => ⟨all r hr, kept r hr⟩⟩

end Pattern

end ChainCalc
