import ChainCalc.Proofs.Matching.Chains
import ChainCalc.Proofs.Matching.Instances
import ChainCalc.Proofs.Precedence.Same
/-!
# What a match found — the pattern filled with the captures is the candidate

When a candidate without placeholders is matched, the captures split over the placeholders of the pattern from left to
right, and the pattern filled with them has the precedence tree of the candidate (`matches_are_instances`).  A chain is
cut into segments on the way, each tighter than the operators around it (`matchChain_cases`, `matchRest_cases`), so putting
the segments in parentheses leaves the tree as it was.
-/
namespace ChainCalc

/-! ### Captures accounted for -/

/-- The captures between two states of the log fill the placeholders in a way that is as it should be. -/
def Explains (sites : List Site) (before after : List (String × Expr)) (P : Filling → Prop) : Prop :=
  ∃ filling, List.Forall₂ Site.Takes sites filling ∧ after = before ++ reports sites filling ∧ P filling

theorem Explains.imp {sites : List Site} {l l' : List (String × Expr)} {P Q : Filling → Prop} (h : Explains sites l l' P)
    (hPQ : ∀ filling, List.Forall₂ Site.Takes sites filling → P filling → Q filling) : Explains sites l l' Q := by
  obtain ⟨filling, takes, hlog, hp⟩ := h
  exact ⟨filling, takes, hlog, hPQ filling takes hp⟩

theorem reports_append {a b : List Site} {f g : Filling} (h : f.length = a.length) :
    reports (a ++ b) (f ++ g) = reports a f ++ reports b g := by
  rw [reports_split, ← h, List.take_left, List.drop_left]

theorem Explains.append {a b : List Site} {l l₁ l₂ : List (String × Expr)} {P Q R : Filling → Prop}
    (ha : Explains a l l₁ P) (hb : Explains b l₁ l₂ Q)
    (hR : ∀ f g, List.Forall₂ Site.Takes a f → P f → Q g → R (f ++ g)) : Explains (a ++ b) l l₂ R := by
  obtain ⟨f, hf, rfl, hp⟩ := ha
  obtain ⟨g, hg, rfl, hq⟩ := hb
  refine ⟨f ++ g, List.rel_append hf hg, ?_, hR f g hf hp hq⟩
  rw [reports_append hf.length_eq.symm, List.append_assoc]

theorem explains_nil {l : List (String × Expr)} {P : Filling → Prop} (h : P []) : Explains [] l l P :=
  ⟨[], .nil, (List.append_nil l).symm, h⟩

theorem explains_one {l : List (String × Expr)} {name : String} {e : Expr} {P : Filling → Prop} (plain : e.holes = [])
    (h : P [[e]]) : Explains [⟨name, false⟩] l (l ++ [(name, e)]) P :=
  ⟨[[e]], .cons ⟨by simpa using plain, fun _ => ⟨e, rfl⟩, nofun⟩ .nil, rfl, h⟩

/-! ### Fillings in parts -/

theorem Expr.fill_append {x : Operand} {ls : List Link} {f g : Filling} (h : f.length = x.sites.length) :
    Expr.fill (f ++ g) ⟨x, ls⟩ = ⟨x.fill f, Link.fillAll g ls⟩ := by
  rw [Expr.fill, ← h, List.take_left, List.drop_left]

theorem Link.fillAll_append {op : Operator} {x : Operand} {ls : List Link} {f g : Filling} (h : f.length = x.sites.length) :
    Link.fillAll (f ++ g) (⟨op, x⟩ :: ls) =
      (if x.isEllipsis then f.flatten.map (fun e => ⟨op, .group e⟩) else [⟨op, x.fill f⟩]) ++ Link.fillAll g ls := by
  rw [Link.fillAll, ← h, List.take_left, List.drop_left]

theorem Expr.fillAll_append {e : Expr} {es : List Expr} {f g : Filling} (h : f.length = e.sites.length) :
    Expr.fillAll (f ++ g) (e :: es) = (if e.isSlot then f.flatten else [e.fill f]) ++ Expr.fillAll g es := by
  rw [Expr.fillAll, ← h, List.take_left, List.drop_left]

theorem Operand.sites_bare (x : Operand) : x.bare.sites = x.sites := by
  fun_induction Operand.bare x with
  | case1 x ih => rw [ih, Operand.sites, Expr.sites, Link.sitesAll, List.append_nil]
  | case2 x _ => rfl

theorem Expr.sites_bare (e : Expr) : e.bare.sites = e.sites := by
  fun_induction Expr.bare e with
  | case1 e ih => rw [ih, Expr.sites, Operand.sites, Link.sitesAll, List.append_nil]
  | case2 e _ => rfl

theorem Operand.tree_fill_bare {filling : Filling} {x : Operand} (h : filling.length = x.sites.length) :
    (x.bare.fill filling).tree = (x.fill filling).tree := by
  fun_induction Operand.bare x with
  | case1 x ih =>
    have hsites : (Operand.paren ⟨x, []⟩).sites = x.sites := by simp [Operand.sites, Expr.sites, Link.sitesAll]
    rw [hsites] at h
    rw [ih h, Operand.fill, Expr.fill, Link.fillAll, Operand.tree, Expr.tree_single, ← h, List.take_length]
  | case2 x _ => rfl

theorem Expr.tree_fill_bare {filling : Filling} {e : Expr} (h : filling.length = e.sites.length) :
    (e.bare.fill filling).tree = (e.fill filling).tree := by
  fun_induction Expr.bare e with
  | case1 e ih =>
    have hsites : (⟨.paren e, []⟩ : Expr).sites = e.sites := by simp [Operand.sites, Expr.sites, Link.sitesAll]
    rw [hsites] at h
    rw [ih h, Expr.fill, Operand.fill, Link.fillAll, Operand.sites, Expr.tree_single, Operand.tree, ← h, List.take_length]
  | case2 e _ => rfl

theorem Operand.tree_fill_hole {x : Operand} {h : Placeholder} (hx : x.placeholder? = some h) (e : Expr) :
    (x.fill [[e]]).tree = e.tree := by
  rw [← Expr.tree_single, ← Expr.tree_bare]
  exact (congrArg Expr.tree ((Operand.of_placeholder? hx).2 e)).trans (Expr.tree_bare e)

theorem Expr.tree_fill_hole {p : Expr} {h : Placeholder} (hp : p.placeholder? = some h) (e : Expr) :
    (p.fill [[e]]).tree = e.tree := by
  rw [← Expr.tree_bare, (Expr.of_placeholder? hp).2 e, Expr.tree_bare]

/-! ### What a step of a match can be -/

theorem matchBare_cases {p c : Operand} {l l' : List (String × Expr)} (h : matchBare record p c l = (true, l')) :
    (∃ a, p = .ident a ∧ c = .ident a ∧ l' = l) ∨ (∃ a b, p = .lit a ∧ c = .lit b ∧ (a == b) = true ∧ l' = l) ∨
      (∃ f g ps cs l₁, p = .call f ps ∧ c = .call g cs ∧ matchName record f g l = (true, l₁) ∧
        matchArgs record ps cs l₁ = (true, l')) ∨
      (∃ a b, p = .paren a ∧ c = .paren b ∧ matchExpr record a b l = (true, l')) ∨
      (∃ op x y, p = .unary op x ∧ c = .unary op y ∧ matchOperand record x y l = (true, l')) := by
  rw [matchBare.eq_def] at h
  split at h
  · obtain ⟨hab, rfl⟩ := Attempt.verdict_eq_true.1 h
    exact .inl ⟨_, rfl, congrArg _ (eq_of_beq hab).symm, rfl⟩
  · obtain ⟨hab, rfl⟩ := Attempt.verdict_eq_true.1 h
    exact .inr (.inl ⟨_, _, rfl, rfl, hab, rfl⟩)
  · obtain ⟨l₁, hname, hargs⟩ := Attempt.andThen_eq_true.1 h
    exact .inr (.inr (.inl ⟨_, _, _, _, l₁, rfl, rfl, hname, hargs⟩))
  · exact .inr (.inr (.inr (.inl ⟨_, _, rfl, rfl, h⟩)))
  · split at h
    · rename_i hop
      subst hop
      exact .inr (.inr (.inr (.inr ⟨_, _, _, rfl, rfl, h⟩)))
    · cases h
  · cases h

/-- A placeholder takes a segment that binds tighter than what is around it; any other operand agrees with one operand. -/
theorem matchChain_cases {before before' : Option Operator} {x y : Operand} {ls ms : List Link} {l l' : List (String × Expr)}
    (plain : y.holes = []) (h : matchChain record ⟨before, x, ls⟩ ⟨before', y, ms⟩ l = (true, l')) :
    (∃ hole seg rest c, x.placeholder? = some hole ∧ ms = seg ++ rest ∧ c.after = rest ∧
        (Cursor.Steady ⟨before', y, ms⟩ → c.Steady) ∧
        (∀ m ∈ seg, (before.map Operator.precedence).getD 0 < m.op.precedence) ∧
        (∀ n ∈ rest.head?, ∀ m ∈ seg, n.op.precedence < m.op.precedence) ∧
        matchRest record ⟨before, x, ls⟩ c (l ++ [(hole.name, (⟨y, seg⟩ : Expr).bare)]) = (true, l')) ∨
      (x.placeholder? = none ∧ ∃ l₁, matchOperand record x y l = (true, l₁) ∧
        matchRest record ⟨before, x, ls⟩ ⟨before', y, ms⟩ l₁ = (true, l')) := by
  cases hx : x.placeholder? with
  | none =>
    rw [matchChain_operand record hx (Operand.placeholder?_of_holes plain)] at h
    exact .inr ⟨rfl, Attempt.andThen_eq_true.1 h⟩
  | some hole =>
    rw [matchChain_hole record hx, Attempt.andThen_of_true (reports_record _ _ l)] at h
    generalize hfloor : Cursor.floor ⟨before, x, ls⟩ = floor at h
    have hbefore : (before.map Operator.precedence).getD 0 ≤ floor := hfloor ▸ Nat.le_max_left _ _
    refine .inl ⟨hole, ms.takeWhile (fun m => decide (floor < m.op.precedence)), _, _, rfl,
      List.takeWhile_append_dropWhile.symm, Cursor.after_segmentEnd ⟨before', y, ms⟩ floor, fun hs => hs.segmentEnd floor,
      fun m hm => ?_, fun n hn m hm => ?_, h⟩
    · exact Nat.lt_of_le_of_lt hbefore (by simpa using List.mem_takeWhile_imp hm)
    · have hseg : floor < m.op.precedence := by simpa using List.mem_takeWhile_imp hm
      have hstop := List.head?_dropWhile_not (fun m : Link => decide (floor < m.op.precedence)) ms
      rw [hn] at hstop
      have hstop : ¬ floor < n.op.precedence := by simpa using hstop
      omega

/-- Behind operands that agree, either both chains go on with the same operator, or an ellipsis is repeated, or the
candidate is at its end and at most an ellipsis is left of the pattern. -/
theorem matchRest_cases {before : Option Operator} {x : Operand} {ls : List Link} {c : Cursor} {l l' : List (String × Expr)}
    (steady : c.Steady) (h : matchRest record ⟨before, x, ls⟩ c l = (true, l')) :
    (c.after = [] ∧ l' = l ∧ (ls = [] ∨ ∃ op z, ls = [⟨op, z⟩] ∧ z.isEllipsis = true)) ∨
      (∃ op z zs y ms, ls = ⟨op, z⟩ :: zs ∧ c.after = ⟨op, y⟩ :: ms ∧
        matchChain record ⟨some op, z, zs⟩ ⟨some op, y, ms⟩ l = (true, l')) ∨
      (∃ op y ms, before = some op ∧ x.isEllipsis = true ∧ c.after = ⟨op, y⟩ :: ms ∧
        matchChain record ⟨some op, x, ls⟩ ⟨some op, y, ms⟩ l = (true, l')) := by
  obtain ⟨cb, ch, ms⟩ := c
  have repeated : ∀ {b : Operator} {ls : List Link}, Cursor.repeats ⟨before, x, ls⟩ b = true → before = some b ∧ x.isEllipsis = true := by
    intro b ls hr
    simp only [Cursor.repeats, Bool.and_eq_true, beq_iff_eq] at hr
    exact ⟨hr.2, hr.1⟩
  cases ls with
  | nil =>
    cases ms with
    | nil =>
      rw [matchRest_nil_nil] at h
      exact .inl ⟨rfl, (Attempt.verdict_eq_true.1 h).2, .inl rfl⟩
    | cons m ms =>
      obtain ⟨b, y⟩ := m
      rw [matchRest] at h
      split at h
      · rename_i hr
        obtain ⟨rfl, hx⟩ := repeated hr
        exact .inr (.inr ⟨b, y, ms, rfl, hx, rfl, h⟩)
      · rw [steady.trailingEllipsis] at h
        cases h
  | cons p ls =>
    obtain ⟨a, z⟩ := p
    cases ms with
    | nil =>
      rw [matchRest_cons_nil record _ _ _ _ _ (steady.1 a)] at h
      obtain ⟨htrail, rfl⟩ := Attempt.verdict_eq_true.1 h
      cases ls with
      | nil => exact .inl ⟨rfl, rfl, .inr ⟨a, z, rfl, htrail⟩⟩
      | cons q ls => cases htrail
    | cons m ms =>
      obtain ⟨b, y⟩ := m
      rw [matchRest] at h
      split at h
      · rename_i hab
        subst hab
        exact .inr (.inl ⟨a, z, ls, y, ms, rfl, rfl, h⟩)
      · split at h
        · rename_i hr
          obtain ⟨rfl, hx⟩ := repeated hr
          exact .inr (.inr ⟨b, y, ms, rfl, hx, rfl, h⟩)
        · rw [steady.1 a] at h
          cases h

/-! ### Captures of one placeholder -/

theorem Operand.SameTree.paren {x y : Operand} (h : x.SameTree y) : x.SameTree (.paren ⟨y, []⟩) := by
  unfold Operand.SameTree at h ⊢
  rwa [Operand.tree, Expr.tree_single]

theorem Operand.explain_hole {x : Operand} {hole : Placeholder} {e : Expr} {l : List (String × Expr)}
    (hx : x.placeholder? = some hole) (plain : e.holes = []) :
    Explains x.sites l (l ++ [(hole.name, e.bare)]) (fun f => f = [[e.bare]]) := by
  rw [(Operand.of_placeholder? hx).1]
  exact explains_one ((Expr.holes_bare e).trans plain) rfl

theorem Operand.sameTree_hole {x : Operand} {hole : Placeholder} (hx : x.placeholder? = some hole) (e : Expr) :
    (x.fill [[e.bare]]).SameTree (.paren e) := by
  have same := Expr.sameTree_refl e
  unfold Expr.SameTree at same
  unfold Operand.SameTree
  rwa [Operand.tree_fill_hole hx, Expr.tree_bare, Operand.tree]

theorem Operand.sameTree_group (e : Expr) : (Operand.group e.bare).SameTree (.paren e) := by
  have same := Expr.sameTree_refl e
  unfold Expr.SameTree at same
  unfold Operand.SameTree
  rwa [Operand.tree_group, Expr.tree_bare, Operand.tree]

theorem Expr.explain_hole {p c : Expr} {hole : Placeholder} {l : List (String × Expr)} (hp : p.placeholder? = some hole)
    (plain : c.holes = []) : Explains p.sites l (l ++ [(hole.name, c.bare)]) (fun f => (p.fill f).SameTree c) := by
  rw [(Expr.of_placeholder? hp).1]
  refine explains_one ((Expr.holes_bare c).trans plain) ?_
  have same := Expr.sameTree_refl c
  unfold Expr.SameTree at same ⊢
  rwa [Expr.tree_fill_hole hp, Expr.tree_bare]

theorem explains_none {name : String} {l : List (String × Expr)} {P : Filling → Prop}
    (many : Placeholder.kindOf name = .ellipsis) (h : P [[]]) : Explains [⟨name, false⟩] l l P :=
  ⟨[[]], .cons ⟨by simp, by simp [many], nofun⟩ .nil, (List.append_nil l).symm, h⟩

theorem Placeholder.kindOf_of_classify {h : Placeholder} (hname : Placeholder.classify h.name = some h) :
    Placeholder.kindOf h.name = h.kind := by
  unfold Placeholder.classify at hname
  split at hname
  · exact congrArg Placeholder.kind (Option.some.inj hname)
  · cases hname

theorem Operand.exists_of_isEllipsis {x : Operand} (h : x.isEllipsis = true) :
    ∃ hole, x.placeholder? = some hole ∧ Placeholder.kindOf hole.name = .ellipsis := by
  unfold Operand.isEllipsis at h
  cases hx : x.placeholder? with
  | none => rw [hx] at h; cases h
  | some hole =>
    rw [hx] at h
    refine ⟨hole, rfl, ?_⟩
    rw [Placeholder.kindOf_of_classify (Operand.classify_of_placeholder? hx)]
    simpa [Placeholder.isEllipsis] using h

theorem Expr.exists_of_ellipsis? {e : Expr} {hole : Placeholder} (h : e.ellipsis? = some hole) :
    e.placeholder? = some hole ∧ Placeholder.kindOf hole.name = .ellipsis := by
  obtain ⟨he, hkind⟩ := Option.filter_eq_some_iff.1 h
  refine ⟨he, ?_⟩
  rw [Placeholder.kindOf_of_classify (Expr.classify_of_placeholder? he)]
  simpa [Placeholder.isEllipsis] using hkind

theorem explains_ended {ls : List Link} {l : List (String × Expr)}
    (h : ls = [] ∨ ∃ op z, ls = [⟨op, z⟩] ∧ z.isEllipsis = true) :
    Explains (Link.sitesAll ls) l l (fun f => Link.Segments [] (Link.fillAll f ls)) := by
  obtain rfl | ⟨op, z, rfl, hz⟩ := h
  · exact explains_nil .nil
  · obtain ⟨hole, hhole, many⟩ := Operand.exists_of_isEllipsis hz
    have hsites := (Operand.of_placeholder? hhole).1
    have hfill : Link.fillAll [[]] [⟨op, z⟩] = [] := by simp [Link.fillAll, hsites, hz]
    rw [Link.sitesAll, hsites, Link.sitesAll, List.append_nil]
    exact explains_none many (by rw [hfill]; exact .nil)

theorem explain_name {f g : String} {l l' : List (String × Expr)} (plain : Placeholder.classify g = none)
    (h : matchName record f g l = (true, l')) : Explains (sitesOfName true f) l l' (fun n => fillName f n = g) := by
  unfold matchName at h
  cases hf : Placeholder.classify f with
  | some hole =>
    rw [hf] at h
    cases h
    rw [sitesOfName, hf, Placeholder.name_of_classify hf]
    have hg : (Expr.ident g).holes = [] := by simp [Expr.ident, Expr.ofOperand, Expr.holes, Operand.holes, Link.holesAll, plain]
    exact ⟨[[.ident g]], .cons ⟨by simpa using hg, fun _ => ⟨_, rfl⟩, fun _ => ⟨g, rfl⟩⟩ .nil, rfl, rfl⟩
  | none =>
    rw [hf, plain] at h
    obtain ⟨hfg, rfl⟩ := Attempt.verdict_eq_true.1 h
    rw [sitesOfName, hf]
    exact explains_nil (eq_of_beq hfg)

/-! ### Arguments -/

theorem explains_exhausted {ps : List Expr} {l : List (String × Expr)} (h : exhausted ps = true) :
    Explains (Expr.sitesAll ps) l l (fun f => List.Forall₂ Expr.SameTree (Expr.fillAll f ps) []) := by
  match ps, h with
  | [], _ => exact explains_nil .nil
  | [p], h =>
    obtain ⟨hole, hp⟩ := Option.isSome_iff_exists.1 h
    obtain ⟨hhole, many⟩ := Expr.exists_of_ellipsis? hp
    obtain ⟨hsites, -⟩ := Expr.of_placeholder? hhole
    have hfill : Expr.fillAll [[]] [p] = [] := by simp [Expr.fillAll, hsites, Expr.isSlot, hp]
    rw [Expr.sitesAll, hsites, Expr.sitesAll, List.append_nil]
    exact explains_none many (by rw [hfill]; exact .nil)

theorem Expr.sameTree_argument {p c : Expr} {f : Filling} (takes : List.Forall₂ Site.Takes p.sites f) (hp : p.ellipsis? = none)
    (same : (p.fill f).SameTree c) : List.Forall₂ Expr.SameTree (if p.isSlot then f.flatten else [p.fill f]) [c] := by
  split
  · rename_i hslot
    unfold Expr.isSlot at hslot
    rw [hp, Option.isSome_none, Bool.false_or] at hslot
    split at hslot
    · rename_i name
      obtain ⟨hole, hname⟩ := Option.isSome_iff_exists.1 hslot
      have hhole : (Expr.ident name).placeholder? = some hole := hname
      have single : isEllipsisName name = false := by
        have : (Expr.ident name).ellipsis? = none := hp
        simpa [Expr.ellipsis?, isEllipsisName, hname] using this
      have hsites : (Expr.ident name).sites = [⟨name, false⟩] := by
        rw [(Expr.of_placeholder? hhole).1, Placeholder.name_of_classify hname]
      obtain ⟨e, rfl, -⟩ := takes_single hname single (hsites ▸ takes)
      have same : Tree.Rel Operand.Same ((Expr.ident name).fill [[e]]).tree c.tree := same
      rw [Expr.tree_fill_hole hhole] at same
      exact .cons same .nil
    · cases hslot
  · exact .cons same .nil

/-! ### Whole matches -/

theorem Explains.more {name : String} {sites : List Site} {l l' : List (String × Expr)} {e : Expr} {P Q : Filling → Prop}
    (plain : e.holes = []) (many : Placeholder.kindOf name = .ellipsis)
    (h : Explains (⟨name, false⟩ :: sites) (l ++ [(name, e)]) l' P) (hPQ : ∀ es f, P (es :: f) → Q ((e :: es) :: f)) :
    Explains (⟨name, false⟩ :: sites) l l' Q := by
  obtain ⟨filling, takes, rfl, hp⟩ := h
  cases takes with
  | @cons _ es _ f own rest =>
    refine ⟨(e :: es) :: f, .cons ⟨List.forall_mem_cons.2 ⟨plain, own.plain⟩, by simp [many], nofun⟩ rest, ?_, hPQ es f hp⟩
    simp [reports]

mutual

theorem explain_expr {p c : Expr} {l l' : List (String × Expr)} (plain : c.holes = [])
    (h : matchExpr record p c l = (true, l')) : Explains p.sites l l' (fun f => (p.fill f).SameTree c) := by
  cases hp : p.placeholder? with
  | some hole =>
    rw [matchExpr_hole record hp] at h
    cases h
    exact Expr.explain_hole hp plain
  | none =>
    rw [matchExpr_chain record hp (Expr.placeholder?_of_holes plain)] at h
    obtain ⟨x, ls, hx⟩ : ∃ x ls, p.bare = ⟨x, ls⟩ := by cases p.bare; exact ⟨_, _, rfl⟩
    obtain ⟨y, ms, hy⟩ : ∃ y ms, c.bare = ⟨y, ms⟩ := by cases c.bare; exact ⟨_, _, rfl⟩
    have plainBare : c.bare.holes = [] := (Expr.holes_bare c).trans plain
    rw [hy] at plainBare
    rw [hx, hy] at h
    have chain := explain_start plainBare h
    rw [← hx, Expr.sites_bare] at chain
    refine chain.imp (fun f takes segmented => ?_)
    have same := segmented.sameTree
    unfold Expr.SameTree at same ⊢
    rwa [Expr.tree_fill_bare takes.length_eq.symm, ← hy, Expr.tree_bare] at same
termination_by 5 * (p.size + c.size) + 3
decreasing_by
  have hp := p.size_bare_le
  have hc := c.size_bare_le
  rw [hx, Expr.size] at hp
  rw [hy, Expr.size] at hc
  omega

theorem explain_start {x y : Operand} {ls ms : List Link} {l l' : List (String × Expr)}
    (plain : (⟨y, ms⟩ : Expr).holes = []) (h : matchChain record ⟨none, x, ls⟩ ⟨none, y, ms⟩ l = (true, l')) :
    Explains (⟨x, ls⟩ : Expr).sites l l' (fun f => Expr.Segmented ⟨y, ms⟩ (Expr.fill f ⟨x, ls⟩)) := by
  obtain ⟨plainHere, plainRest⟩ := Expr.holes_eq_nil.1 plain
  have steady : Cursor.Steady ⟨none, y, ms⟩ := Cursor.steady_of_isEllipsis (Operand.isEllipsis_of_holes plainHere)
    (fun m hm => Operand.isEllipsis_of_holes (plainRest m hm))
  obtain ⟨hole, seg, rest, c, hx, hms, rfl, hsteady, -, next, hrest⟩ | ⟨hx, l₁, hop, hrest⟩ := matchChain_cases plainHere h
  · rw [hms] at plainRest ⊢
    obtain ⟨plainSeg, plainBehind⟩ := List.forall_mem_append.1 plainRest
    obtain behind | ⟨op, hop, -⟩ := explain_rest (hsteady steady) plainBehind hrest
    · refine (Operand.explain_hole hx (Expr.holes_eq_nil.2 ⟨plainHere, plainSeg⟩)).append behind (fun f g takes hf hg => ?_)
      rw [Expr.fill_append takes.length_eq.symm, hf]
      exact .mk next (Operand.sameTree_hole hx _) hg
    · cases hop
  · obtain behind | ⟨op, hop, -⟩ := explain_rest steady plainRest hrest
    · refine (explain_operand plainHere hop).append behind (fun f g takes same hg => ?_)
      rw [Expr.fill_append takes.length_eq.symm]
      exact @Expr.Segmented.mk _ _ [] _ _ (by simp) same.paren hg
    · cases hop
termination_by 5 * (x.size + Link.sizes ls + (y.size + Link.sizes ms)) + 2
decreasing_by
  · have := y.size_pos
    have : Link.sizes ms = Link.sizes seg + Link.sizes c.after := by rw [hms, Link.sizes_append]
    omega
  · have := y.size_pos
    show 5 * (x.size + Link.sizes ls + Link.sizes ms) + 3 < _
    omega
  · omega

theorem explain_chain {op : Operator} {x y : Operand} {ls ms : List Link} {l l' : List (String × Expr)}
    (plain : ∀ m ∈ (⟨op, y⟩ : Link) :: ms, m.operand.holes = [])
    (h : matchChain record ⟨some op, x, ls⟩ ⟨some op, y, ms⟩ l = (true, l')) :
    Explains (Link.sitesAll (⟨op, x⟩ :: ls)) l l'
      (fun f => Link.Segments (⟨op, y⟩ :: ms) (Link.fillAll f (⟨op, x⟩ :: ls))) := by
  obtain ⟨plainHere, plainRest⟩ := List.forall_mem_cons.1 plain
  have steady : Cursor.Steady ⟨some op, y, ms⟩ := Cursor.steady_of_isEllipsis (Operand.isEllipsis_of_holes plainHere)
    (fun m hm => Operand.isEllipsis_of_holes (plainRest m hm))
  obtain ⟨hole, seg, rest, c, hx, hms, rfl, hsteady, tight, next, hrest⟩ | ⟨hx, l₁, hop, hrest⟩ := matchChain_cases plainHere h
  · rw [hms] at plainRest ⊢
    obtain ⟨plainSeg, plainBehind⟩ := List.forall_mem_append.1 plainRest
    have plainCapture := Expr.holes_eq_nil.2 ⟨plainHere, plainSeg⟩
    obtain behind | ⟨_, hop, hell, again⟩ := explain_rest (hsteady steady) plainBehind hrest
    · refine (Operand.explain_hole hx plainCapture).append behind (fun f g takes hf hg => ?_)
      rw [Link.fillAll_append takes.length_eq.symm, hf]
      cases x.isEllipsis with
      | false => exact .cons tight next (Operand.sameTree_hole hx _) hg
      | true => exact .cons tight next (Operand.sameTree_group _) hg
    · -- one more operand for an ellipsis, joined by the operator in front of it
      cases hop
      obtain ⟨hsites, -⟩ := Operand.of_placeholder? hx
      obtain ⟨hole', hhole, many⟩ := Operand.exists_of_isEllipsis hell
      cases hx.symm.trans hhole
      rw [Link.sitesAll, hsites] at again ⊢
      refine again.more ((Expr.holes_bare _).trans plainCapture) many (fun es f hes => ?_)
      have hfill : ∀ es, Link.fillAll (es :: f) (⟨op, x⟩ :: ls) = es.map (fun e => ⟨op, .group e⟩) ++ Link.fillAll f ls := by
        intro es
        rw [← List.singleton_append, Link.fillAll_append (by rw [hsites]; rfl), hell]
        simp
      rw [hfill] at hes ⊢
      exact .cons tight next (Operand.sameTree_group _) hes
  · obtain behind | ⟨_, -, hell, -⟩ := explain_rest steady plainRest hrest
    · refine (explain_operand plainHere hop).append behind (fun f g takes same hg => ?_)
      rw [Link.fillAll_append takes.length_eq.symm, Operand.isEllipsis_of_placeholder?_eq_none hx]
      exact @Link.Segments.cons _ _ _ [] _ _ (by simp) (by simp) same.paren hg
    · rw [Operand.isEllipsis_of_placeholder?_eq_none hx] at hell
      cases hell
termination_by 5 * (x.size + Link.sizes ls + (y.size + Link.sizes ms)) + 2
decreasing_by
  · have := y.size_pos
    have : Link.sizes ms = Link.sizes seg + Link.sizes c.after := by rw [hms, Link.sizes_append]
    omega
  · have := y.size_pos
    show 5 * (x.size + Link.sizes ls + Link.sizes ms) + 3 < _
    omega
  · omega

theorem explain_rest {before : Option Operator} {x : Operand} {ls : List Link} {c : Cursor} {l l' : List (String × Expr)}
    (steady : c.Steady) (plain : ∀ m ∈ c.after, m.operand.holes = [])
    (h : matchRest record ⟨before, x, ls⟩ c l = (true, l')) :
    Explains (Link.sitesAll ls) l l' (fun f => Link.Segments c.after (Link.fillAll f ls)) ∨
      ∃ op, before = some op ∧ x.isEllipsis = true ∧
        Explains (Link.sitesAll (⟨op, x⟩ :: ls)) l l' (fun f => Link.Segments c.after (Link.fillAll f (⟨op, x⟩ :: ls))) := by
  obtain ⟨hafter, rfl, hls⟩ | ⟨op, z, zs, y, ms, hls, hafter, hm⟩ | ⟨op, y, ms, rfl, hx, hafter, hm⟩ := matchRest_cases steady h
  · rw [hafter]
    exact .inl (explains_ended hls)
  · rw [hafter] at plain ⊢
    rw [hls]
    exact .inl (explain_chain plain hm)
  · rw [hafter] at plain ⊢
    exact .inr ⟨op, rfl, hx, explain_chain plain hm⟩
termination_by 5 * (x.size + Link.sizes ls + Link.sizes c.after) + 3
decreasing_by
  · have := x.size_pos
    rw [hafter, hls, Link.sizes, Link.sizes]
    omega
  · rw [hafter, Link.sizes]
    omega

theorem explain_operand {x y : Operand} {l l' : List (String × Expr)} (plain : y.holes = [])
    (h : matchOperand record x y l = (true, l')) : Explains x.sites l l' (fun f => (x.fill f).SameTree y) := by
  cases hx : x.placeholder? with
  | some hole =>
    rw [matchOperand_hole record hx] at h
    cases h
    refine (Operand.explain_hole (e := .ofOperand y) hx (Expr.holes_eq_nil.2 ⟨plain, by simp⟩)).imp (fun f _ hf => ?_)
    have same := Operand.sameTree_hole hx (.ofOperand y)
    unfold Operand.SameTree at same ⊢
    rwa [Operand.tree, Expr.ofOperand, Expr.tree_single, ← Expr.ofOperand, ← hf] at same
  | none =>
    rw [matchOperand_bare record hx (Operand.placeholder?_of_holes plain)] at h
    have bare := explain_bare ((Operand.holes_bare y).trans plain) h
    rw [Operand.sites_bare] at bare
    refine bare.imp (fun f takes same => ?_)
    unfold Operand.SameTree at same ⊢
    rwa [Operand.tree_fill_bare takes.length_eq.symm, Operand.tree_bare] at same
termination_by 5 * (x.size + y.size) + 1
decreasing_by
  have := x.size_bare_le
  have := y.size_bare_le
  omega

theorem explain_bare {x y : Operand} {l l' : List (String × Expr)} (plain : y.holes = [])
    (h : matchBare record x y l = (true, l')) : Explains x.sites l l' (fun f => (x.fill f).SameTree y) := by
  obtain ⟨a, hx, hy, rfl⟩ | ⟨a, b, hx, hy, hab, rfl⟩ | ⟨f, g, ps, cs, l₁, hx, hy, hname, hargs⟩ |
    ⟨a, b, hx, hy, hab⟩ | ⟨op, a, b, hx, hy, hab⟩ := matchBare_cases h <;> rw [hy] at plain ⊢ <;> rw [hx]
  · have hname := classify_of_holes plain
    rw [Operand.sites, sitesOfName, hname]
    exact explains_nil (by rw [Operand.fill, hname]; exact Operand.sameTree_refl _)
  · exact explains_nil (.leaf (.lit (.inr hab)))
  · obtain ⟨plainName, plainArgs⟩ := List.append_eq_nil_iff.1 plain
    refine (explain_name (classify_of_holes plainName) hname).append
      (explain_args (Expr.holesAll_eq_nil.1 plainArgs) hargs) (fun n m takes hn hm => ?_)
    rw [Operand.fill, takes.length_eq, List.take_left, List.drop_left, hn]
    exact .leaf (.call g hm)
  · exact explain_expr plain hab
  · exact (explain_operand (x := a) (y := b) plain hab).imp (fun f _ same => .leaf (.unary op same))
termination_by 5 * (x.size + y.size)
decreasing_by
  all_goals
    rw [hx, hy, Operand.size, Operand.size]
    omega

theorem explain_args {l l' : List (String × Expr)} : ∀ {ps cs : List Expr}, (∀ c ∈ cs, c.holes = []) →
    matchArgs record ps cs l = (true, l') →
      Explains (Expr.sitesAll ps) l l' (fun f => List.Forall₂ Expr.SameTree (Expr.fillAll f ps) cs)
  | ps, [], _, h => by
    rw [matchArgs_none] at h
    obtain ⟨hps, rfl⟩ := Attempt.verdict_eq_true.1 h
    exact explains_exhausted hps
  | [], c :: cs, plain, h => by
    rw [matchArgs_nil] at h
    obtain ⟨hcs, -⟩ := Attempt.verdict_eq_true.1 h
    cases cs with
    | nil =>
      rw [exhausted, Expr.ellipsis?_of_holes (plain c List.mem_cons_self)] at hcs
      cases hcs
    | cons d ds => cases hcs
  | p :: ps, c :: cs, plain, h => by
    obtain ⟨plainHere, plainRest⟩ := List.forall_mem_cons.1 plain
    cases hp : p.ellipsis? with
    | some hole =>
      obtain ⟨hhole, many⟩ := Expr.exists_of_ellipsis? hp
      obtain ⟨hsites, -⟩ := Expr.of_placeholder? hhole
      have hslot : p.isSlot = true := by simp [Expr.isSlot, hp]
      rw [matchArgs_ellipsis record hp, Attempt.andThen_of_true (reports_record _ _ l)] at h
      have again := explain_args plainRest h
      rw [Expr.sitesAll, hsites] at again ⊢
      refine again.more ((Expr.holes_bare _).trans plainHere) many (fun es f hes => ?_)
      have hfill : ∀ es, Expr.fillAll (es :: f) (p :: ps) = es ++ Expr.fillAll f ps := by
        intro es
        rw [← List.singleton_append, Expr.fillAll_append (by rw [hsites]; rfl), if_pos hslot]
        simp
      have same : c.bare.SameTree c := by
        unfold Expr.SameTree
        rw [Expr.tree_bare]
        exact Expr.sameTree_refl c
      rw [hfill] at hes ⊢
      exact .cons same hes
    | none =>
      rw [matchArgs_each record hp (Expr.ellipsis?_of_holes plainHere)] at h
      obtain ⟨l₁, hexpr, hargs⟩ := Attempt.andThen_eq_true.1 h
      refine (explain_expr plainHere hexpr).append (explain_args plainRest hargs) (fun f g takes same hg => ?_)
      rw [Expr.fillAll_append takes.length_eq.symm]
      exact List.rel_append (Expr.sameTree_argument takes hp same) hg
termination_by ps cs => 5 * (Expr.sizes ps + Expr.sizes cs) + 4
decreasing_by
  all_goals
    simp only [Expr.sizes]
    have := c.size_pos
    omega

end

/-- **A match loses nothing**: when a candidate without placeholders is matched, the captures fill the placeholders of the
pattern from left to right, one for each that is no ellipsis, and the pattern filled with them has the precedence tree of
the candidate. -/
theorem matches_are_instances {p c : Expr} {log : List (String × Expr)} (plain : c.holes = [])
    (h : p.matchLog (fun _ _ => true) c = (true, log)) :
    ∃ filling, List.Forall₂ Site.Takes p.sites filling ∧ log = reports p.sites filling ∧ (p.fill filling).SameTree c :=
  explain_expr plain h

theorem matches_are_instances_sum :
    let p : Expr := ⟨.ident "_a", [⟨.add, .ident "__b"⟩]⟩
    let c : Expr := ⟨.ident "x", [⟨.mul, .ident "y"⟩, ⟨.add, .ident "z"⟩, ⟨.mul, .ident "x"⟩, ⟨.add, .call "f" [.ident "x"]⟩]⟩
    ∃ filling, List.Forall₂ Site.Takes p.sites filling ∧
      [("_a", (⟨.ident "x", [⟨.mul, .ident "y"⟩]⟩ : Expr)), ("__b", ⟨.ident "z", [⟨.mul, .ident "x"⟩]⟩),
        ("__b", .call "f" [.ident "x"])] = reports p.sites filling ∧ (p.fill filling).SameTree c :=
  matches_are_instances (by decide) (by cbv)

end ChainCalc
