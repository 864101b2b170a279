import ChainCalc.Proofs.Renaming.Candidates
/-!
# Neutral names — renamings that no pattern could notice

A name is neutral if it is no ellipsis and stands in no pattern of the registry.  Where a neutral name is renamed to another one, the
registry settles all candidates as before, those with an ellipsis among their operands or arguments included: both names
are captured by the same placeholders, and neither captures anything itself (`suits_none`).
-/
namespace ChainCalc

/-! ### Chains side by side -/

section

variable {Q : Operand → Operand → Prop} {ls ls' : List Link}

theorem forall₂_span (floor : Nat) (h : List.Forall₂ (Link.Parallel Q) ls ls') :
    List.Forall₂ (Link.Parallel Q) (ls.takeWhile (fun l => floor < l.op.precedence))
        (ls'.takeWhile (fun l => floor < l.op.precedence)) ∧
      List.Forall₂ (Link.Parallel Q) (ls.dropWhile (fun l => floor < l.op.precedence))
        (ls'.dropWhile (fun l => floor < l.op.precedence)) := by
  induction h with
  | nil => exact ⟨.nil, .nil⟩
  | @cons l l' ls ls' head tail ih =>
    have hop := head.1
    by_cases hfloor : floor < l'.op.precedence
    · simp only [List.takeWhile_cons, List.dropWhile_cons, hop, hfloor, decide_true, if_true]
      exact ⟨.cons head ih.1, ih.2⟩
    · simp only [List.takeWhile_cons, List.dropWhile_cons, hop, hfloor, decide_false, Bool.false_eq_true, if_false]
      exact ⟨.nil, .cons head tail⟩

theorem trailingEllipsis_parallel (same : ∀ {o o'}, Q o o' → o'.isEllipsis = o.isEllipsis)
    (h : List.Forall₂ (Link.Parallel Q) ls ls') : trailingEllipsis ls' = trailingEllipsis ls := by
  cases h with
  | nil => rfl
  | cons head tail =>
    cases tail with
    | nil => exact same head.2
    | cons _ _ => rfl

end

theorem Cursor.before_walk (floor : Nat) : ∀ (before : Option Operator) (here : Operand) (ls : List Link),
    (walk floor before here ls).before = before ∨ ∃ op, (walk floor before here ls).before = some op ∧ floor < op.precedence
  | _, _, [] => .inl rfl
  | before, here, ⟨op, x⟩ :: ls => by
    rw [walk]
    split
    · rename_i hfloor
      rcases before_walk floor (some op) x ls with h | h
      · exact .inr ⟨op, h, hfloor⟩
      · exact .inr h
    · exact .inl rfl

theorem Cursor.repeats_segmentEnd {c : Cursor} {floor : Nat} {op : Operator} (hop : op.precedence ≤ floor)
    (hc : c.before ≠ some op) : (c.segmentEnd floor).repeats op = false := by
  have hbefore : (c.segmentEnd floor).before ≠ some op := by
    rcases before_walk floor c.before c.here c.after with h | ⟨op', h, hfloor⟩
    · exact fun h' => hc (h.symm.trans h')
    · intro h'
      cases h.symm.trans h'
      omega
  unfold repeats
  rw [beq_eq_false_iff_ne.2 hbefore, Bool.and_false]

theorem Attempt.andThen_verdict_false {σ : Type} (p : Attempt σ) (s : σ) : (p.andThen (Attempt.verdict false) s).1 = false := by
  unfold Attempt.andThen
  split <;> rfl

section

variable {S : Expr → Expr → Prop} {r r' : Bool × Captures}

theorem agree_of_false (h : r.1 = false) (h' : r'.1 = false) : Agree S r r' :=
  ⟨h'.trans h.symm, fun ht => by rw [h] at ht; cases ht⟩

end

theorem isEllipsis_of_single {hole : String} (h : Placeholder.classify hole = some ⟨hole, .single⟩) :
    (Operand.ident hole).isEllipsis = false := by
  unfold Operand.isEllipsis
  rw [Operand.placeholder?_ident, h]
  rfl

section

variable {Q : Operand → Operand → Prop} {S : Expr → Expr → Prop} (same : ∀ {o o'}, Q o o' → o'.isEllipsis = o.isEllipsis)
  (pieces : ∀ {a a'}, Expr.Parallel Q Q a a' → S a.bare a'.bare) (p : Pattern) {c c' : Expr}
  {hole : String} (hh : Placeholder.classify hole = some ⟨hole, .single⟩) {y y' : Operand} {ys ys' : List Link} (head : Q y y') (tail : List.Forall₂ (Link.Parallel Q) ys ys') {s s' : Captures}

include pieces hh head tail

/-- **A placeholder with an operator behind it**, beside two chains of the same operators. -/
theorem agree_hole_step {before before' : Option Operator} {op : Operator} {x : Operand} {xs : List Link}
    (last : trailingEllipsis (⟨op, x⟩ :: xs) = false) (hb : before ≠ some op) (size : y.size + Link.sizes ys ≤ c.size)
    (size' : y'.size + Link.sizes ys' ≤ c'.size)
    (next : ∀ {z z' : Operand} {zs zs' : List Link} {t t' : Captures}, Q z z' → List.Forall₂ (Link.Parallel Q) zs zs' →
      z.size + Link.sizes zs < c.size → z'.size + Link.sizes zs' < c'.size → SameCaptures S t t' →
        Agree S (matchChain (p.keepOwn c) ⟨some op, x, xs⟩ ⟨some op, z, zs⟩ t)
          (matchChain (p.keepOwn c') ⟨some op, x, xs⟩ ⟨some op, z', zs'⟩ t'))
    (captures : SameCaptures S s s') :
    Agree S (matchChain (p.keepOwn c) ⟨before', .ident hole, ⟨op, x⟩ :: xs⟩ ⟨before, y, ys⟩ s)
      (matchChain (p.keepOwn c') ⟨before', .ident hole, ⟨op, x⟩ :: xs⟩ ⟨before, y', ys'⟩ s') := by
  have single : (Operand.ident hole).isEllipsis = false := isEllipsis_of_single hh
  rw [← Operand.placeholder?_ident] at hh
  rw [matchChain_hole _ hh, matchChain_hole _ hh, Cursor.floor_step]
  generalize hfloor : max ((before'.map Operator.precedence).getD 0) op.precedence = floor
  have hop : op.precedence ≤ floor := hfloor ▸ Nat.le_max_right _ _
  obtain ⟨htaken, hleft⟩ := forall₂_span floor tail
  have hr : (Cursor.segmentEnd ⟨before, y, ys⟩ floor).repeats op = false := Cursor.repeats_segmentEnd hop hb
  have hr' : (Cursor.segmentEnd ⟨before, y', ys'⟩ floor).repeats op = false := Cursor.repeats_segmentEnd hop hb
  have hafter := Cursor.after_segmentEnd ⟨before, y, ys⟩ floor
  have hafter' := Cursor.after_segmentEnd ⟨before, y', ys'⟩ floor
  have hcut := congrArg Link.sizes (List.takeWhile_append_dropWhile (p := fun l : Link => decide (floor < l.op.precedence)) (l := ys))
  have hcut' := congrArg Link.sizes (List.takeWhile_append_dropWhile (p := fun l : Link => decide (floor < l.op.precedence)) (l := ys'))
  rw [Link.sizes_append] at hcut hcut'
  unfold Cursor.segment
  dsimp only at hafter hafter' ⊢
  generalize ys.takeWhile (fun l => decide (floor < l.op.precedence)) = seg at htaken hcut ⊢
  generalize ys'.takeWhile (fun l => decide (floor < l.op.precedence)) = seg' at htaken hcut' ⊢
  generalize ys.dropWhile (fun l => decide (floor < l.op.precedence)) = left at hleft hafter hcut
  generalize ys'.dropWhile (fun l => decide (floor < l.op.precedence)) = left' at hleft hafter' hcut'
  generalize Cursor.segmentEnd ⟨before, y, ys⟩ floor = fin at hr hafter ⊢
  generalize Cursor.segmentEnd ⟨before, y', ys'⟩ floor = fin' at hr' hafter' ⊢
  obtain ⟨fb, fh, fa⟩ := fin
  obtain ⟨fb', fh', fa'⟩ := fin'
  obtain rfl : fa = left := hafter
  obtain rfl : fa' = left' := hafter'
  cases hleft with
  | nil =>
    -- the placeholder has taken the rest of the chain, and the operator behind it finds nothing
    rw [matchRest_cons_nil _ _ _ _ _ _ hr, matchRest_cons_nil _ _ _ _ _ _ hr', last]
    exact agree_of_false (Attempt.andThen_verdict_false _ _) (Attempt.andThen_verdict_false _ _)
  | @cons l l' zs zs' hl hzs =>
    obtain ⟨b, z⟩ := l
    obtain ⟨b', z'⟩ := l'
    obtain ⟨hbb, hz⟩ := hl
    obtain rfl : b = b' := hbb
    rw [Link.sizes] at hcut hcut'
    have hy := y.size_pos
    have hy' := y'.size_pos
    have hz0 := z.size_pos
    have hz0' := z'.size_pos
    have taken : Agree S (p.keepOwn c hole (⟨y, seg⟩ : Expr).bare s) (p.keepOwn c' hole (⟨y', seg'⟩ : Expr).bare s') := by
      refine agree_keepOwn p hole (Expr.bare_beq_eq_false ?_) (Expr.bare_beq_eq_false ?_) (pieces ⟨head, htaken⟩) captures
      · rw [Expr.size]
        omega
      · rw [Expr.size]
        omega
    refine agree_andThen taken (fun captures => ?_)
    by_cases hop' : op = b
    · subst hop'
      rw [matchRest_same, matchRest_same]
      exact next hz hzs (by omega) (by omega) captures
    · rw [matchRest_differ _ hop' _ _ _ _ _ _ single hr, matchRest_differ _ hop' _ _ _ _ _ _ single hr']
      exact agree_verdict false captures

include same

/-- **The last placeholder of a pattern**, beside the rests of two chains. -/
theorem agree_hole_last {before before' : Option Operator} (size : y.size + Link.sizes ys < c.size)
    (size' : y'.size + Link.sizes ys' < c'.size) (captures : SameCaptures S s s') :
    Agree S (matchChain (p.keepOwn c) ⟨before', .ident hole, []⟩ ⟨before, y, ys⟩ s)
      (matchChain (p.keepOwn c') ⟨before', .ident hole, []⟩ ⟨before, y', ys'⟩ s') := by
  have single : (Operand.ident hole).isEllipsis = false := isEllipsis_of_single hh
  rw [← Operand.placeholder?_ident] at hh
  rw [matchChain_hole _ hh, matchChain_hole _ hh]
  generalize Cursor.floor ⟨before', .ident hole, []⟩ = floor
  obtain ⟨htaken, hleft⟩ := forall₂_span floor tail
  have hafter := Cursor.after_segmentEnd ⟨before, y, ys⟩ floor
  have hafter' := Cursor.after_segmentEnd ⟨before, y', ys'⟩ floor
  have hcut := congrArg Link.sizes (List.takeWhile_append_dropWhile (p := fun l : Link => decide (floor < l.op.precedence)) (l := ys))
  have hcut' := congrArg Link.sizes (List.takeWhile_append_dropWhile (p := fun l : Link => decide (floor < l.op.precedence)) (l := ys'))
  rw [Link.sizes_append] at hcut hcut'
  unfold Cursor.segment
  dsimp only at hafter hafter' ⊢
  generalize Cursor.segmentEnd ⟨before, y, ys⟩ floor = fin at hafter ⊢
  generalize Cursor.segmentEnd ⟨before, y', ys'⟩ floor = fin' at hafter' ⊢
  obtain ⟨fb, fh, fa⟩ := fin
  obtain ⟨fb', fh', fa'⟩ := fin'
  rw [← show fa = _ from hafter, ← show fa' = _ from hafter'] at hleft
  refine agree_andThen ?_ (fun captures => ?_)
  · refine agree_keepOwn p hole (Expr.bare_beq_eq_false ?_) (Expr.bare_beq_eq_false ?_) (pieces ⟨head, htaken⟩) captures
    · rw [Expr.size]
      omega
    · rw [Expr.size]
      omega
  · have htrailing := trailingEllipsis_parallel same hleft
    cases hleft with
    | nil =>
      rw [matchRest_nil_nil, matchRest_nil_nil]
      exact agree_verdict true captures
    | cons _ _ =>
      rw [matchRest_nil_cons _ _ _ _ _ _ single, matchRest_nil_cons _ _ _ _ _ _ single, htrailing]
      exact agree_verdict _ captures

end

/-! ### Neutral names -/

/-- **No ellipsis, and in no pattern of the standard registry.** -/
def isNeutral (name : String) : Bool :=
  !(Operand.ident name).isEllipsis && !Registry.standard.isHole name && !Registry.standard.isCallName name &&
    !Registry.standard.entries.any (fun e => e.patterns.any (fun p => p.expr.asIdent? == some name))

def Standard.HasPattern (p : Pattern) : Prop := ∃ entry ∈ Registry.standard.entries, p ∈ entry.patterns

section

variable {name : String} (neutral : isNeutral name = true)

include neutral

theorem isEllipsis_of_isNeutral {o : Operand} (ho : o.bare = .ident name) : o.isEllipsis = false := by
  simp only [isNeutral, Bool.and_eq_true, Bool.not_eq_true'] at neutral
  have single := neutral.1.1.1
  unfold Operand.isEllipsis Operand.placeholder? at single ⊢
  rw [ho]
  exact single

variable {p : Pattern} (hp : Standard.HasPattern p)

include hp

theorem binds_of_isNeutral : p.binds name = false := by
  obtain ⟨entry, he, hp⟩ := hp
  simp only [isNeutral, Bool.and_eq_true, Bool.not_eq_true'] at neutral
  cases hb : p.binds name with
  | false => rfl
  | true => exact absurd (Registry.isHole_of_mem he hp hb) (by rw [neutral.1.1.2]; simp)

theorem asCall?_of_isNeutral {f : String} {args : List Expr} (hcall : p.expr = .call f args) : f ≠ name := by
  rintro rfl
  obtain ⟨entry, he, hp⟩ := hp
  simp only [isNeutral, Bool.and_eq_true, Bool.not_eq_true'] at neutral
  exact absurd (Registry.isCallName_of_mem he hp (by rw [hcall]; rfl)) (by rw [neutral.1.2]; simp)

theorem asIdent?_of_isNeutral {f : String} (hident : p.expr = .ident f) : f ≠ name := by
  rintro rfl
  obtain ⟨entry, he, hp⟩ := hp
  simp only [isNeutral, Bool.and_eq_true, Bool.not_eq_true'] at neutral
  refine absurd (List.any_eq_true.2 ⟨entry, he, List.any_eq_true.2 ⟨p, hp, ?_⟩⟩) (by rw [neutral.2]; simp)
  rw [hident]
  exact beq_self_eq_true _

end

theorem isSpecial_of_hasPattern {p : Pattern} (hp : Standard.HasPattern p) {f : String} {args : List Expr}
    (hcall : p.expr = .call f args) : isSpecial f = false := by
  obtain ⟨entry, he, hp⟩ := hp
  have hname : Registry.standard.isCallName f = true := Registry.isCallName_of_mem he hp (by rw [hcall]; rfl)
  have none : (["define", "lambda", "block"].any Registry.standard.isCallName) = false := by decide +kernel
  cases hf : isSpecial f with
  | false => rfl
  | true =>
    simp only [isSpecial, Bool.or_eq_true, beq_iff_eq] at hf
    refine absurd hname (List.any_eq_false.1 none f ?_)
    simp only [List.mem_cons, List.not_mem_nil, or_false]
    tauto

/-! ### Renamed operands -/

theorem OperandRenamed.bare {care : Care} {x y : String} {on : Bool} {o o' : Operand} (h : OperandRenamed care x y on o o') :
    OperandRenamed care x y on o.bare o'.bare := by
  fun_induction Operand.bare o generalizing o' with
  | case1 o ih =>
    cases h with
    | paren inside =>
      cases inside with
      | mk head tail =>
        cases tail
        have inner := ih head
        exact inner
  | case2 o hne =>
    have hne' : ∀ z, o' ≠ .paren ⟨z, []⟩ := by
      rintro z rfl
      cases h with
      | paren inside =>
        cases inside with
        | mk head tail =>
          cases tail
          exact hne _ rfl
    have hbare : o'.bare = o' := by
      unfold Operand.bare
      split
      · exact absurd rfl (hne' _)
      · rfl
    rw [hbare]
    exact h

section

variable {x y : String} {on : Bool} {o o' : Operand} (h : OperandRenamed .none x y on o o')

include h

theorem OperandRenamed.placeholder? : o'.placeholder? = o.placeholder? ∨ o.bare = .ident x ∧ o'.bare = .ident y := by
  have hbare := h.bare
  unfold Operand.placeholder?
  generalize o.bare = b at hbare ⊢
  generalize o'.bare = b' at hbare ⊢
  cases hbare with
  | parameter => exact .inr ⟨rfl, rfl⟩
  | _ => exact .inl rfl

variable (hx : isNeutral x = true) (hy : isNeutral y = true)

include hx hy

theorem OperandRenamed.isEllipsis : o'.isEllipsis = o.isEllipsis := by
  rcases h.placeholder? with heq | ⟨hox, hoy⟩
  · unfold Operand.isEllipsis
    rw [heq]
  · rw [isEllipsis_of_isNeutral hx hox, isEllipsis_of_isNeutral hy hoy]

end

theorem ExprRenamed.ellipsis? {x y : String} {on : Bool} {e e' : Expr} (h : ExprRenamed .none x y on e e')
    (hx : isNeutral x = true) (hy : isNeutral y = true) : e'.ellipsis? = e.ellipsis? := by
  have hbare := h.bare
  unfold Expr.ellipsis? Expr.placeholder?
  generalize e.bare = b at hbare ⊢
  generalize e'.bare = b' at hbare ⊢
  cases hbare with
  | mk head tail =>
    cases tail with
    | cons _ _ _ _ _ => rfl
    | nil =>
      dsimp only
      have single : ∀ {u : Operand}, u.isEllipsis = false → u.placeholder?.filter Placeholder.isEllipsis = none := by
        intro u hu
        rw [Option.filter_eq_none_iff]
        intro k hk
        unfold Operand.isEllipsis at hu
        rw [hk] at hu
        simpa using hu
      rcases head.placeholder? with heq | ⟨hox, hoy⟩
      · rw [heq]
      · rw [single (isEllipsis_of_isNeutral hx hox), single (isEllipsis_of_isNeutral hy hoy)]

/-! ### Matches of renamed operands -/

section

variable {x y : String} (hx : isNeutral x = true) (hy : isNeutral y = true) {on : Bool} {p : Pattern} {c c' : Expr}
  (other : ∀ z, (Expr.ident z == c) = false) (other' : ∀ z, (Expr.ident z == c') = false)

theorem ExprRenamed.ident {z : String} (zx : z ≠ x) (zy : z ≠ y) : ExprRenamed .none x y on (.ident z) (.ident z) :=
  .ofOperand (.name zy (fun h => absurd h zx))

include hx hy other other'

/-- **Arguments against placeholders**, an ellipsis among the arguments included: it takes a placeholder of the pattern on
both sides. -/
theorem agree_args {cs cs' : List Expr} (renamed : List.Forall₂ (ExprRenamed .none x y on) cs cs') :
    ∀ {holes : List String} {s s' : Captures}, (∀ a ∈ cs, a.size < c.size) → (∀ a ∈ cs', a.size < c'.size) →
      (∀ h ∈ holes, (Placeholder.classify h).isSome = true ∧ h ≠ x ∧ h ≠ y) → SameCaptures (ExprRenamed .none x y on) s s' →
      Agree (ExprRenamed .none x y on) (matchArgs (p.keepOwn c) (holes.map Expr.ident) cs s)
        (matchArgs (p.keepOwn c') (holes.map Expr.ident) cs' s') := by
  induction renamed with
  | nil =>
    intro holes s s' _ _ _ captures
    rw [matchArgs_none, matchArgs_none]
    exact agree_verdict _ captures
  | @cons a a' cs cs' ha htail ih =>
    intro holes s s' size size' own captures
    have size₁ := fun e he => size e (List.mem_cons_of_mem _ he)
    have size₁' := fun e he => size' e (List.mem_cons_of_mem _ he)
    have hell := ha.ellipsis? hx hy
    have taken : ∀ (name : String) {s s' : Captures}, SameCaptures (ExprRenamed .none x y on) s s' →
        Agree (ExprRenamed .none x y on) (p.keepOwn c name a.bare s) (p.keepOwn c' name a'.bare s') := fun name _ _ =>
      agree_keepOwn p name (Expr.bare_beq_eq_false (size a List.mem_cons_self))
        (Expr.bare_beq_eq_false (size' a' List.mem_cons_self)) ha.bare
    induction holes generalizing s s' with
    | nil =>
      have hex : exhausted (a' :: cs') = exhausted (a :: cs) := by
        cases htail with
        | nil => simp only [exhausted, hell]
        | cons _ _ => rfl
      rw [List.map_nil, matchArgs_nil, matchArgs_nil, hex]
      exact agree_verdict _ captures
    | cons name holes ihh =>
      obtain ⟨⟨hole, hnx, hny⟩, own₁⟩ := List.forall_mem_cons.1 own
      obtain ⟨k, hk⟩ := Option.isSome_iff_exists.1 hole
      rw [← Expr.placeholder?_ident] at hk
      rw [List.map_cons]
      cases hp : (Expr.ident name).ellipsis? with
      | some k =>
        rw [matchArgs_ellipsis _ hp, matchArgs_ellipsis _ hp]
        exact agree_andThen (taken _ captures) (fun captures => ih size₁ size₁' own captures)
      | none =>
        cases hc : a.ellipsis? with
        | some k =>
          rw [matchArgs_candidate_ellipsis _ hp hc, matchArgs_candidate_ellipsis _ hp (hell.trans hc), Expr.bare_ident]
          exact agree_andThen (agree_keepOwn p _ (other name) (other' name) (.ident hnx hny) captures)
            (fun captures => ihh own₁ captures)
        | none =>
          rw [matchArgs_each _ hp hc, matchArgs_each _ hp (hell.trans hc), matchExpr_hole _ hk, matchExpr_hole _ hk]
          exact agree_andThen (taken _ captures) (fun captures => ih size₁ size₁' own₁ captures)

variable (has : Standard.HasPattern p)

include has

/-- **A call of one name** with renamed arguments. -/
theorem agree_call {g : String} {holes : List String} (hp : p.expr = .call g (holes.map Expr.ident))
    (plain : Placeholder.classify g = none) (own : ∀ h ∈ holes, (Placeholder.classify h).isSome = true ∧ h ≠ x ∧ h ≠ y)
    (f : String) {args args' : List Expr} (renamed : List.Forall₂ (ExprRenamed .none x y on) args args')
    (size : ∀ a ∈ args, a.size < c.size) (size' : ∀ a ∈ args', a.size < c'.size) {s s' : Captures}
    (captures : SameCaptures (ExprRenamed .none x y on) s s') :
    Agree (ExprRenamed .none x y on)
      (((matchName (p.keepOwn c) g f).andThen (matchArgs (p.keepOwn c) (holes.map Expr.ident) args)) s)
      (((matchName (p.keepOwn c') g f).andThen (matchArgs (p.keepOwn c') (holes.map Expr.ident) args')) s') := by
  refine agree_andThen ?_ (fun captures => agree_args hx hy other other' renamed size size' own captures)
  cases hf : Placeholder.classify f with
  | none =>
    rw [matchName_plain _ plain hf, matchName_plain _ plain hf]
    exact agree_verdict _ captures
  | some k =>
    rw [matchName_candidate_hole _ plain hf, matchName_candidate_hole _ plain hf]
    exact agree_keepOwn p _ (other g) (other' g)
      (.ident (asCall?_of_isNeutral hx has hp) (asCall?_of_isNeutral hy has hp)) captures

omit other other' in
theorem ne_of_binds {h : String} (binds : p.binds h = true) : h ≠ x ∧ h ≠ y := by
  constructor
  · rintro rfl
    rw [binds_of_isNeutral hx has] at binds
    cases binds
  · rintro rfl
    rw [binds_of_isNeutral hy has] at binds
    cases binds

omit other other' in
theorem own_of_call {g : String} {holes : List String} (hp : p = .ofExpr (.call g (holes.map Expr.ident)))
    (hole : ∀ h ∈ holes, (Placeholder.classify h).isSome = true) :
    ∀ h ∈ holes, (Placeholder.classify h).isSome = true ∧ h ≠ x ∧ h ≠ y := by
  intro h hh
  have binds : p.binds h = true := by
    rw [hp]
    simp [Pattern.binds, Pattern.ofExpr, Expr.call, Expr.ofOperand, Expr.holes, Operand.holes, Link.holesAll,
      Standard.holesAll_ident hole, hh]
  exact ⟨hole h hh, ne_of_binds hx hy has binds⟩

omit other other' hx hy in
/-- **A neutral name is refused** by what is no placeholder. -/
theorem refuses_neutral {z : String} (neutral : isNeutral z = true) {q o : Operand} (hp : p.expr = .ofOperand q)
    (hq : q.placeholder? = none) (bare : q.bare = q) (ho : o.bare = .ident z) (s : Captures) :
    (matchOperand (p.keepOwn c) q o s).1 = false := by
  cases hz : o.placeholder? with
  | some k =>
    have hk : k.name = z := by
      unfold Operand.placeholder? at hz
      rw [ho] at hz
      exact Placeholder.name_of_classify hz
    rw [matchOperand_candidate_hole _ hq hz, hk]
    unfold Pattern.keepOwn
    rw [binds_of_isNeutral neutral has]
    rfl
  | none =>
    rw [matchOperand_bare _ hq hz, bare, ho]
    cases q with
    | ident f =>
      rw [matchBare]
      exact beq_eq_false_iff_ne.2 (asIdent?_of_isNeutral neutral has hp)
    | _ => simp [matchBare, Attempt.verdict]

omit other other' in
theorem OperandRenamed.pattern (standard : Standard.IsPattern p) {q : Operand} (hp : p.expr = .ofOperand q) :
    OperandRenamed .none x y on q q := by
  have name : ∀ {z : String}, z ≠ x ∧ z ≠ y → OperandRenamed .none x y on (.ident z) (.ident z) :=
    fun h => .name h.2 (fun heq => absurd heq h.1)
  cases standard with
  | binary op => cases hp
  | fused => cases hp
  | unary op =>
    cases hp
    exact .unary op (name (ne_of_binds hx hy has rfl))
  | name plain =>
    cases hp
    exact name ⟨asIdent?_of_isNeutral hx has rfl, asIdent?_of_isNeutral hy has rfl⟩
  | @call g holes plain hole =>
    cases hp
    have own := own_of_call hx hy has rfl hole
    have inside : ExprsRenamed .none x y on (holes.map Expr.ident) (holes.map Expr.ident) := by
      clear has hole
      induction holes with
      | nil => exact .nil on
      | cons h holes ih =>
        rw [List.forall_mem_cons] at own
        exact .cons (.ofOperand (name own.1.2)) (ih own.2)
    exact .call (isSpecial_of_hasPattern has rfl) (asCall?_of_isNeutral hy has rfl)
      (fun heq => absurd heq (asCall?_of_isNeutral hx has rfl)) trivial trivial inside

omit other other' hx hy has in
theorem refuses_name {g z : String} (plain : Placeholder.classify g = none)
    (hz : (Placeholder.classify z).isSome = true → p.binds z = false) (ne : g ≠ z) (then' : Attempt Captures) (s : Captures) :
    (((matchName (p.keepOwn c) g z).andThen then') s).1 = false := by
  refine Attempt.andThen_of_false ?_
  cases hk : Placeholder.classify z with
  | none =>
    rw [matchName_plain _ plain hk]
    exact beq_eq_false_iff_ne.2 ne
  | some k =>
    rw [matchName_candidate_hole _ plain hk, Placeholder.name_of_classify hk]
    unfold Pattern.keepOwn
    rw [hz (by rw [hk]; rfl)]
    rfl

end

/-! ### A pattern of one operand, and an operand of a longer chain -/

theorem ofOperand_beq_chain (q : Operand) {e : Expr} (long : e.isChain = true) : (Expr.ofOperand q == e) = false := by
  obtain ⟨first, rest⟩ := e
  cases rest with
  | nil => cases long
  | cons l ls =>
    show Expr.beq _ _ = false
    simp [Expr.ofOperand, Expr.beq, Link.beqList]

section

variable {x y : String} {on : Bool} {p : Pattern} {c c' : Expr} {o o' : Operand} (renamed : OperandRenamed .none x y on o o')
  (size : o.size < c.size) (size' : o'.size < c'.size) {s s' : Captures}
  (captures : SameCaptures (ExprRenamed .none x y on) s s')

include renamed captures

theorem agree_bare_name {f : String} (fx : f ≠ x) (fy : f ≠ y) :
    Agree (ExprRenamed .none x y on) (matchBare (p.keepOwn c) (.ident f) o s) (matchBare (p.keepOwn c') (.ident f) o' s') := by
  cases renamed with
  | name _ _ =>
    simp only [matchBare]
    exact agree_verdict _ captures
  | parameter =>
    simp only [matchBare]
    rw [beq_eq_false_iff_ne.2 fx, beq_eq_false_iff_ne.2 fy]
    exact agree_verdict false captures
  | _ =>
    simp only [matchBare]
    exact agree_verdict false captures

include size size'

theorem agree_bare_unary (op : Operator) {hole : Operand} {h : Placeholder} (hh : hole.placeholder? = some h) :
    Agree (ExprRenamed .none x y on) (matchBare (p.keepOwn c) (.unary op hole) o s)
      (matchBare (p.keepOwn c') (.unary op hole) o' s') := by
  cases renamed with
  | @unary _ u u' op' inside =>
    simp only [matchBare]
    rw [Operand.size] at size size'
    split
    · rw [matchOperand_hole _ hh, matchOperand_hole _ hh]
      refine agree_keepOwn _ _ (Expr.bare_beq_eq_false ?_) (Expr.bare_beq_eq_false ?_) (ExprRenamed.ofOperand inside).bare captures
      · rw [Expr.size_ofOperand]
        omega
      · rw [Expr.size_ofOperand]
        omega
    · exact agree_verdict false captures
  | _ =>
    simp only [matchBare]
    exact agree_verdict false captures

variable (hx : isNeutral x = true) (hy : isNeutral y = true) (has : Standard.HasPattern p) (long : c.isChain = true)
  (long' : c'.isChain = true)

include hx hy has long long'

theorem agree_bare_call {g : String} {holes : List String} (hp : p = .ofExpr (.call g (holes.map Expr.ident)))
    (plain : Placeholder.classify g = none) (hole : ∀ h ∈ holes, (Placeholder.classify h).isSome = true) :
    Agree (ExprRenamed .none x y on) (matchBare (p.keepOwn c) (.call g (holes.map Expr.ident)) o s)
      (matchBare (p.keepOwn c') (.call g (holes.map Expr.ident)) o' s') := by
  have hexpr : p.expr = .call g (holes.map Expr.ident) := by
    rw [hp]
    rfl
  -- the name of a special form is refused, whatever its arguments are
  have special : ∀ {f : String} {e : Expr} (t : Attempt Captures) (u : Captures), isSpecial f = true →
      Placeholder.classify f = none → (((matchName (p.keepOwn e) g f).andThen t) u).1 = false := by
    intro f e t u hf hnone
    refine refuses_name plain (fun h => by rw [hnone] at h; cases h) ?_ t u
    rintro rfl
    rw [isSpecial_of_hasPattern has hexpr] at hf
    cases hf
  cases renamed with
  | @call _ f args args' _ _ _ _ _ inside =>
    simp only [matchBare]
    have smaller : ∀ {as : List Expr} {e : Expr}, (Operand.call f as).size < e.size → ∀ a ∈ as, a.size < e.size := by
      intro as e he a ha
      have := Expr.size_le_sizes ha
      rw [Operand.size] at he
      omega
    exact agree_call hx hy (fun z => ofOperand_beq_chain _ long) (fun z => ofOperand_beq_chain _ long') has hexpr plain
      (own_of_call hx hy has hp hole) f inside.forall₂ (smaller size) (smaller size') captures
  | callParameter _ _ =>
    simp only [matchBare]
    exact agree_of_false
      (refuses_name plain (fun _ => binds_of_isNeutral hx has) (asCall?_of_isNeutral hx has hexpr) _ s)
      (refuses_name plain (fun _ => binds_of_isNeutral hy has) (asCall?_of_isNeutral hy has hexpr) _ s')
  | lambda _ _ _ _ =>
    simp only [matchBare]
    exact agree_of_false (special _ s rfl (by decide)) (special _ s' rfl (by decide))
  | block _ =>
    simp only [matchBare]
    exact agree_of_false (special _ s rfl (by decide)) (special _ s' rfl (by decide))
  | _ =>
    simp only [matchBare]
    exact agree_verdict false captures

/-- **One operand of a pattern against renamed operands** of longer chains. -/
theorem agree_operand (standard : Standard.IsPattern p) {q : Operand} (hp : p.expr = .ofOperand q)
    (hq : q.placeholder? = none) (bare : q.bare = q) (bare' : (Expr.ofOperand q).bare = .ofOperand q) :
    Agree (ExprRenamed .none x y on) (matchOperand (p.keepOwn c) q o s) (matchOperand (p.keepOwn c') q o' s') := by
  rcases renamed.placeholder? with heq | ⟨hox, hoy⟩
  · cases hk : o.placeholder? with
    | some k =>
      rw [matchOperand_candidate_hole _ hq hk, matchOperand_candidate_hole _ hq (heq.trans hk), bare']
      exact agree_keepOwn p _ (ofOperand_beq_chain q long) (ofOperand_beq_chain q long')
        (.ofOperand (.pattern hx hy has standard hp)) captures
    | none =>
      rw [matchOperand_bare _ hq hk, matchOperand_bare _ hq (heq.trans hk), bare]
      have inner := Nat.lt_of_le_of_lt o.size_bare_le size
      have inner' := Nat.lt_of_le_of_lt o'.size_bare_le size'
      cases standard with
      | binary op => cases hp
      | fused => cases hp
      | unary op =>
        cases hp
        have hole : (Operand.ident "_1").placeholder? = some ⟨"_1", .single⟩ := by decide
        exact agree_bare_unary renamed.bare inner inner' captures op hole
      | name plain =>
        cases hp
        exact agree_bare_name renamed.bare captures (asIdent?_of_isNeutral hx has rfl) (asIdent?_of_isNeutral hy has rfl)
      | call plain hole =>
        cases hp
        exact agree_bare_call renamed.bare inner inner' captures hx hy has long long' rfl plain hole
  · exact agree_of_false (refuses_neutral has hx hp hq bare hox s) (refuses_neutral has hy hp hq bare hoy s')

end

/-! ### Candidates -/

/-- One operand matches the first of a longer chain; an ellipsis may be all that is left. -/
theorem matchChain_one {σ : Type} (report : OnCapture σ) {q : Operand} (hq : q.placeholder? = none) (u : Operand) (l : Link)
    (ls : List Link) : matchChain report ⟨none, q, []⟩ ⟨none, u, l :: ls⟩ =
      (matchOperand report q u).andThen (Attempt.verdict (trailingEllipsis (l :: ls))) := by
  have rest := matchRest_nil_cons report none none u l ls (Operand.isEllipsis_of_placeholder?_eq_none hq)
  cases hu : u.placeholder? with
  | some k =>
    rw [matchChain_candidate_hole report hq hu, matchOperand_candidate_hole report hq hu]
    exact congrArg _ rest
  | none =>
    rw [matchChain_operand report hq hu]
    exact congrArg _ rest

theorem capture?_of_agree_chain {S : Expr → Expr → Prop} {p : Pattern} {c c' : Expr} (long : c.isChain = true)
    (long' : c'.isChain = true) (hp : p.expr.placeholder? = none) (bare : p.expr.bare = p.expr)
    (agree : Agree S (matchChain (p.keepOwn c) (.start p.expr) (.start c) .none)
      (matchChain (p.keepOwn c') (.start p.expr) (.start c') .none)) :
    Option.Rel (SameCaptures S) (p.capture? c) (p.capture? c') := by
  apply capture?_of_agree
  rw [matchExpr_chain _ hp (Expr.placeholder?_of_isChain long), matchExpr_chain _ hp (Expr.placeholder?_of_isChain long'),
    bare, Expr.bare_of_isChain long, Expr.bare_of_isChain long']
  exact agree

section

variable {x y : String} (hx : isNeutral x = true) (hy : isNeutral y = true) {on : Bool} {p : Pattern}
  (has : Standard.HasPattern p) (standard : Standard.IsPattern p)

include hx hy has standard

section

variable {u u' : Operand} {ls ls' : List Link} (head : OperandRenamed .none x y on u u')
  (tail : List.Forall₂ (Link.Parallel (OperandRenamed .none x y on)) ls ls') (long : (⟨u, ls⟩ : Expr).isChain = true)
  (long' : (⟨u', ls'⟩ : Expr).isChain = true)

include head tail long long'

theorem capture?_short_neutral {q : Operand} (hp : p.expr = .ofOperand q) (hq : q.placeholder? = none) (bare : q.bare = q)
    (bare' : (Expr.ofOperand q).bare = .ofOperand q) :
    Option.Rel (SameCaptures (ExprRenamed .none x y on)) (p.capture? ⟨u, ls⟩) (p.capture? ⟨u', ls'⟩) := by
  have hole : (Expr.ofOperand q).placeholder? = none := by
    unfold Expr.placeholder?
    rw [bare']
    exact hq
  have trailing := trailingEllipsis_parallel (fun h => h.isEllipsis hx hy) tail
  refine capture?_of_agree_chain long long' (by rw [hp, hole]) (by rw [hp, bare']) ?_
  rw [hp]
  change Agree _ (matchChain _ ⟨none, q, []⟩ ⟨none, u, ls⟩ _) (matchChain _ ⟨none, q, []⟩ ⟨none, u', ls'⟩ _)
  have smaller : ∀ {z : Operand} {ms : List Link}, (⟨z, ms⟩ : Expr).isChain = true → z.size < (⟨z, ms⟩ : Expr).size := by
    intro z ms hms
    cases ms with
    | nil => cases hms
    | cons l ms =>
      obtain ⟨op, m⟩ := l
      have := m.size_pos
      rw [Expr.size, Link.sizes]
      omega
  have first : Agree (ExprRenamed .none x y on) (matchOperand (p.keepOwn ⟨u, ls⟩) q u .none)
      (matchOperand (p.keepOwn ⟨u', ls'⟩) q u' .none) :=
    agree_operand head (smaller long) (smaller long') .nil hx hy has long long' standard hp hq bare bare'
  cases tail with
  | nil => cases long
  | cons _ _ =>
    rw [matchChain_one _ hq, matchChain_one _ hq, trailing]
    exact agree_andThen first (fun captures => agree_verdict _ captures)

/-- **A pattern beside a chain and the renamed one.** -/
theorem capture?_chain_neutral :
    Option.Rel (SameCaptures (ExprRenamed .none x y on)) (p.capture? ⟨u, ls⟩) (p.capture? ⟨u', ls'⟩) := by
  have same : ∀ {o o'}, OperandRenamed .none x y on o o' → o'.isEllipsis = o.isEllipsis := fun h => h.isEllipsis hx hy
  have pieces : ∀ {a a'}, Expr.Parallel (OperandRenamed .none x y on) (OperandRenamed .none x y on) a a' →
      ExprRenamed .none x y on a.bare a'.bare := fun h =>
    (exprRenamed_iff.2 ⟨h.1, h.2.imp (fun _ _ hl => ⟨hl.1, hl.2, trivial, trivial⟩)⟩).bare
  have whole : ∀ (z : Operand) (ms : List Link), z.size + Link.sizes ms ≤ (⟨z, ms⟩ : Expr).size := fun z ms =>
    Nat.le_of_eq (by rw [Expr.size])
  have short := @capture?_short_neutral x y hx hy on p has standard u u' ls ls' head tail long long'
  cases standard with
  | binary op =>
    have one : Placeholder.classify "_1" = some ⟨"_1", .single⟩ := by decide
    have two : Placeholder.classify "_2" = some ⟨"_2", .single⟩ := by decide
    refine capture?_of_agree_chain long long' rfl (Expr.bare_of_isChain rfl) ?_
    refine agree_hole_step pieces _ one head tail rfl (by simp) (whole u ls) (whole u' ls') ?_ .nil
    exact fun hz hzs size size' captures => agree_hole_last same pieces _ two hz hzs size size' captures
  | fused =>
    have first : Placeholder.classify "_a" = some ⟨"_a", .single⟩ := by decide
    have second : Placeholder.classify "_b" = some ⟨"_b", .single⟩ := by decide
    have third : Placeholder.classify "_c" = some ⟨"_c", .single⟩ := by decide
    refine capture?_of_agree_chain long long' rfl (Expr.bare_of_isChain rfl) ?_
    refine agree_hole_step pieces _ first head tail rfl (by simp) (whole u ls) (whole u' ls') ?_ .nil
    intro z z' zs zs' t t' hz hzs size size' captures
    refine agree_hole_step pieces _ second hz hzs rfl (by decide) (Nat.le_of_lt size) (Nat.le_of_lt size') ?_ captures
    exact fun hz hzs size size' captures => agree_hole_last same pieces _ third hz hzs size size' captures
  | unary op => exact short rfl rfl rfl rfl
  | name plain => exact short rfl plain rfl rfl
  | call plain hole => exact short rfl rfl rfl rfl

end

/-- **A pattern beside a call and the renamed one.** -/
theorem capture?_call_neutral {f : String} {args args' : List Expr}
    (renamed : List.Forall₂ (ExprRenamed .none x y on) args args') :
    Option.Rel (SameCaptures (ExprRenamed .none x y on)) (p.capture? (.call f args)) (p.capture? (.call f args')) :=
  capture?_call_of_agree standard (fun hp plain hole =>
    agree_call hx hy (fun z => ident_beq_call z f args) (fun z => ident_beq_call z f args') has (by rw [hp]; rfl) plain
      (own_of_call hx hy has hp hole) f renamed (size_lt_of_mem_call f) (size_lt_of_mem_call f) .nil)

end

/-- **Between neutral names nothing need be asked of a program.** -/
theorem suits_none {x y : String} (hx : isNeutral x = true) (hy : isNeutral y = true) : Care.none.Suits x y where
  group _ := trivial
  chain := by
    rintro on ⟨u, ls⟩ ⟨u', ls'⟩ long renamed
    have parallel := exprRenamed_iff.1 renamed
    exact find?_rel (fun entry he p hp => capture?_chain_neutral hx hy ⟨entry, he, hp⟩ (Standard.isPattern_of_mem he p hp)
      parallel.1 (parallel.2.imp (fun _ _ h => ⟨h.1, h.2.1⟩)) long (parallel.isChain.trans long))
  call renamed _ _ := find?_rel (fun entry he p hp =>
    capture?_call_neutral hx hy ⟨entry, he, hp⟩ (Standard.isPattern_of_mem he p hp) renamed)
  define _ _ _ _ renamed := by rw [renamed.ellipsis? hx hy]

/-- What is asked of a program: nothing between neutral names, and otherwise no ellipsis that would be taken for one. -/
def Care.asked (x y : String) : Care := if isNeutral x && isNeutral y then .none else .spelled x

theorem suits_asked {x y : String} (hname : Registry.standard.isCallName y = false) : (Care.asked x y).Suits x y := by
  unfold Care.asked
  split
  · rename_i neutral
    rw [Bool.and_eq_true] at neutral
    exact suits_none neutral.1 neutral.2
  · exact suits_spelled hname

end ChainCalc
