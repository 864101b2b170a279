import ChainCalc.Proofs.Standard.Chains
import ChainCalc.Proofs.Standard.Entries
/-!
# Candidates side by side — the standard registry looks at shapes

The patterns of the standard registry have placeholders for all operands and arguments, so that nothing but the shape of
a candidate decides which of them it matches: its operators, the name and the number of arguments of a call.  Two
candidates of one shape are settled by the same entry, with captures that correspond (`find?_parallel`).  That takes
candidates without an ellipsis, and calls of names that are no placeholders of a pattern.
-/
namespace ChainCalc

/-! ### Lists and chains side by side -/

theorem forall₂_append_left {α β : Type} {R : α → β → Prop} {l₂ : List α} : ∀ {l₁ : List α} {u : List β},
    List.Forall₂ R (l₁ ++ l₂) u → ∃ u₁ u₂, u = u₁ ++ u₂ ∧ List.Forall₂ R l₁ u₁ ∧ List.Forall₂ R l₂ u₂
  | [], u, h => ⟨[], u, rfl, .nil, h⟩
  | a :: l₁, u, h => by
    obtain ⟨b, u', hab, htail, rfl⟩ := List.forall₂_cons_left_iff.1 h
    obtain ⟨u₁, u₂, rfl, h₁, h₂⟩ := forall₂_append_left htail
    exact ⟨b :: u₁, u₂, rfl, .cons hab h₁, h₂⟩

def Link.Parallel (Q : Operand → Operand → Prop) (l l' : Link) : Prop := l.op = l'.op ∧ Q l.operand l'.operand

/-- Chains with the same operators between related operands; `Q` is for the operands behind an operator. -/
def Expr.Parallel (R Q : Operand → Operand → Prop) (e e' : Expr) : Prop :=
  R e.first e'.first ∧ List.Forall₂ (Link.Parallel Q) e.rest e'.rest

section

variable {R Q : Operand → Operand → Prop}

theorem Expr.Parallel.flip {e e' : Expr} (h : e.Parallel R Q e') : e'.Parallel (flip R) (flip Q) e := by
  refine ⟨h.1, List.Forall₂.flip (h.2.imp ?_)⟩
  rintro l l' ⟨hop, hQ⟩
  exact ⟨hop.symm, hQ⟩

theorem Expr.Parallel.isChain {e e' : Expr} (h : e.Parallel R Q e') : e'.isChain = e.isChain := by
  obtain ⟨first, rest⟩ := e
  obtain ⟨first', rest'⟩ := e'
  have hrest : List.Forall₂ (Link.Parallel Q) rest rest' := h.2
  cases hrest with
  | nil => rfl
  | cons _ _ => rfl

theorem precedence_of_forall₂ {p : Nat} {ls ls' : List Link} (h : List.Forall₂ (Link.Parallel Q) ls ls')
    (hp : ∀ l ∈ ls, p < l.op.precedence) : ∀ l ∈ ls', p < l.op.precedence := by
  induction h with
  | nil => exact fun _ hl => by cases hl
  | cons head _ ih =>
    rw [List.forall_mem_cons] at hp ⊢
    exact ⟨by rw [← head.1]; exact hp.1, ih hp.2⟩

variable (sub : ∀ {o o'}, Q o o' → R o o')

include sub

theorem Expr.CutAt.parallel {c c' a b : Expr} {op : Operator} (h : c.Parallel R Q c') (cut : c.CutAt op a b) :
    ∃ a' b', c'.CutAt op a' b' ∧ a.Parallel R Q a' ∧ b.Parallel R Q b' := by
  obtain ⟨rfl, ha, hb⟩ := cut
  obtain ⟨first', rest'⟩ := c'
  obtain ⟨hfirst, hrest⟩ := h
  obtain ⟨as', ls', rfl, has, hls⟩ := forall₂_append_left hrest
  obtain ⟨⟨op', y⟩, bs', ⟨hop, hy⟩, hbs, rfl⟩ := List.forall₂_cons_left_iff.1 hls
  obtain rfl : op = op' := hop
  exact ⟨⟨first', as'⟩, ⟨y, bs'⟩, ⟨rfl, precedence_of_forall₂ has ha, precedence_of_forall₂ hbs hb⟩, ⟨hfirst, has⟩,
    ⟨sub hy, hbs⟩⟩

theorem Expr.CutFused.parallel {c c' a b d : Expr} (h : c.Parallel R Q c') (cut : c.CutFused a b d) :
    ∃ a' b' d', c'.CutFused a' b' d' ∧ a.Parallel R Q a' ∧ b.Parallel R Q b' ∧ d.Parallel R Q d' := by
  obtain ⟨rfl, ha, hb, hd⟩ := cut
  obtain ⟨first', rest'⟩ := c'
  obtain ⟨hfirst, hrest⟩ := h
  obtain ⟨as', ls', rfl, has, hls⟩ := forall₂_append_left hrest
  obtain ⟨⟨op, y⟩, ms', ⟨hop, hy⟩, hms, rfl⟩ := List.forall₂_cons_left_iff.1 hls
  obtain ⟨bs', ns', rfl, hbs, hns⟩ := forall₂_append_left hms
  obtain ⟨⟨op', z⟩, ds', ⟨hop', hz⟩, hds, rfl⟩ := List.forall₂_cons_left_iff.1 hns
  obtain rfl : Operator.mul = op := hop
  obtain rfl : Operator.add = op' := hop'
  exact ⟨⟨first', as'⟩, ⟨y, bs'⟩, ⟨z, ds'⟩,
    ⟨rfl, precedence_of_forall₂ has ha, precedence_of_forall₂ hbs hb, precedence_of_forall₂ hds hd⟩,
    ⟨hfirst, has⟩, ⟨sub hy, hbs⟩, ⟨sub hz, hds⟩⟩

end

/-! ### The patterns -/

namespace Standard

inductive IsPattern : Pattern → Prop
  | binary (op : Operator) : IsPattern (.ofExpr (.binary (.ident "_1") op (.ident "_2")))
  | fused : IsPattern fusedPattern
  | unary (op : Operator) : IsPattern (.ofExpr (.unary op (.ident "_1")))
  | name {f : String} (plain : Placeholder.classify f = none) : IsPattern (.ofExpr (.ident f))
  | call {f : String} {holes : List String} (plain : Placeholder.classify f = none)
      (hole : ∀ h ∈ holes, (Placeholder.classify h).isSome = true) : IsPattern (.ofExpr (.call f (holes.map Expr.ident)))

theorem holesAll_ident {holes : List String} (hole : ∀ h ∈ holes, (Placeholder.classify h).isSome = true) :
    Expr.holesAll (holes.map Expr.ident) = holes := by
  induction holes with
  | nil => rfl
  | cons h hs ih =>
    rw [List.forall_mem_cons] at hole
    rw [List.map_cons, Expr.holesAll, ih hole.2]
    simp [Expr.ident, Expr.ofOperand, Expr.holes, Operand.holes, Link.holesAll, hole.1]

theorem isPattern_of_mem {entry : Entry} (h : entry ∈ Registry.standard.entries) : ∀ p ∈ entry.patterns, IsPattern p := by
  have hcall : ∀ {f : String} (holes : List String), Placeholder.classify f = none →
      (∀ h ∈ holes, (Placeholder.classify h).isSome = true) →
      ∀ p ∈ [Pattern.ofExpr (.call f (holes.map Expr.ident))], IsPattern p := by
    intro f holes hf hh p hp
    cases List.mem_singleton.1 hp
    exact .call hf hh
  simp only [Registry.standard, control, operators, arrays, workers, List.mem_append, List.mem_map, List.mem_cons,
    List.not_mem_nil, or_false] at h
  rcases h with ((((h | rfl) | ⟨op, -, rfl⟩ | h) | h) | rfl) | h
  · rcases h with rfl | rfl
    · exact hcall ["_cond", "_then", "_else"] (by decide) (by decide)
    · exact hcall ["_message"] (by decide) (by decide)
  · intro p hp
    rcases List.mem_cons.1 hp with rfl | hp
    · exact .fused
    · exact hcall ["_a", "_b", "_c"] (by decide) (by decide) p hp
  · intro p hp
    cases List.mem_singleton.1 hp
    exact .binary op
  · rcases h with rfl | rfl
    · intro p hp
      cases List.mem_singleton.1 hp
      exact .unary .sub
    · intro p hp
      cases List.mem_singleton.1 hp
      exact .unary .not
  · rcases h with rfl | rfl | rfl | rfl | rfl
    · exact hcall ["_first", "__rest"] (by decide) (by decide)
    · exact hcall ["_a"] (by decide) (by decide)
    · exact hcall ["_a"] (by decide) (by decide)
    · exact hcall ["_first", "__rest"] (by decide) (by decide)
    · exact hcall ["_n"] (by decide) (by decide)
  · intro p hp
    cases List.mem_singleton.1 hp
    exact .name (by decide)
  · rcases h with rfl | rfl | rfl
    · exact hcall [] (by decide) (by decide)
    · exact hcall [] (by decide) (by decide)
    · exact hcall ["_key"] (by decide) (by decide)

end Standard

/-! ### Captures side by side -/

abbrev SameCaptures (S : Expr → Expr → Prop) : Captures → Captures → Prop := Table.Parallel (List.Forall₂ S)

theorem SameCaptures.push {S : Expr → Expr → Prop} {c c' : Captures} (h : SameCaptures S c c') (name : String) {e e' : Expr}
    (he : S e e') : SameCaptures S (c.push name e) (c'.push name e') := by
  refine Table.Parallel.insert h name ?_
  have hget := Table.Parallel.get? h name
  generalize c.get? name = a at hget ⊢
  generalize c'.get? name = b at hget ⊢
  cases hget with
  | none => exact .cons he .nil
  | some hab => exact List.rel_append hab (.cons he .nil)

theorem optionRel_of_iff {α β : Type} {R : α → β → Prop} {a : Option α} {b : Option β}
    (h : ∀ x, a = some x → ∃ y, b = some y ∧ R x y) (h' : ∀ y, b = some y → ∃ x, a = some x) : Option.Rel R a b := by
  cases a with
  | some x =>
    obtain ⟨y, rfl, hR⟩ := h x rfl
    exact .some hR
  | none =>
    cases b with
    | none => exact .none
    | some y =>
      obtain ⟨x, hx⟩ := h' y rfl
      cases hx

section

variable {R Q : Operand → Operand → Prop} {S : Expr → Expr → Prop}

/-- **Chains of one shape match the same patterns**, cut up in the same way. -/
theorem capture?_chain_parallel {c c' : Expr} (sub : ∀ {o o'}, Q o o' → R o o')
    (pieces : ∀ {a a'}, Expr.Parallel R Q a a' → S a.bare a'.bare) (h : c.Parallel R Q c') (long : c.isChain = true) (steady : (Cursor.start c).Steady) (steady' : (Cursor.start c').Steady)
    {p : Pattern} (hp : Standard.IsPattern p) : Option.Rel (SameCaptures S) (p.capture? c) (p.capture? c') := by
  have long' : c'.isChain = true := by rw [h.isChain, long]
  have short : p.IsShort → Option.Rel (SameCaptures S) (p.capture? c) (p.capture? c') := by
    intro hs
    rw [capture?_short long steady hs, capture?_short long' steady' hs]
    exact .none
  cases hp with
  | binary op =>
    refine optionRel_of_iff (fun caps hcaps => ?_) (fun caps hcaps => ?_)
    · obtain ⟨a, b, cut, rfl⟩ := (capture?_binary long steady op caps).1 hcaps
      obtain ⟨a', b', cut', ha, hb⟩ := cut.parallel sub h
      exact ⟨_, (capture?_binary long' steady' op _).2 ⟨a', b', cut', rfl⟩,
        .cons ⟨rfl, .cons (pieces ha) .nil⟩ (.cons ⟨rfl, .cons (pieces hb) .nil⟩ .nil)⟩
    · obtain ⟨a, b, cut, rfl⟩ := (capture?_binary long' steady' op caps).1 hcaps
      obtain ⟨a', b', cut', -, -⟩ := cut.parallel sub h.flip
      exact ⟨_, (capture?_binary long steady op _).2 ⟨a', b', cut', rfl⟩⟩
  | fused =>
    refine optionRel_of_iff (fun caps hcaps => ?_) (fun caps hcaps => ?_)
    · obtain ⟨a, b, d, cut, rfl⟩ := (capture?_fused long steady caps).1 hcaps
      obtain ⟨a', b', d', cut', ha, hb, hd⟩ := cut.parallel sub h
      exact ⟨_, (capture?_fused long' steady' _).2 ⟨a', b', d', cut', rfl⟩,
        .cons ⟨rfl, .cons (pieces ha) .nil⟩ (.cons ⟨rfl, .cons (pieces hb) .nil⟩ (.cons ⟨rfl, .cons (pieces hd) .nil⟩ .nil))⟩
    · obtain ⟨a, b, d, cut, rfl⟩ := (capture?_fused long' steady' caps).1 hcaps
      obtain ⟨a', b', d', cut', -, -, -⟩ := cut.parallel sub h.flip
      exact ⟨_, (capture?_fused long steady _).2 ⟨a', b', d', cut', rfl⟩⟩
  | unary op => exact short ⟨_, rfl, rfl, rfl⟩
  | name plain => exact short ⟨_, rfl, plain, rfl⟩
  | call plain hole => exact short ⟨_, rfl, rfl, rfl⟩

end

/-! ### Matches side by side -/

theorem Expr.size_le_sizes {e : Expr} : ∀ {es : List Expr}, e ∈ es → e.size ≤ Expr.sizes es
  | e' :: es, h => by
    rw [Expr.sizes]
    rcases List.mem_cons.1 h with rfl | h
    · exact Nat.le_add_right _ _
    · exact Nat.le_trans (size_le_sizes h) (Nat.le_add_left _ _)

section

variable (S : Expr → Expr → Prop)

/-- Two matches that end alike, with captures that correspond if they go through. -/
def Agree (r r' : Bool × Captures) : Prop := r'.1 = r.1 ∧ (r.1 = true → SameCaptures S r.2 r'.2)

variable {S} {p p' q q' : Attempt Captures} {s s' : Captures}

theorem agree_verdict (b : Bool) (h : SameCaptures S s s') : Agree S (Attempt.verdict b s) (Attempt.verdict b s') :=
  ⟨rfl, fun _ => h⟩

theorem agree_andThen (hp : Agree S (p s) (p' s'))
    (hq : ∀ {t t'}, SameCaptures S t t' → Agree S (q t) (q' t')) : Agree S (p.andThen q s) (p'.andThen q' s') := by
  obtain ⟨hsame, hcaps⟩ := hp
  unfold Attempt.andThen
  generalize p s = r at hsame hcaps ⊢
  generalize p' s' = r' at hsame hcaps ⊢
  obtain ⟨b, t⟩ := r
  obtain ⟨b', t'⟩ := r'
  cases hsame
  cases b with
  | true => exact hq (hcaps rfl)
  | false => exact ⟨rfl, fun h => by cases h⟩

theorem agree_keepOwn (pattern : Pattern) {c c' e e' : Expr} (name : String) (he : (e == c) = false) (he' : (e' == c') = false)
    (hS : S e e') (h : SameCaptures S s s') : Agree S (pattern.keepOwn c name e s) (pattern.keepOwn c' name e' s') := by
  unfold Pattern.keepOwn
  rw [he, he']
  cases pattern.binds name with
  | true => exact ⟨rfl, fun _ => h.push name hS⟩
  | false => exact ⟨rfl, fun h => by cases h⟩

theorem capture?_of_agree {pattern : Pattern} {c c' : Expr}
    (h : Agree S (matchExpr (pattern.keepOwn c) pattern.expr c .none) (matchExpr (pattern.keepOwn c') pattern.expr c' .none)) :
    Option.Rel (SameCaptures S) (pattern.capture? c) (pattern.capture? c') := by
  obtain ⟨hsame, hcaps⟩ := h
  rw [Pattern.capture?_eq, Pattern.capture?_eq]
  generalize matchExpr (pattern.keepOwn c) pattern.expr c .none = r at hsame hcaps ⊢
  generalize matchExpr (pattern.keepOwn c') pattern.expr c' .none = r' at hsame hcaps ⊢
  obtain ⟨b, t⟩ := r
  obtain ⟨b', t'⟩ := r'
  cases hsame
  cases b with
  | true => exact .some (hcaps rfl)
  | false => exact .none

/-- **Arguments side by side against placeholders.** -/
theorem agree_matchArgs (pattern : Pattern) {c c' : Expr} {cs cs' : List Expr}
    (h : List.Forall₂ (fun a a' => S a.bare a'.bare) cs cs') : ∀ {holes : List String} {s s' : Captures},
      (∀ a ∈ cs, a.ellipsis? = none ∧ a.size < c.size) → (∀ a ∈ cs', a.ellipsis? = none ∧ a.size < c'.size) →
      (∀ h ∈ holes, (Placeholder.classify h).isSome = true) → SameCaptures S s s' →
      Agree S (matchArgs (pattern.keepOwn c) (holes.map Expr.ident) cs s)
        (matchArgs (pattern.keepOwn c') (holes.map Expr.ident) cs' s') := by
  induction h with
  | nil =>
    intro holes s s' _ _ _ same
    rw [matchArgs_none, matchArgs_none]
    exact agree_verdict _ same
  | @cons a a' cs cs' hS _ ih =>
    intro holes s s' steady steady' hole same
    rw [List.forall_mem_cons] at steady steady'
    obtain ⟨⟨he, hsize⟩, steady⟩ := steady
    obtain ⟨⟨he', hsize'⟩, steady'⟩ := steady'
    cases holes with
    | nil =>
      have left : ∀ {e : Expr} {es : List Expr}, e.ellipsis? = none → exhausted (e :: es) = false := by
        intro e es he
        cases es with
        | nil => simp [exhausted, he]
        | cons _ _ => rfl
      rw [List.map_nil, matchArgs_nil, matchArgs_nil, left he, left he']
      exact agree_verdict _ same
    | cons name holes =>
      obtain ⟨k, hk⟩ := Option.isSome_iff_exists.1 (hole name List.mem_cons_self)
      rw [← Expr.placeholder?_ident] at hk
      have taken := fun (report : String) =>
        agree_keepOwn pattern report (Expr.bare_beq_eq_false hsize) (Expr.bare_beq_eq_false hsize') hS same
      rw [List.map_cons]
      cases hell : (Expr.ident name).ellipsis? with
      | some k =>
        -- the placeholder stays for the next argument
        rw [matchArgs_ellipsis _ hell, matchArgs_ellipsis _ hell]
        exact agree_andThen (taken _) (fun same => ih steady steady' hole same)
      | none =>
        rw [matchArgs_each _ hell he, matchArgs_each _ hell he', matchExpr_hole _ hk, matchExpr_hole _ hk]
        exact agree_andThen (taken _) (fun same => ih steady steady' (fun h hh => hole h (List.mem_cons_of_mem _ hh)) same)

end

/-! ### Single operands -/

theorem matchExpr_single {σ : Type} (report : OnCapture σ) {x y : Operand} (hx : x.placeholder? = none)
    (hy : y.placeholder? = none) (bx : (Expr.ofOperand x).bare = .ofOperand x) (by' : (Expr.ofOperand y).bare = .ofOperand y) :
    matchExpr report (.ofOperand x) (.ofOperand y) = matchBare report x.bare y.bare := by
  have hpx : (Expr.ofOperand x).placeholder? = none := by
    unfold Expr.placeholder?
    rw [bx]
    exact hx
  have hpy : (Expr.ofOperand y).placeholder? = none := by
    unfold Expr.placeholder?
    rw [by']
    exact hy
  rw [matchExpr_chain report hpx hpy, bx, by', matchChain_operand report hx hy]
  show (matchOperand report x y).andThen (matchRest report ⟨none, x, []⟩ ⟨none, y, []⟩) = _
  rw [matchOperand_bare report hx hy, matchRest_nil_nil, Attempt.andThen_verdict_true]

theorem capture?_single_of_chain {y : Operand} (hy : y.placeholder? = none) (by' : (Expr.ofOperand y).bare = .ofOperand y)
    {p : Pattern} {name : String} {op : Operator} {x : Operand} {xs : List Link}
    (hp : p.expr = ⟨.ident name, ⟨op, x⟩ :: xs⟩) (hole : Placeholder.classify name = some ⟨name, .single⟩)
    (last : trailingEllipsis (⟨op, x⟩ :: xs) = false) : p.capture? (.ofOperand y) = none := by
  have hpy : (Expr.ofOperand y).placeholder? = none := by
    unfold Expr.placeholder?
    rw [by']
    exact hy
  have single : (Operand.ident name).isEllipsis = false := by
    unfold Operand.isEllipsis
    rw [Operand.placeholder?_ident, hole]
    rfl
  cases hc : p.capture? (.ofOperand y) with
  | none => rfl
  | some caps =>
    rw [Pattern.capture?_eq_some, hp, matchExpr_chain _ rfl hpy, by', Expr.bare_of_isChain rfl] at hc
    have hole? : (Operand.ident name).placeholder? = some ⟨name, .single⟩ := hole
    have hstep := (matchChain_hole_step _ hole? single last
      (Cursor.steady_start.2 (fun l hl => by cases hl))).1 hc
    obtain ⟨seg, z, zs, -, hnil, -⟩ := hstep
    exact absurd hnil (by simp [Cursor.start, Expr.ofOperand])

theorem capture?_single {y : Operand} (hy : y.placeholder? = none) (by' : (Expr.ofOperand y).bare = .ofOperand y)
    {p : Pattern} {x : Operand} (hp : p.expr = .ofOperand x) (hx : x.placeholder? = none)
    (bx : (Expr.ofOperand x).bare = .ofOperand x) (h : ∀ report : OnCapture Captures,
      matchBare report x.bare y.bare = Attempt.verdict false) : p.capture? (.ofOperand y) = none := by
  apply Pattern.capture?_eq_none
  rw [hp, matchExpr_single _ hx hy bx by', h]
  rfl

section

variable {S : Expr → Expr → Prop} {p : Pattern}

theorem capture?_name {f : String} (hp : Standard.IsPattern p) (plain : Placeholder.classify f = none) {caps : Captures}
    (h : p.capture? (.ident f) = some caps) : caps = .none := by
  have hf : (Operand.ident f).placeholder? = none := plain
  have refused : ∀ {q : Pattern}, q.capture? (.ident f) = none → q.capture? (.ident f) = some caps → caps = .none := by
    intro q hq h
    rw [hq] at h
    cases h
  cases hp with
  | binary op => exact refused (capture?_single_of_chain hf rfl rfl (by decide) rfl) h
  | fused => exact refused (capture?_single_of_chain hf rfl rfl (by decide) rfl) h
  | unary op => exact refused (capture?_single hf rfl rfl rfl rfl (fun _ => by simp [Operand.bare, matchBare])) h
  | call _ _ => exact refused (capture?_single hf rfl rfl rfl rfl (fun _ => by simp [Operand.bare, matchBare])) h
  | @name g plain' =>
    rw [Pattern.capture?_eq_some] at h
    change matchExpr _ (.ofOperand (.ident g)) (.ofOperand (.ident f)) _ = _ at h
    rw [matchExpr_single _ (x := .ident g) (y := .ident f) plain' hf rfl rfl] at h
    simp only [Operand.bare, matchBare, Attempt.verdict_eq_true] at h
    exact h.2

theorem capture?_unary_parallel (hp : Standard.IsPattern p) (op : Operator) {x x' : Operand}
    (h : S (Expr.ofOperand x).bare (Expr.ofOperand x').bare) :
    Option.Rel (SameCaptures S) (p.capture? (.ofOperand (.unary op x))) (p.capture? (.ofOperand (.unary op x'))) := by
  have refused : ∀ {q : Pattern}, (∀ x, q.capture? (.ofOperand (.unary op x)) = none) →
      Option.Rel (SameCaptures S) (q.capture? (.ofOperand (.unary op x))) (q.capture? (.ofOperand (.unary op x'))) := by
    intro q hq
    rw [hq, hq]
    exact .none
  cases hp with
  | binary op => exact refused (fun _ => capture?_single_of_chain rfl rfl rfl (by decide) rfl)
  | fused => exact refused (fun _ => capture?_single_of_chain rfl rfl rfl (by decide) rfl)
  | name plain => exact refused (fun _ => capture?_single rfl rfl rfl plain rfl (fun _ => by simp [Operand.bare, matchBare]))
  | call _ _ => exact refused (fun _ => capture?_single rfl rfl rfl rfl rfl (fun _ => by simp [Operand.bare, matchBare]))
  | unary op' =>
    have smaller : ∀ x : Operand, ((Expr.ofOperand x).bare == .ofOperand (.unary op x)) = false := by
      intro x
      apply Expr.bare_beq_eq_false
      rw [Expr.size_ofOperand, Expr.size_ofOperand, Operand.size]
      omega
    have hexpr : (Pattern.ofExpr (.unary op' (.ident "_1"))).expr = .ofOperand (.unary op' (.ident "_1")) := rfl
    have hole : (Operand.ident "_1").placeholder? = some ⟨"_1", .single⟩ := by decide
    apply capture?_of_agree
    rw [hexpr, matchExpr_single _ rfl rfl rfl rfl, matchExpr_single _ rfl rfl rfl rfl]
    simp only [Operand.bare, matchBare]
    by_cases hop : op' = op
    · rw [if_pos hop, if_pos hop, matchOperand_hole _ hole, matchOperand_hole _ hole]
      exact agree_keepOwn _ _ (smaller x) (smaller x') h .nil
    · rw [if_neg hop, if_neg hop]
      exact agree_verdict _ .nil

theorem capture?_call_of_agree (hp : Standard.IsPattern p) {f : String} {args args' : List Expr}
    (h : ∀ {g : String} {holes : List String}, p = .ofExpr (.call g (holes.map Expr.ident)) → Placeholder.classify g = none →
      (∀ h ∈ holes, (Placeholder.classify h).isSome = true) →
      Agree S (((matchName (p.keepOwn (.call f args)) g f).andThen
          (matchArgs (p.keepOwn (.call f args)) (holes.map Expr.ident) args)) .none)
        (((matchName (p.keepOwn (.call f args')) g f).andThen
          (matchArgs (p.keepOwn (.call f args')) (holes.map Expr.ident) args')) .none)) :
    Option.Rel (SameCaptures S) (p.capture? (.call f args)) (p.capture? (.call f args')) := by
  have refused : ∀ {q : Pattern}, (∀ as, q.capture? (.call f as) = none) →
      Option.Rel (SameCaptures S) (q.capture? (.call f args)) (q.capture? (.call f args')) := by
    intro q hq
    rw [hq, hq]
    exact .none
  cases hp with
  | binary op => exact refused (fun _ => capture?_single_of_chain rfl rfl rfl (by decide) rfl)
  | fused => exact refused (fun _ => capture?_single_of_chain rfl rfl rfl (by decide) rfl)
  | unary op => exact refused (fun _ => capture?_single rfl rfl rfl rfl rfl (fun _ => by simp [Operand.bare, matchBare]))
  | name plain => exact refused (fun _ => capture?_single rfl rfl rfl plain rfl (fun _ => by simp [Operand.bare, matchBare]))
  | @call g holes plain hole =>
    apply capture?_of_agree
    show Agree S (matchExpr _ (.call g _) _ _) (matchExpr _ (.call g _) _ _)
    rw [matchExpr_call, matchExpr_call]
    exact h rfl plain hole

theorem size_lt_of_mem_call (f : String) {args : List Expr} : ∀ a ∈ args, a.size < (Expr.call f args).size := by
  intro a ha
  have := Expr.size_le_sizes ha
  rw [Expr.call, Expr.size_ofOperand, Operand.size]
  omega

theorem ident_beq_call (z f : String) (args : List Expr) : (Expr.ident z == .call f args) = false := by
  show Expr.beq _ _ = false
  simp [Expr.ident, Expr.call, Expr.ofOperand, Expr.beq, Operand.beq]

/-- **Calls of one name with arguments side by side.**  Where the name is one of the pattern's placeholders, it captures
the name of the pattern. -/
theorem capture?_call_parallel (hp : Standard.IsPattern p) {f : String} {args args' : List Expr}
    (h : List.Forall₂ (fun a a' => S a.bare a'.bare) args args') (steady : ∀ a ∈ args, a.ellipsis? = none)
    (steady' : ∀ a ∈ args', a.ellipsis? = none)
    (text : p.binds f = true → ∀ g ps, p.expr = .call g ps → S (.ident g) (.ident g)) :
    Option.Rel (SameCaptures S) (p.capture? (.call f args)) (p.capture? (.call f args')) := by
  refine capture?_call_of_agree hp (fun {g holes} hcall plain hole => ?_)
  refine agree_andThen ?_ (fun same => agree_matchArgs _ h
    (fun a ha => ⟨steady a ha, size_lt_of_mem_call f a ha⟩) (fun a ha => ⟨steady' a ha, size_lt_of_mem_call f a ha⟩) hole same)
  cases hf : Placeholder.classify f with
  | none =>
    rw [matchName_plain _ plain hf, matchName_plain _ plain hf]
    exact agree_verdict _ .nil
  | some k =>
    rw [matchName_candidate_hole _ plain hf, matchName_candidate_hole _ plain hf, Placeholder.name_of_classify hf]
    cases hb : p.binds f with
    | true => exact agree_keepOwn _ _ (ident_beq_call g f args) (ident_beq_call g f args') (text hb g _ (by rw [hcall]; rfl)) .nil
    | false =>
      unfold Pattern.keepOwn
      rw [hb]
      exact ⟨rfl, fun h => by cases h⟩

/-- **A call that is matched** is a call of the pattern's name, or of one of its placeholders. -/
theorem name_of_capture?_call (hp : Standard.IsPattern p) {f : String} {args : List Expr} {caps : Captures}
    (h : p.capture? (.call f args) = some caps) : p.expr.asCall?.map Prod.fst = some f ∨ p.binds f = true := by
  have refused : ∀ {q : Pattern} {P : Prop}, q.capture? (.call f args) = none → q.capture? (.call f args) = some caps → P := by
    intro q P hq h
    rw [hq] at h
    cases h
  cases hp with
  | binary op => exact refused (capture?_single_of_chain rfl rfl rfl (by decide) rfl) h
  | fused => exact refused (capture?_single_of_chain rfl rfl rfl (by decide) rfl) h
  | unary op => exact refused (capture?_single rfl rfl rfl rfl rfl (fun _ => by simp [Operand.bare, matchBare])) h
  | name plain =>
    exact refused (capture?_single (x := .ident _) rfl rfl rfl plain rfl (fun _ => by simp [Operand.bare, matchBare])) h
  | @call g holes plain hole =>
    rw [Pattern.capture?_eq_some] at h
    change matchExpr _ (.call g _) _ _ = _ at h
    rw [matchExpr_call, Attempt.andThen_eq_true] at h
    obtain ⟨s, hname, -⟩ := h
    cases hf : Placeholder.classify f with
    | none =>
      rw [matchName_plain _ plain hf, Attempt.verdict_eq_true] at hname
      exact .inl (by rw [← eq_of_beq hname.1]; rfl)
    | some k =>
      rw [matchName_candidate_hole _ plain hf, Placeholder.name_of_classify hf] at hname
      exact .inr (Pattern.binds_of_keepOwn hname)

end

/-! ### The registry -/

def Registry.isHole (r : Registry) (name : String) : Bool := r.entries.any (fun e => e.patterns.any (fun p => p.binds name))

theorem Registry.isHole_of_mem {r : Registry} {entry : Entry} (he : entry ∈ r.entries) {p : Pattern} (hp : p ∈ entry.patterns)
    {name : String} (h : p.binds name = true) : r.isHole name = true :=
  List.any_eq_true.2 ⟨entry, he, List.any_eq_true.2 ⟨p, hp, h⟩⟩

theorem Registry.isCallName_of_mem {r : Registry} {entry : Entry} (he : entry ∈ r.entries) {p : Pattern}
    (hp : p ∈ entry.patterns) {name : String} (h : p.expr.asCall?.map Prod.fst = some name) : r.isCallName name = true :=
  List.any_eq_true.2 ⟨entry, he, List.any_eq_true.2 ⟨p, hp, by rw [h]; exact beq_self_eq_true _⟩⟩

theorem name_of_find?_call {f : String} {args : List Expr} {found : Entry × Captures}
    (h : Registry.standard.find? (.call f args) = some found) :
    Registry.standard.isCallName f = true ∨ Registry.standard.isHole f = true := by
  obtain ⟨hmem, p, hp, hcap⟩ := Standard.exists_of_find? h
  rcases name_of_capture?_call (Standard.isPattern_of_mem hmem p hp) hcap with hname | hhole
  · exact .inl (Registry.isCallName_of_mem hmem hp hname)
  · exact .inr (Registry.isHole_of_mem hmem hp hhole)

theorem findSome?_rel {α β γ : Type} {R : β → γ → Prop} {f : α → Option β} {g : α → Option γ} : ∀ {l : List α},
    (∀ a ∈ l, Option.Rel R (f a) (g a)) → Option.Rel R (l.findSome? f) (l.findSome? g)
  | [], _ => .none
  | a :: l, h => by
    rw [List.forall_mem_cons] at h
    rw [List.findSome?_cons, List.findSome?_cons]
    have hhead := h.1
    generalize f a = b at hhead ⊢
    generalize g a = c at hhead ⊢
    cases hhead with
    | some hR => exact .some hR
    | none => exact findSome?_rel h.2

theorem find?_rel {S : Expr → Expr → Prop} {c c' : Expr} (h : ∀ entry ∈ Registry.standard.entries, ∀ p ∈ entry.patterns,
      Option.Rel (SameCaptures S) (p.capture? c) (p.capture? c')) :
    Option.Rel (fun found found' => found.1 = found'.1 ∧ SameCaptures S found.2 found'.2) (Registry.standard.find? c)
      (Registry.standard.find? c') := by
  refine findSome?_rel (fun entry hmem => ?_)
  have hrel : Option.Rel (SameCaptures S) (entry.capture? c) (entry.capture? c') := findSome?_rel (h entry hmem)
  generalize entry.capture? c = a at hrel ⊢
  generalize entry.capture? c' = b at hrel ⊢
  cases hrel with
  | none => exact .none
  | some same => exact .some ⟨rfl, same⟩

section

variable (R Q : Operand → Operand → Prop) (S : Expr → Expr → Prop)

/-- **Two candidates of one form.**  No ellipsis stands where it could be mistaken for a placeholder. -/
inductive SameForm : Expr → Expr → Prop
  | chain {c c' : Expr} (long : c.isChain = true) (steady : (Cursor.start c).Steady) (steady' : (Cursor.start c').Steady)
      (same : c.Parallel R Q c') : SameForm c c'
  | unary {x x' : Operand} (op : Operator) (same : S (Expr.ofOperand x).bare (Expr.ofOperand x').bare) :
      SameForm (.ofOperand (.unary op x)) (.ofOperand (.unary op x'))
  | call {f : String} {args args' : List Expr} (same : List.Forall₂ (fun a a' => S a.bare a'.bare) args args')
      (steady : ∀ a ∈ args, a.ellipsis? = none) (steady' : ∀ a ∈ args', a.ellipsis? = none)
      (text : Registry.standard.isHole f = true → ∀ g, Registry.standard.isCallName g = true → S (.ident g) (.ident g)) :
      SameForm (.call f args) (.call f args')
  | name {f : String} (plain : Placeholder.classify f = none) : SameForm (.ident f) (.ident f)

variable {R Q S}

/-- **The registry settles two candidates of one form alike.** -/
theorem find?_parallel (sub : ∀ {o o'}, Q o o' → R o o') (pieces : ∀ {a a'}, Expr.Parallel R Q a a' → S a.bare a'.bare)
    {c c' : Expr} (h : SameForm R Q S c c') :
    Option.Rel (fun found found' => found.1 = found'.1 ∧ SameCaptures S found.2 found'.2) (Registry.standard.find? c)
      (Registry.standard.find? c') := by
  refine find?_rel (fun entry hmem p hp => ?_)
  have pattern := Standard.isPattern_of_mem hmem p hp
  cases h with
  | chain long steady steady' same => exact capture?_chain_parallel sub pieces same long steady steady' pattern
  | unary op same => exact capture?_unary_parallel pattern op same
  | call same steady steady' text =>
    refine capture?_call_parallel pattern same steady steady' (fun hb g ps hg => ?_)
    exact text (Registry.isHole_of_mem hmem hp hb) g (Registry.isCallName_of_mem hmem hp (by rw [hg]; rfl))
  | name plain =>
    cases hcap : p.capture? (.ident _) with
    | none => exact .none
    | some caps =>
      rw [capture?_name pattern plain hcap]
      exact .some .nil

end

end ChainCalc
