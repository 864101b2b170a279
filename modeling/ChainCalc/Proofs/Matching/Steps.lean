import ChainCalc.Captures
/-!
# Steps of a match — one equation for each thing a match may do next

The walk over two expressions is a few mutually recursive functions; here each of their branches is an equation with the
condition under which it is taken, so that proofs about matching never open the functions themselves.
-/
namespace ChainCalc

/-! ### Parentheses taken off -/

theorem Expr.bare_ne_paren (e inner : Expr) : e.bare ≠ ⟨.paren inner, []⟩ := by
  fun_induction Expr.bare e with
  | case1 e ih => exact ih
  | case2 e h => exact fun he => h inner he

theorem Expr.bare_of_ne_paren {e : Expr} (h : ∀ inner, e ≠ ⟨.paren inner, []⟩) : e.bare = e := by
  unfold Expr.bare
  split
  · exact absurd rfl (h _)
  · rfl

@[simp] theorem Expr.bare_bare (e : Expr) : e.bare.bare = e.bare := bare_of_ne_paren e.bare_ne_paren

theorem Expr.bare_of_isChain {e : Expr} (h : e.isChain = true) : e.bare = e :=
  bare_of_ne_paren (fun inner he => by rw [he] at h; cases h)

theorem Expr.bare_group (e : Expr) : (⟨.group e, []⟩ : Expr).bare = e.bare := by
  obtain ⟨first, rest⟩ := e
  unfold Operand.group
  cases rest with
  | nil => rfl
  | cons l ls =>
    rw [if_neg (by simp)]
    exact Expr.bare.eq_1 _

@[simp] theorem Expr.bare_call (name : String) (args : List Expr) : (Expr.call name args).bare = .call name args := rfl

@[simp] theorem Expr.bare_ident (name : String) : (Expr.ident name).bare = .ident name := rfl

@[simp] theorem Expr.bare_lit (value : Literal) : (Expr.lit value).bare = .lit value := rfl

@[simp] theorem Expr.asIdent?_bare (e : Expr) : e.bare.asIdent? = e.asIdent? := by
  unfold Expr.asIdent?
  rw [Expr.bare_bare]

@[simp] theorem Expr.asCall?_bare (e : Expr) : e.bare.asCall? = e.asCall? := by
  unfold Expr.asCall?
  rw [Expr.bare_bare]

@[simp] theorem Expr.placeholder?_bare (e : Expr) : e.bare.placeholder? = e.placeholder? := by
  unfold Expr.placeholder?
  rw [Expr.bare_bare]

@[simp] theorem Expr.ellipsis?_bare (e : Expr) : e.bare.ellipsis? = e.ellipsis? := by
  unfold Expr.ellipsis?
  rw [Expr.placeholder?_bare]

theorem Expr.asCall?_eq_some {e : Expr} {name : String} {args : List Expr} :
    e.asCall? = some (name, args) ↔ e.bare = .call name args := by
  unfold Expr.asCall?
  split
  · rename_i f xs h
    rw [h]
    simp [Expr.call, Expr.ofOperand]
  · rename_i h
    constructor
    · intro h'
      cases h'
    · exact fun h' => absurd h' (h name args)

theorem Expr.asIdent?_eq_some {e : Expr} {name : String} : e.asIdent? = some name ↔ e.bare = .ident name := by
  unfold Expr.asIdent?
  split
  · rename_i x h
    rw [h]
    simp [Expr.ident, Expr.ofOperand]
  · rename_i h
    constructor
    · intro h'
      cases h'
    · exact fun h' => absurd h' (h name)

@[simp] theorem Expr.placeholder?_call (name : String) (args : List Expr) : (Expr.call name args).placeholder? = none := rfl

@[simp] theorem Expr.placeholder?_ident (name : String) :
    (Expr.ident name).placeholder? = Placeholder.classify name := rfl

@[simp] theorem Operand.placeholder?_call (name : String) (args : List Expr) : (Operand.call name args).placeholder? = none :=
  rfl

@[simp] theorem Operand.placeholder?_unary (op : Operator) (x : Operand) : (Operand.unary op x).placeholder? = none := rfl

@[simp] theorem Operand.placeholder?_ident (name : String) :
    (Operand.ident name).placeholder? = Placeholder.classify name := rfl

theorem Operand.isEllipsis_of_placeholder?_eq_none {x : Operand} (h : x.placeholder? = none) : x.isEllipsis = false := by
  unfold Operand.isEllipsis
  rw [h]
  rfl

theorem Operand.classify_of_placeholder? {x : Operand} {h : Placeholder} (hx : x.placeholder? = some h) :
    Placeholder.classify h.name = some h := by
  unfold Operand.placeholder? at hx
  split at hx
  · rwa [Placeholder.name_of_classify hx]
  · cases hx

theorem Expr.classify_of_placeholder? {e : Expr} {h : Placeholder} (he : e.placeholder? = some h) :
    Placeholder.classify h.name = some h := by
  unfold Expr.placeholder? at he
  split at he
  · exact Operand.classify_of_placeholder? he
  · cases he

/-! ### One attempt after another -/

namespace Attempt

variable {σ : Type}

theorem andThen_of_true {p q : Attempt σ} {s s' : σ} (h : p s = (true, s')) : p.andThen q s = q s' := by
  unfold andThen
  rw [h]

theorem andThen_of_false {p q : Attempt σ} {s : σ} (h : (p s).1 = false) : (p.andThen q s).1 = false := by
  unfold andThen
  split
  · rename_i hp
    rw [hp] at h
    cases h
  · rfl

theorem andThen_eq_true {p q : Attempt σ} {s s' : σ} :
    p.andThen q s = (true, s') ↔ ∃ s₁, p s = (true, s₁) ∧ q s₁ = (true, s') := by
  constructor
  · intro h
    unfold andThen at h
    split at h
    · exact ⟨_, ‹_›, h⟩
    · cases h
  · rintro ⟨s₁, hp, hq⟩
    rw [andThen_of_true hp, hq]

@[simp] theorem verdict_true_andThen (q : Attempt σ) : (verdict true).andThen q = q := rfl

@[simp] theorem andThen_verdict_true (p : Attempt σ) : p.andThen (verdict true) = p := by
  funext s
  unfold andThen
  split
  · rename_i h
    rw [h]
    rfl
  · rename_i h
    rw [h]

theorem verdict_eq_true {b : Bool} {s s' : σ} : verdict b s = (true, s') ↔ b = true ∧ s' = s := by
  unfold verdict
  rw [Prod.mk.injEq, eq_comm (a := s)]

end Attempt

/-! ### Expressions, chains and operands -/

section

variable {σ : Type} (report : OnCapture σ)

theorem matchExpr_hole {p c : Expr} {h : Placeholder} (hp : p.placeholder? = some h) :
    matchExpr report p c = report h.name c.bare := by
  rw [matchExpr, hp]

theorem matchExpr_candidate_hole {p c : Expr} {h : Placeholder} (hp : p.placeholder? = none)
    (hc : c.placeholder? = some h) : matchExpr report p c = report h.name p.bare := by
  rw [matchExpr, hp, hc]

theorem matchExpr_chain {p c : Expr} (hp : p.placeholder? = none) (hc : c.placeholder? = none) :
    matchExpr report p c = matchChain report (.start p.bare) (.start c.bare) := by
  rw [matchExpr, hp, hc]

theorem matchChain_hole {p c : Cursor} {h : Placeholder} (hp : p.here.placeholder? = some h) :
    matchChain report p c =
      (report h.name (c.segment p.floor).bare).andThen (matchRest report p (c.segmentEnd p.floor)) := by
  rw [matchChain, hp]

theorem matchChain_candidate_hole {p c : Cursor} {h : Placeholder} (hp : p.here.placeholder? = none)
    (hc : c.here.placeholder? = some h) :
    matchChain report p c =
      (report h.name (p.segment c.floor).bare).andThen (matchRest report (p.segmentEnd c.floor) c) := by
  rw [matchChain, hp, hc]

theorem matchChain_operand {p c : Cursor} (hp : p.here.placeholder? = none) (hc : c.here.placeholder? = none) :
    matchChain report p c = (matchOperand report p.here c.here).andThen (matchRest report p c) := by
  rw [matchChain, hp, hc]

theorem matchOperand_hole {p c : Operand} {h : Placeholder} (hp : p.placeholder? = some h) :
    matchOperand report p c = report h.name (Expr.ofOperand c).bare := by
  rw [matchOperand, hp]

theorem matchOperand_candidate_hole {p c : Operand} {h : Placeholder} (hp : p.placeholder? = none)
    (hc : c.placeholder? = some h) : matchOperand report p c = report h.name (Expr.ofOperand p).bare := by
  rw [matchOperand, hp, hc]

theorem matchOperand_bare {p c : Operand} (hp : p.placeholder? = none) (hc : c.placeholder? = none) :
    matchOperand report p c = matchBare report p.bare c.bare := by
  rw [matchOperand, hp, hc]

/-! ### Behind operands that agree -/

theorem matchRest_nil_nil (pb cb : Option Operator) (ph ch : Operand) :
    matchRest report ⟨pb, ph, []⟩ ⟨cb, ch, []⟩ = Attempt.verdict true := by
  rw [matchRest]

theorem matchRest_same (op : Operator) (pb cb : Option Operator) (ph ch x y : Operand) (xs ys : List Link) :
    matchRest report ⟨pb, ph, ⟨op, x⟩ :: xs⟩ ⟨cb, ch, ⟨op, y⟩ :: ys⟩ =
      matchChain report ⟨some op, x, xs⟩ ⟨some op, y, ys⟩ := by
  rw [matchRest, if_pos rfl]

theorem matchRest_differ {a b : Operator} (h : a ≠ b) (pb cb : Option Operator) {ph ch : Operand} (x y : Operand)
    (xs ys : List Link) (hp : ph.isEllipsis = false) (hc : Cursor.repeats ⟨cb, ch, ⟨b, y⟩ :: ys⟩ a = false) :
    matchRest report ⟨pb, ph, ⟨a, x⟩ :: xs⟩ ⟨cb, ch, ⟨b, y⟩ :: ys⟩ = Attempt.verdict false := by
  rw [matchRest, if_neg h, if_neg (by simp [Cursor.repeats, hp]), if_neg (by simp [hc])]

theorem matchRest_nil_cons (pb cb : Option Operator) {ph : Operand} (ch : Operand) (l : Link) (ls : List Link)
    (hp : ph.isEllipsis = false) :
    matchRest report ⟨pb, ph, []⟩ ⟨cb, ch, l :: ls⟩ = Attempt.verdict (trailingEllipsis (l :: ls)) := by
  obtain ⟨b, y⟩ := l
  rw [matchRest, if_neg (by simp [Cursor.repeats, hp])]

theorem matchRest_cons_nil (pb cb : Option Operator) (ph : Operand) {ch : Operand} (l : Link) (ls : List Link)
    (hc : Cursor.repeats ⟨cb, ch, []⟩ l.op = false) :
    matchRest report ⟨pb, ph, l :: ls⟩ ⟨cb, ch, []⟩ = Attempt.verdict (trailingEllipsis (l :: ls)) := by
  obtain ⟨a, x⟩ := l
  rw [matchRest, if_neg (by simp [hc])]

/-! ### Arguments -/

theorem matchArgs_ellipsis {p : Expr} {h : Placeholder} (hp : p.ellipsis? = some h) (ps : List Expr) (c : Expr)
    (cs : List Expr) :
    matchArgs report (p :: ps) (c :: cs) = (report h.name c.bare).andThen (matchArgs report (p :: ps) cs) := by
  rw [matchArgs, hp]

theorem matchArgs_candidate_ellipsis {p c : Expr} {h : Placeholder} (hp : p.ellipsis? = none) (hc : c.ellipsis? = some h)
    (ps cs : List Expr) :
    matchArgs report (p :: ps) (c :: cs) = (report h.name p.bare).andThen (matchArgs report ps (c :: cs)) := by
  rw [matchArgs, hp, hc]

theorem matchArgs_each {p c : Expr} (hp : p.ellipsis? = none) (hc : c.ellipsis? = none) (ps cs : List Expr) :
    matchArgs report (p :: ps) (c :: cs) = (matchExpr report p c).andThen (matchArgs report ps cs) := by
  rw [matchArgs, hp, hc]

theorem matchArgs_nil (cs : List Expr) : matchArgs report [] cs = Attempt.verdict (exhausted cs) := by
  rw [matchArgs]
  · rfl
  · intro _ _ _ _ h
    cases h

theorem matchArgs_none (ps : List Expr) : matchArgs report ps [] = Attempt.verdict (exhausted ps) := by
  rw [matchArgs]
  · rw [show exhausted ([] : List Expr) = true from rfl, Bool.and_true]
  · intro _ _ _ _ _ h
    cases h

/-! ### Operands of the same form -/

theorem matchOperand_lit (a b : Literal) : matchOperand report (.lit a) (.lit b) = Attempt.verdict (a == b) := by
  rw [matchOperand_bare report rfl rfl]
  show matchBare report (.lit a) (.lit b) = _
  rw [matchBare]

theorem matchOperand_ident {a b : String} (ha : Placeholder.classify a = none) (hb : Placeholder.classify b = none) :
    matchOperand report (.ident a) (.ident b) = Attempt.verdict (a == b) := by
  rw [matchOperand_bare report (p := .ident a) (c := .ident b) ha hb]
  show matchBare report (.ident a) (.ident b) = _
  rw [matchBare]

theorem matchOperand_call (f g : String) (ps cs : List Expr) :
    matchOperand report (.call f ps) (.call g cs) = (matchName report f g).andThen (matchArgs report ps cs) := by
  rw [matchOperand_bare report rfl rfl]
  show matchBare report (.call f ps) (.call g cs) = _
  rw [matchBare]

theorem matchOperand_unary (op : Operator) (x y : Operand) :
    matchOperand report (.unary op x) (.unary op y) = matchOperand report x y := by
  rw [matchOperand_bare report rfl rfl]
  show matchBare report (.unary op x) (.unary op y) = _
  rw [matchBare, if_pos rfl]

theorem matchOperand_group (x y : Operand) (l m : Link) (ls ms : List Link) :
    matchOperand report (.paren ⟨x, l :: ls⟩) (.paren ⟨y, m :: ms⟩) = matchExpr report ⟨x, l :: ls⟩ ⟨y, m :: ms⟩ := by
  rw [matchOperand_bare report rfl rfl]
  show matchBare report (.paren ⟨x, l :: ls⟩) (.paren ⟨y, m :: ms⟩) = _
  rw [matchBare]

theorem matchOperand_paren (x y : Operand) :
    matchOperand report (.paren ⟨x, []⟩) (.paren ⟨y, []⟩) = matchOperand report x y := by
  rw [matchOperand, matchOperand]
  rfl

theorem matchExpr_bare (p c : Expr) : matchExpr report p c.bare = matchExpr report p c := by
  rw [matchExpr, matchExpr, Expr.placeholder?_bare, Expr.bare_bare]

theorem matchExpr_paren (p c : Expr) : matchExpr report ⟨.paren p, []⟩ ⟨.paren c, []⟩ = matchExpr report p c := by
  rw [matchExpr, matchExpr]
  rfl

/-- **A call against a call**: names first, then arguments. -/
theorem matchExpr_call (f g : String) (ps cs : List Expr) :
    matchExpr report (.call f ps) (.call g cs) = (matchName report f g).andThen (matchArgs report ps cs) := by
  have hrest : matchRest report (.start (.call f ps)) (.start (.call g cs)) = Attempt.verdict true :=
    matchRest_nil_nil report none none _ _
  rw [matchExpr_chain report rfl rfl, Expr.bare_call, Expr.bare_call, matchChain_operand report rfl rfl, hrest]
  show (matchOperand report (.call f ps) (.call g cs)).andThen _ = _
  rw [matchOperand_call, Attempt.andThen_verdict_true]

theorem matchName_plain {f g : String} (hf : Placeholder.classify f = none) (hg : Placeholder.classify g = none) :
    matchName report f g = Attempt.verdict (f == g) := by
  unfold matchName
  rw [hf, hg]

theorem matchName_candidate_hole {f g : String} {h : Placeholder} (hf : Placeholder.classify f = none)
    (hg : Placeholder.classify g = some h) : matchName report f g = report h.name (.ident f) := by
  unfold matchName
  rw [hf, hg]

end

end ChainCalc
