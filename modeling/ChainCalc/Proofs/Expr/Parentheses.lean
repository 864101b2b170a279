import Mathlib.Logic.Relation
import ChainCalc.Proofs.Expr.Equality
import ChainCalc.Proofs.Matching.Steps
/-!
# Redundant parentheses — expressions that differ in nothing else

Parentheses are redundant around a single operand and around a whole expression that stands alone.  `Expr.Wrap` puts one
such pair somewhere in an expression, and two expressions are the same up to redundant parentheses (`Expr.Reparen`) when
pairs put in and taken out lead from the one to the other.

Taking out all of them is a normal form (`Expr.reparen_iff`), so that the relation is decided by equality.
-/
namespace ChainCalc

open Relation (EqvGen)

/-! ### One pair more -/

mutual

/-- The second operand is the first with one more redundant pair of parentheses, around the whole of it or inside. -/
inductive Operand.Wrap : Operand → Operand → Prop where
  | whole (x : Operand) : Operand.Wrap x (.paren (.ofOperand x))
  | argument (f : String) (before after : List Expr) {e e' : Expr} :
      Expr.Wrap e e' → Operand.Wrap (.call f (before ++ e :: after)) (.call f (before ++ e' :: after))
  | inner {e e' : Expr} : Expr.Wrap e e' → Operand.Wrap (.paren e) (.paren e')
  | unary (op : Operator) {x y : Operand} : Operand.Wrap x y → Operand.Wrap (.unary op x) (.unary op y)

/-- **The second expression is the first with one more redundant pair of parentheses**, around the whole of it, around one
of its operands or inside one. -/
inductive Expr.Wrap : Expr → Expr → Prop where
  | whole (e : Expr) : Expr.Wrap e (.ofOperand (.paren e))
  | first (rest : List Link) {x y : Operand} : Operand.Wrap x y → Expr.Wrap ⟨x, rest⟩ ⟨y, rest⟩
  | link (first : Operand) (before : List Link) (op : Operator) (after : List Link) {x y : Operand} :
      Operand.Wrap x y → Expr.Wrap ⟨first, before ++ ⟨op, x⟩ :: after⟩ ⟨first, before ++ ⟨op, y⟩ :: after⟩

end

abbrev Operand.Reparen : Operand → Operand → Prop := EqvGen Operand.Wrap

/-- **Expressions that are the same up to redundant parentheses.** -/
abbrev Expr.Reparen : Expr → Expr → Prop := EqvGen Expr.Wrap

/-! ### All pairs taken out -/

mutual

def Operand.strip : Operand → Operand
  | .lit value => .lit value
  | .ident name => .ident name
  | .call name args => .call name (Expr.stripAll args)
  | .paren inner => .group inner.strip
  | .unary op operand => .unary op operand.strip

/-- **The expression without redundant parentheses at any depth.** -/
def Expr.strip : Expr → Expr
  | ⟨first, rest⟩ => (⟨first.strip, Link.stripAll rest⟩ : Expr).bare

def Link.stripAll : List Link → List Link
  | [] => []
  | ⟨op, operand⟩ :: rest => ⟨op, operand.strip⟩ :: Link.stripAll rest

def Expr.stripAll : List Expr → List Expr
  | [] => []
  | e :: es => e.strip :: Expr.stripAll es

end

theorem Link.stripAll_append (ls ms : List Link) : Link.stripAll (ls ++ ms) = Link.stripAll ls ++ Link.stripAll ms := by
  induction ls with
  | nil => rfl
  | cons l ls ih =>
    cases l with
    | mk op x => exact congrArg (Link.mk op x.strip :: ·) ih

theorem Expr.stripAll_append (es fs : List Expr) : Expr.stripAll (es ++ fs) = Expr.stripAll es ++ Expr.stripAll fs := by
  induction es with
  | nil => rfl
  | cons e es ih => exact congrArg (e.strip :: ·) ih

theorem Link.stripAll_eq_nil {ls : List Link} : Link.stripAll ls = [] ↔ ls = [] := by
  cases ls with
  | nil => simp [Link.stripAll]
  | cons l ls => cases l with
    | mk op x => simp [Link.stripAll]

@[simp] theorem Expr.bare_strip (e : Expr) : e.strip.bare = e.strip := by
  cases e with
  | mk first rest => rw [Expr.strip, Expr.bare_bare]

theorem Operand.group_of_isChain {e : Expr} (h : e.isChain = true) : Operand.group e = .paren e := by
  unfold Operand.group
  rw [if_neg (by simpa [Expr.isChain] using h)]

theorem Operand.of_strip_eq_paren {x : Operand} {e : Expr} (h : x.strip = .paren e) :
    e.isChain = true ∧ ∃ inner, x = .paren inner := by
  cases x with
  | paren inner =>
    refine ⟨?_, inner, rfl⟩
    rw [Operand.strip] at h
    unfold Operand.group at h
    split at h
    · rename_i single
      -- a single operand that is not in parentheses, as the whole of it is not
      have whole : inner.strip = ⟨.paren e, []⟩ := by
        cases hs : inner.strip with
        | mk first rest =>
          rw [hs] at h single
          exact congrArg₂ Expr.mk h (List.isEmpty_iff.1 single)
      exact absurd (inner.bare_strip.trans whole) (Expr.bare_ne_paren _ e)
    · rename_i chain
      cases h
      simpa [Expr.isChain] using chain
  | _ => cases h

@[simp] theorem Operand.bare_strip (x : Operand) : x.strip.bare = x.strip := by
  unfold Operand.bare
  split
  · rename_i h
    exact absurd (Operand.of_strip_eq_paren h).1 (by simp [Expr.isChain])
  · rfl

theorem Operand.strip_paren_ofOperand (x : Operand) : (Operand.paren (.ofOperand x)).strip = x.strip := by
  show Operand.group (⟨x.strip, []⟩ : Expr).bare = x.strip
  cases hx : x.strip with
  | paren e =>
    have chain := (Operand.of_strip_eq_paren hx).1
    show Operand.group e.bare = _
    rw [Expr.bare_of_isChain chain, Operand.group_of_isChain chain]
  | _ => rfl

theorem Expr.strip_ofOperand_paren (e : Expr) : (Expr.ofOperand (.paren e)).strip = e.strip := by
  show (⟨.group e.strip, []⟩ : Expr).bare = e.strip
  rw [Expr.bare_group, Expr.bare_strip]

theorem Operand.strip_bare (x : Operand) : x.bare.strip = x.strip := by
  fun_induction Operand.bare x with
  | case1 x ih => rw [ih]; exact (Operand.strip_paren_ofOperand x).symm
  | case2 => rfl

theorem Expr.strip_bare (e : Expr) : e.bare.strip = e.strip := by
  fun_induction Expr.bare e with
  | case1 e ih => rw [ih]; exact (Expr.strip_ofOperand_paren e).symm
  | case2 => rfl

theorem Expr.strip_eq (e : Expr) : e.strip = ⟨e.bare.first.strip, Link.stripAll e.bare.rest⟩ := by
  rw [← Expr.strip_bare]
  have noParen := e.bare_ne_paren
  generalize e.bare = b at noParen ⊢
  obtain ⟨x, rest⟩ := b
  refine Expr.bare_of_ne_paren (fun inner he => ?_)
  obtain ⟨hx, hrest⟩ := Expr.mk.inj he
  obtain ⟨-, inner', rfl⟩ := Operand.of_strip_eq_paren hx
  exact noParen inner' (congrArg (Expr.mk _) (Link.stripAll_eq_nil.1 hrest))

theorem Expr.strip_of_isChain {e : Expr} (h : e.isChain = true) : e.strip.isChain = true := by
  rw [Expr.strip_eq, Expr.bare_of_isChain h]
  unfold Expr.isChain at h ⊢
  rw [Bool.not_eq_true', List.isEmpty_eq_false_iff] at h ⊢
  exact fun nil => h (Link.stripAll_eq_nil.1 nil)

/-! ### The normal form -/

mutual

theorem Operand.Wrap.strip_eq : ∀ {x y : Operand}, Operand.Wrap x y → x.strip = y.strip
  | x, _, .whole _ => (Operand.strip_paren_ofOperand x).symm
  | _, _, .argument f before after h => by
    rw [Operand.strip, Operand.strip, Expr.stripAll_append, Expr.stripAll_append, Expr.stripAll, Expr.stripAll,
      h.strip_eq]
  | _, _, .inner h => by rw [Operand.strip, Operand.strip, h.strip_eq]
  | _, _, .unary op h => by rw [Operand.strip, Operand.strip, h.strip_eq]

theorem Expr.Wrap.strip_eq : ∀ {e e' : Expr}, Expr.Wrap e e' → e.strip = e'.strip
  | e, _, .whole _ => (Expr.strip_ofOperand_paren e).symm
  | _, _, .first rest h => by rw [Expr.strip, Expr.strip, h.strip_eq]
  | _, _, .link first before op after h => by
    rw [Expr.strip, Expr.strip, Link.stripAll_append, Link.stripAll_append, Link.stripAll, Link.stripAll, h.strip_eq]

end

theorem eqvGen_inside {α β : Type} {r : α → α → Prop} {s : β → β → Prop} (f : α → β)
    (step : ∀ {a b}, r a b → s (f a) (f b)) {a b : α} (h : EqvGen r a b) : EqvGen s (f a) (f b) := by
  induction h with
  | rel a b h => exact .rel _ _ (step h)
  | refl a => exact .refl _
  | symm a b _ ih => exact .symm _ _ ih
  | trans a b c _ _ ih ih' => exact .trans _ _ _ ih ih'

theorem Operand.reparen_group (e : Expr) : (Operand.paren e).Reparen (.group e) := by
  obtain ⟨x, rest⟩ := e
  cases rest with
  | nil => exact .symm _ _ (.rel _ _ (.whole x))
  | cons l ls => exact .refl _

theorem Expr.reparen_bare (e : Expr) : e.Reparen e.bare := by
  fun_induction Expr.bare e with
  | case1 e ih => exact .trans _ _ _ (.symm _ _ (.rel _ _ (.whole e))) ih
  | case2 => exact .refl _

mutual

theorem Operand.reparen_strip : ∀ x : Operand, x.Reparen x.strip
  | .lit _ => .refl _
  | .ident _ => .refl _
  | .call f args => Expr.reparen_stripAll f [] args
  | .paren e => .trans _ _ _ (eqvGen_inside Operand.paren .inner e.reparen_strip) (Operand.reparen_group _)
  | .unary op x => eqvGen_inside (Operand.unary op) (.unary op) x.reparen_strip

/-- **Taking out all redundant parentheses is taking them out one by one.** -/
theorem Expr.reparen_strip : ∀ e : Expr, e.Reparen e.strip
  | ⟨first, rest⟩ =>
    .trans _ _ _ (eqvGen_inside (Expr.mk · rest) (.first rest) first.reparen_strip)
      (.trans _ _ _ (Link.reparen_stripAll first.strip [] rest) (Expr.reparen_bare _))

theorem Link.reparen_stripAll (first : Operand) : ∀ before after : List Link,
    Expr.Reparen ⟨first, before ++ after⟩ ⟨first, before ++ Link.stripAll after⟩
  | _, [] => .refl _
  | before, ⟨op, x⟩ :: after => by
    have ih := Link.reparen_stripAll first (before ++ [⟨op, x.strip⟩]) after
    rw [List.append_assoc, List.append_assoc] at ih
    exact .trans _ _ _
      (eqvGen_inside (fun y => Expr.mk first (before ++ ⟨op, y⟩ :: after)) (.link first before op after) x.reparen_strip) ih

theorem Expr.reparen_stripAll (f : String) : ∀ before after : List Expr,
    Operand.Reparen (.call f (before ++ after)) (.call f (before ++ Expr.stripAll after))
  | _, [] => .refl _
  | before, e :: after => by
    have ih := Expr.reparen_stripAll f (before ++ [e.strip]) after
    rw [List.append_assoc, List.append_assoc] at ih
    exact .trans _ _ _
      (eqvGen_inside (fun e => Operand.call f (before ++ e :: after)) (.argument f before after) e.reparen_strip) ih

end

/-- **Two expressions are the same up to redundant parentheses exactly when nothing distinguishes them without.** -/
theorem Expr.reparen_iff {e e' : Expr} : e.Reparen e' ↔ e.strip = e'.strip := by
  constructor
  · intro h
    induction h with
    | rel _ _ h => exact h.strip_eq
    | refl _ => rfl
    | symm _ _ _ ih => exact ih.symm
    | trans _ _ _ _ _ ih ih' => exact ih.trans ih'
  · intro h
    have strip' := e'.reparen_strip
    rw [← h] at strip'
    exact .trans _ _ _ e.reparen_strip (.symm _ _ strip')

instance : DecidableRel Expr.Reparen := fun _ _ => decidable_of_iff _ Expr.reparen_iff.symm

/-- Parentheses around a chain that is an operand are not redundant. -/
example : ¬ Expr.Reparen ⟨.paren ⟨.ident "a", [⟨.add, .ident "b"⟩]⟩, [⟨.mul, .ident "c"⟩]⟩
    ⟨.ident "a", [⟨.add, .ident "b"⟩, ⟨.mul, .ident "c"⟩]⟩ := by decide +kernel

end ChainCalc
