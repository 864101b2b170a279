import Mathlib.Data.List.Forall2
import ChainCalc.Proofs.Precedence.Tree
/-!
# The same precedence tree — when two expressions mean the same chain of operators

Two expressions have the same tree when their precedence trees agree node by node, through arguments and operands of
signs as well; redundant parentheses play no part.  A chain may be cut into segments, each of which binds tighter than the
operators on either side, and each segment put in parentheses: the tree stays the same (`Expr.Segmented.sameTree`).
-/
namespace ChainCalc

inductive Tree.Rel {α β : Type} (R : α → β → Prop) : Tree α → Tree β → Prop
  | leaf {a : α} {b : β} (h : R a b) : Rel R (.leaf a) (.leaf b)
  | node {left right : Tree α} {left' right' : Tree β} (op : Operator) (hl : Rel R left left') (hr : Rel R right right') :
      Rel R (.node left op right) (.node left' op right')

/-- **Leaves that agree**: floats as numbers, but a literal always agrees with itself; arguments and the operand of a sign
by their trees. -/
inductive Operand.Same : Operand → Operand → Prop
  | lit {a b : Literal} (h : a = b ∨ (a == b) = true) : Same (.lit a) (.lit b)
  | ident (name : String) : Same (.ident name) (.ident name)
  | call (name : String) {xs ys : List Expr} (h : List.Forall₂ (fun a b => Tree.Rel Same a.tree b.tree) xs ys) :
      Same (.call name xs) (.call name ys)
  | unary (op : Operator) {x y : Operand} (h : Tree.Rel Same x.tree y.tree) : Same (.unary op x) (.unary op y)

def Operand.SameTree (x y : Operand) : Prop := Tree.Rel Operand.Same x.tree y.tree

/-- **Two expressions have the same tree.** -/
def Expr.SameTree (a b : Expr) : Prop := Tree.Rel Operand.Same a.tree b.tree

/-! ### Trees put together -/

namespace Tree

variable {α β : Type} {R : α → β → Prop}

theorem Rel.attach {t : Tree α} {t' : Tree β} (h : t.Rel R t') (op : Operator) {x : α} {y : β} (hxy : R x y) :
    (t.attach op x).Rel R (t'.attach op y) := by
  induction h with
  | leaf h => exact .node op (.leaf h) (.leaf hxy)
  | node o hl hr _ ihr =>
    rw [Tree.attach, Tree.attach]
    split
    · exact .node o hl ihr
    · exact .node op (.node o hl hr) (.leaf hxy)

theorem Rel.join {t : Tree (Tree α)} {t' : Tree (Tree β)} (h : t.Rel (Rel R) t') : t.join.Rel R t'.join := by
  induction h with
  | leaf h => exact h
  | node op _ _ ihl ihr => exact .node op ihl ihr

end Tree

theorem Link.rel_grow {ls ls' : List Link}
    (h : List.Forall₂ (fun l l' : Link => l.op = l'.op ∧ l.operand.SameTree l'.operand) ls ls') :
    ∀ {t t' : Tree (Tree Operand)}, t.Rel (Tree.Rel Operand.Same) t' →
      (Link.grow t ls).Rel (Tree.Rel Operand.Same) (Link.grow t' ls') := by
  induction h with
  | nil => exact fun ht => ht
  | @cons l l' ls ls' hl _ ih =>
    intro t t' ht
    obtain ⟨op, x⟩ := l
    obtain ⟨op', y⟩ := l'
    obtain ⟨rfl, hxy⟩ := hl
    exact ih (ht.attach op hxy)

/-! ### Every expression has its own tree -/

mutual

theorem Operand.sameTree_refl : ∀ x : Operand, x.SameTree x
  | .lit _ => .leaf (.lit (.inl rfl))
  | .ident name => .leaf (.ident name)
  | .call name args => .leaf (.call name (Expr.sameTree_all args))
  | .paren inner => Expr.sameTree_refl inner
  | .unary op x => .leaf (.unary op (Operand.sameTree_refl x))

theorem Expr.sameTree_refl : ∀ e : Expr, e.SameTree e
  | ⟨first, rest⟩ => (Link.rel_grow (Link.sameTree_all rest) (.leaf (Operand.sameTree_refl first))).join

theorem Link.sameTree_all : ∀ ls : List Link,
    List.Forall₂ (fun l l' : Link => l.op = l'.op ∧ l.operand.SameTree l'.operand) ls ls
  | [] => .nil
  | ⟨_, x⟩ :: ls => .cons ⟨rfl, Operand.sameTree_refl x⟩ (Link.sameTree_all ls)

theorem Expr.sameTree_all : ∀ es : List Expr, List.Forall₂ Expr.SameTree es es
  | [] => .nil
  | e :: es => .cons (Expr.sameTree_refl e) (Expr.sameTree_all es)

end

/-! ### Chains of segments -/

/-- Links of a chain against links of the same chain with its segments grouped: each segment binds tighter than the
operator in front of it and the one behind it. -/
inductive Link.Segments : List Link → List Link → Prop
  | nil : Segments [] []
  | cons {op : Operator} {y z : Operand} {seg rest grouped : List Link}
      (tight : ∀ l ∈ seg, op.precedence < l.op.precedence)
      (next : ∀ m ∈ rest.head?, ∀ l ∈ seg, m.op.precedence < l.op.precedence)
      (same : z.SameTree (.paren ⟨y, seg⟩)) (behind : Segments rest grouped) :
      Segments (⟨op, y⟩ :: (seg ++ rest)) (⟨op, z⟩ :: grouped)

inductive Expr.Segmented : Expr → Expr → Prop
  | mk {y z : Operand} {seg rest grouped : List Link} (next : ∀ m ∈ rest.head?, ∀ l ∈ seg, m.op.precedence < l.op.precedence)
      (same : z.SameTree (.paren ⟨y, seg⟩)) (behind : Link.Segments rest grouped) :
      Segmented ⟨y, seg ++ rest⟩ ⟨z, grouped⟩

namespace Tree

variable {α : Type}

def last : Tree α → α
  | .leaf a => a
  | .node _ _ right => right.last

theorem last_attach (op : Operator) (x : α) : ∀ t : Tree α, (t.attach op x).last = x
  | .leaf _ => rfl
  | .node left o right => by
    rw [attach]
    split
    · exact last_attach op x right
    · rfl

theorem attach_join {op : Operator} (x : α) : ∀ {t : Tree (Tree α)}, t.last.AtLeast op.precedence →
    t.join.attach op x = (t.attach op (.leaf x)).join
  | .leaf s, h => attach_of_atLeast x h
  | .node left o right, h => by
    rw [join, attach, attach]
    split
    · rw [join, attach_join x (t := right) h]
    · rfl

theorem attach_join_of_lt {op o : Operator} (h : op.precedence < o.precedence) (s : Tree α) (x : α) : ∀ t : Tree (Tree α),
    (t.attach op s).join.attach o x = (t.attach op (s.attach o x)).join
  | .leaf t => by
    show (Tree.node t op s).attach o x = .node t op (s.attach o x)
    rw [attach, if_pos h]
  | .node left o' right => by
    rw [attach, attach]
    split
    · rename_i hlt
      rw [join, attach, if_pos (Nat.lt_trans hlt h), attach_join_of_lt h s x right]
      rfl
    · rw [join, attach, join, if_pos h]
      rfl

end Tree

theorem Link.grow_segment {op : Operator} (t : Tree (Tree (Tree Operand))) {seg : List Link}
    (tight : ∀ l ∈ seg, op.precedence < l.op.precedence) : ∀ s : Tree (Tree Operand),
      Link.grow (t.attach op s).join seg = (t.attach op (Link.grow s seg)).join := by
  induction seg with
  | nil => exact fun s => rfl
  | cons l seg ih =>
    intro s
    obtain ⟨o, x⟩ := l
    obtain ⟨ho, hseg⟩ := List.forall_mem_cons.1 tight
    rw [Link.grow, Tree.attach_join_of_lt ho, ih hseg, Link.grow]

theorem Link.atLeast_segment {x : Operand} {seg rest : List Link}
    (next : ∀ m ∈ rest.head?, ∀ l ∈ seg, m.op.precedence < l.op.precedence) :
    ∀ m ∈ rest.head?, (Link.grow (.leaf x.tree) seg).AtLeast m.op.precedence :=
  fun m hm => atLeast_grow (fun l hl => Nat.le_of_lt (next m hm l hl)) trivial

theorem Tree.Rel.join_join {t : Tree (Tree Operand)} {t' : Tree (Tree (Tree Operand))}
    (h : t.Rel (fun s s' => s.Rel Operand.Same s'.join) t') : t.join.Rel Operand.Same t'.join.join := by
  induction h with
  | leaf h => exact h
  | node op _ _ ihl ihr => exact .node op ihl ihr

/-- **Grouped segments leave the tree as it is**: one segment after the other is attached behind the segments before it,
and then filled. -/
theorem Link.Segments.rel_grow {ls grouped : List Link} (h : Link.Segments ls grouped) :
    ∀ {t : Tree (Tree Operand)} {t' : Tree (Tree (Tree Operand))}, t.Rel (fun s s' => s.Rel Operand.Same s'.join) t' →
      (∀ m ∈ ls.head?, t'.last.AtLeast m.op.precedence) →
        (Link.grow t grouped).join.Rel Operand.Same (Link.grow t'.join ls).join := by
  induction h with
  | nil => exact fun ht _ => ht.join_join
  | @cons op y z seg rest grouped tight next same _ ih =>
    intro t t' ht hlast
    rw [Link.grow, Link.grow, Tree.attach_join _ (hlast _ rfl), grow_append, Link.grow_segment t' tight]
    refine ih (ht.attach op ?_) ?_
    · rw [← Expr.tree]
      exact same
    · rw [Tree.last_attach]
      exact Link.atLeast_segment next

theorem Expr.Segmented.sameTree {c grouped : Expr} (h : Expr.Segmented c grouped) : grouped.SameTree c := by
  obtain ⟨next, same, behind⟩ := h
  rename_i y z seg rest links
  have hleaf : (Tree.leaf z.tree).Rel (fun s s' => s.Rel Operand.Same s'.join) (.leaf (Link.grow (.leaf y.tree) seg)) :=
    .leaf (by rw [← Expr.tree]; exact same)
  have hgrow := behind.rel_grow hleaf (Link.atLeast_segment next)
  unfold Expr.SameTree
  rw [Expr.tree, Expr.tree, grow_append]
  exact hgrow

end ChainCalc
