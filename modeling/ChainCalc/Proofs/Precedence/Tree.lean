import ChainCalc.Expr.Regroup
import ChainCalc.Expr.Size
/-!
# Precedence trees — what a flat chain means

An operand is attached to the tree of the operands before it at the innermost place on the right edge whose operator
binds looser than its own; so operators of equal precedence group to the left.  Parentheses make a tree of their own,
which nothing is attached inside of, and around a single operand they leave no trace.

The tree of a chain is the tree of its two sides at any link that binds looser than all links behind it and no tighter
than any before it (`tree_split`), in particular at the place where a chain is regrouped (`tree_regroup?`).
-/
namespace ChainCalc

inductive Tree (α : Type) where
  | leaf (a : α)
  | node (left : Tree α) (op : Operator) (right : Tree α)

namespace Tree

variable {α : Type}

def attach : Tree α → Operator → α → Tree α
  | .leaf a, op, x => .node (.leaf a) op (.leaf x)
  | .node left o right, op, x =>
    if o.precedence < op.precedence then .node left o (right.attach op x) else .node (.node left o right) op (.leaf x)

def join : Tree (Tree α) → Tree α
  | .leaf t => t
  | .node left op right => .node left.join op right.join

def leaves : Tree α → List α
  | .leaf a => [a]
  | .node left _ right => left.leaves ++ right.leaves

def operators : Tree α → List Operator
  | .leaf _ => []
  | .node left op right => left.operators ++ op :: right.operators

def AtLeast (p : Nat) : Tree α → Prop
  | .leaf _ => True
  | .node left op right => left.AtLeast p ∧ p ≤ op.precedence ∧ right.AtLeast p

theorem atLeast_attach {p : Nat} {op : Operator} (hop : p ≤ op.precedence) (x : α) :
    ∀ {t : Tree α}, t.AtLeast p → (t.attach op x).AtLeast p
  | .leaf _, _ => ⟨trivial, hop, trivial⟩
  | .node left o right, ⟨hl, ho, hr⟩ => by
    unfold attach
    split
    · exact ⟨hl, ho, atLeast_attach hop x hr⟩
    · exact ⟨⟨hl, ho, hr⟩, hop, trivial⟩

theorem attach_of_atLeast {op : Operator} (x : α) : ∀ {t : Tree α}, t.AtLeast op.precedence →
    t.attach op x = .node t op (.leaf x)
  | .leaf _, _ => rfl
  | .node left o right, ⟨_, ho, _⟩ => by
    unfold attach
    rw [if_neg (Nat.not_lt.2 ho)]

theorem leaves_attach (op : Operator) (x : α) : ∀ t : Tree α, (t.attach op x).leaves = t.leaves ++ [x]
  | .leaf _ => rfl
  | .node left o right => by
    unfold attach
    split
    · rw [leaves, leaves_attach op x right, leaves, List.append_assoc]
    · rfl

theorem operators_attach (op : Operator) (x : α) : ∀ t : Tree α, (t.attach op x).operators = t.operators ++ [op]
  | .leaf _ => rfl
  | .node left o right => by
    unfold attach
    split
    · rw [operators, operators_attach op x right, operators, List.append_assoc]
      rfl
    · rfl

theorem leaves_join : ∀ t : Tree (Tree α), t.join.leaves = t.leaves.flatMap leaves
  | .leaf t => by rw [join, leaves, List.flatMap_singleton]
  | .node left op right => by rw [join, leaves, leaves_join left, leaves_join right, leaves, List.flatMap_append]

theorem operators_subset_join : ∀ t : Tree (Tree α), t.operators ⊆ t.join.operators
  | .leaf _ => List.nil_subset _
  | .node left op right => by
    rw [join, operators, operators, List.append_subset, List.cons_subset]
    exact ⟨List.subset_append_of_subset_left _ (operators_subset_join left), by simp,
      List.subset_append_of_subset_right _ (List.subset_cons_of_subset _ (operators_subset_join right))⟩

end Tree

/-! ### The tree of a chain -/

mutual

def Operand.tree : Operand → Tree Operand
  | .paren inner => inner.tree
  | .lit value => .leaf (.lit value)
  | .ident name => .leaf (.ident name)
  | .call name args => .leaf (.call name args)
  | .unary op operand => .leaf (.unary op operand)

/-- **The precedence tree of an expression.** -/
def Expr.tree : Expr → Tree Operand
  | ⟨first, rest⟩ => (Link.grow (.leaf first.tree) rest).join

def Link.grow (t : Tree (Tree Operand)) : List Link → Tree (Tree Operand)
  | [] => t
  | ⟨op, operand⟩ :: rest => Link.grow (t.attach op operand.tree) rest

end

theorem Expr.tree_single (x : Operand) : (⟨x, []⟩ : Expr).tree = x.tree := by
  rw [Expr.tree, Link.grow, Tree.join]

@[simp] theorem Expr.tree_bare (e : Expr) : e.bare.tree = e.tree := by
  fun_induction Expr.bare e with
  | case1 e ih => rw [ih, Expr.tree_single, Operand.tree]
  | case2 e _ => rfl

theorem Operand.tree_bare (x : Operand) : x.bare.tree = x.tree := by
  fun_induction Operand.bare x with
  | case1 x ih => rw [ih, Operand.tree, Expr.tree_single]
  | case2 x _ => rfl

theorem Operand.tree_group (e : Expr) : (Operand.group e).tree = e.tree := by
  obtain ⟨first, rest⟩ := e
  unfold Operand.group
  cases rest with
  | nil => exact (Expr.tree_single first).symm
  | cons l ls => rw [if_neg (by simp), Operand.tree]

theorem grow_append (t : Tree (Tree Operand)) (ls ls' : List Link) :
    Link.grow t (ls ++ ls') = Link.grow (Link.grow t ls) ls' := by
  induction ls generalizing t with
  | nil => rfl
  | cons l ls ih =>
    obtain ⟨op, x⟩ := l
    rw [List.cons_append, Link.grow, ih, Link.grow]

theorem atLeast_grow {p : Nat} {ls : List Link} (h : ∀ l ∈ ls, p ≤ l.op.precedence) {t : Tree (Tree Operand)}
    (ht : t.AtLeast p) : (Link.grow t ls).AtLeast p := by
  induction ls generalizing t with
  | nil => exact ht
  | cons l ls ih =>
    obtain ⟨op, x⟩ := l
    rw [Link.grow]
    exact ih (fun l hl => h l (List.mem_cons_of_mem _ hl))
      (Tree.atLeast_attach (h ⟨op, x⟩ List.mem_cons_self) x.tree ht)

theorem grow_node {op : Operator} {ls : List Link} (h : ∀ l ∈ ls, op.precedence < l.op.precedence)
    (left right : Tree (Tree Operand)) : Link.grow (.node left op right) ls = .node left op (Link.grow right ls) := by
  induction ls generalizing right with
  | nil => rfl
  | cons l ls ih =>
    obtain ⟨o, x⟩ := l
    rw [Link.grow, Tree.attach, if_pos (h ⟨o, x⟩ List.mem_cons_self), Link.grow]
    exact ih (fun l hl => h l (List.mem_cons_of_mem _ hl)) _

theorem leaves_grow (ls : List Link) : ∀ t : Tree (Tree Operand),
    (Link.grow t ls).leaves = t.leaves ++ ls.map (fun l => l.operand.tree) := by
  induction ls with
  | nil => intro t; rw [Link.grow, List.map_nil, List.append_nil]
  | cons l ls ih =>
    intro t
    obtain ⟨op, x⟩ := l
    rw [Link.grow, ih, Tree.leaves_attach, List.append_assoc]
    rfl

theorem operators_grow (ls : List Link) : ∀ t : Tree (Tree Operand),
    (Link.grow t ls).operators = t.operators ++ ls.map Link.op := by
  induction ls with
  | nil => intro t; rw [Link.grow, List.map_nil, List.append_nil]
  | cons l ls ih =>
    intro t
    obtain ⟨op, x⟩ := l
    rw [Link.grow, ih, Tree.operators_attach, List.append_assoc]
    rfl

theorem Expr.leaves_tree (first : Operand) (rest : List Link) :
    (⟨first, rest⟩ : Expr).tree.leaves = first.tree.leaves ++ rest.flatMap (fun l => l.operand.tree.leaves) := by
  rw [Expr.tree, Tree.leaves_join, leaves_grow, List.flatMap_append, List.flatMap_map]
  rw [Tree.leaves, List.flatMap_singleton]

theorem Expr.op_mem_operators {e : Expr} {l : Link} (h : l ∈ e.rest) : l.op ∈ e.tree.operators := by
  obtain ⟨first, rest⟩ := e
  rw [Expr.tree]
  refine Tree.operators_subset_join _ ?_
  rw [operators_grow]
  exact List.mem_append_right _ (List.mem_map_of_mem h)

/-- **A chain split at a link** that binds no tighter than the links before it and looser than those after it. -/
theorem tree_split (first : Operand) (before : List Link) (op : Operator) (x : Operand) (after : List Link)
    (hb : ∀ l ∈ before, op.precedence ≤ l.op.precedence) (ha : ∀ l ∈ after, op.precedence < l.op.precedence) :
    (⟨first, before ++ ⟨op, x⟩ :: after⟩ : Expr).tree = .node (⟨first, before⟩ : Expr).tree op (⟨x, after⟩ : Expr).tree := by
  have hroot : (Link.grow (.leaf first.tree) before).AtLeast op.precedence := atLeast_grow hb trivial
  rw [Expr.tree, grow_append, Link.grow, Tree.attach_of_atLeast _ hroot, grow_node ha, Tree.join, ← Expr.tree, ← Expr.tree]

/-! ### Regrouping keeps the tree -/

theorem Link.splitLoosest_eq_none {ls : List Link} : Link.splitLoosest ls = none ↔ ls = [] := by
  constructor
  · intro h
    cases ls with
    | nil => rfl
    | cons l ls =>
      unfold Link.splitLoosest at h
      split at h
      · cases h
      · split at h <;> cases h
  · rintro rfl
    rfl

theorem splitLoosest_spec : ∀ {ls before after : List Link} {loosest : Link},
    Link.splitLoosest ls = some (before, loosest, after) →
      ls = before ++ loosest :: after ∧ (∀ l ∈ before, loosest.op.precedence ≤ l.op.precedence) ∧
        (∀ l ∈ after, loosest.op.precedence < l.op.precedence)
  | [], _, _, _, h => by cases h
  | l :: ls, before, after, loosest, h => by
    unfold Link.splitLoosest at h
    cases hs : Link.splitLoosest ls with
    | none =>
      rw [hs] at h
      cases h
      rw [Link.splitLoosest_eq_none.1 hs]
      exact ⟨rfl, (fun l hl => by cases hl), (fun l hl => by cases hl)⟩
    | some p =>
      obtain ⟨b, m, a⟩ := p
      obtain ⟨rfl, hb, ha⟩ := splitLoosest_spec hs
      rw [hs] at h
      dsimp only at h
      split at h
      · rename_i hle
        cases h
        refine ⟨rfl, fun l' hl' => ?_, ha⟩
        rcases List.mem_cons.1 hl' with rfl | hl'
        · exact hle
        · exact hb l' hl'
      · rename_i hlt
        cases h
        refine ⟨rfl, (fun l hl => by cases hl), fun l' hl' => ?_⟩
        have hlt' := Nat.lt_of_not_le hlt
        rcases List.mem_append.1 hl' with hl' | hl'
        · exact Nat.lt_of_lt_of_le hlt' (hb l' hl')
        · rcases List.mem_cons.1 hl' with rfl | hl'
          · exact hlt'
          · exact Nat.lt_trans hlt' (ha l' hl')

theorem Expr.regroup?_eq_none_iff (e : Expr) : e.regroup? = none ↔ e.bare.length ≤ 2 := by
  unfold Expr.regroup?
  obtain ⟨first, rest⟩ := e.bare
  dsimp only [Expr.length]
  split
  · exact iff_of_true rfl (by omega)
  · rename_i long
    refine iff_of_false ?_ (by omega)
    split
    · rename_i none
      rw [Link.splitLoosest_eq_none.1 none] at long
      exact absurd (by simp) long
    · exact nofun

/-- A chain of three or more operands, regrouped: two operands around one of its operators. -/
theorem regroup?_spec {e grouped : Expr} (h : e.regroup? = some grouped) :
    ∃ first before loosest after, e.bare = ⟨first, before ++ loosest :: after⟩ ∧
      grouped = ⟨.group ⟨first, before⟩, [⟨loosest.op, .group ⟨loosest.operand, after⟩⟩]⟩ ∧
      (∀ l ∈ before, loosest.op.precedence ≤ l.op.precedence) ∧ (∀ l ∈ after, loosest.op.precedence < l.op.precedence) := by
  unfold Expr.regroup? at h
  cases he : e.bare with
  | mk first rest =>
    rw [he] at h
    dsimp only at h
    split at h
    · cases h
    · cases hs : Link.splitLoosest rest with
      | none => rw [hs] at h; cases h
      | some p =>
        obtain ⟨before, loosest, after⟩ := p
        rw [hs] at h
        cases h
        obtain ⟨rfl, hb, ha⟩ := splitLoosest_spec hs
        exact ⟨first, before, loosest, after, rfl, rfl, hb, ha⟩

/-- **Regrouping keeps the precedence tree.** -/
theorem tree_regroup? {e grouped : Expr} (h : e.regroup? = some grouped) : grouped.tree = e.tree := by
  obtain ⟨first, before, ⟨op, x⟩, after, he, rfl, hb, ha⟩ := regroup?_spec h
  have hg := tree_split (.group ⟨first, before⟩) [] op (.group ⟨x, after⟩) [] (by simp) (by simp)
  rw [List.nil_append] at hg
  rw [hg, Expr.tree_single, Expr.tree_single, Operand.tree_group, Operand.tree_group, ← Expr.tree_bare e, he]
  exact (tree_split first before op x after hb ha).symm

end ChainCalc
