import ChainCalc.Proofs.Compile.Steps
import ChainCalc.Proofs.Precedence.Tree
import ChainCalc.Proofs.Standard.Chains
/-!
# Cuts — a chain is always taken apart at the root of its tree

The standard registry settles every chain without an ellipsis, as it is or regrouped (`exists_settled`).  Whichever way
it goes, the pieces that are compiled next are the trees below the root of the precedence tree, or below the root and
its left child where a product and a sum are fused.
-/
namespace ChainCalc

/-! ### Chains without an ellipsis -/

structure Tree.Plain (t : Tree Operand) : Prop where
  leaf : ∀ x ∈ t.leaves, x.isEllipsis = false
  operator : ∀ op ∈ t.operators, op ≠ .not

theorem Tree.plain_node {left right : Tree Operand} {op : Operator} (h : (Tree.node left op right).Plain) :
    left.Plain ∧ right.Plain :=
  ⟨⟨fun x hx => h.leaf x (List.mem_append_left _ hx), fun o ho => h.operator o (List.mem_append_left _ ho)⟩,
    ⟨fun x hx => h.leaf x (List.mem_append_right _ hx),
      fun o ho => h.operator o (List.mem_append_right _ (List.mem_cons_of_mem _ ho))⟩⟩

theorem Operand.isEllipsis_of_leaves {y : Operand} (h : ∀ x ∈ y.tree.leaves, x.isEllipsis = false) :
    y.isEllipsis = false := by
  rw [← Operand.tree_bare] at h
  cases hb : y.bare with
  | ident name =>
    rw [hb] at h
    have hleaf := h (.ident name) (List.mem_singleton.2 rfl)
    unfold Operand.isEllipsis Operand.placeholder? at hleaf ⊢
    rw [hb]
    exact hleaf
  | _ =>
    unfold Operand.isEllipsis Operand.placeholder?
    rw [hb]
    rfl

theorem Tree.Plain.steady {e : Expr} (h : e.tree.Plain) : (Cursor.start e).Steady := by
  obtain ⟨first, rest⟩ := e
  have hleaf := h.leaf
  rw [Expr.leaves_tree] at hleaf
  refine Cursor.steady_start.2 (fun l hl => ?_)
  exact Operand.isEllipsis_of_leaves
    (fun x hx => hleaf x (List.mem_append_right _ (List.mem_flatMap.2 ⟨l, hl, hx⟩)))

/-! ### Where a chain is cut -/

/-- The pieces that a settled chain is compiled from: two around the operator at the root of its tree, or three of a
product and a sum. -/
inductive Expr.Settled (c : Expr) : Entry → Captures → Prop
  | binary {op : Operator} {a b : Expr} (root : c.tree = .node a.tree op b.tree) (left : a.size < c.size)
      (right : b.size < c.size) : Settled c (Standard.binaryEntry op) ⟨[("_1", [a.bare]), ("_2", [b.bare])]⟩
  | fused {a b d : Expr} (root : c.tree = .node (.node a.tree .mul b.tree) .add d.tree) (left : a.size < c.size)
      (middle : b.size < c.size) (right : d.size < c.size) :
      Settled c Standard.fusedEntry ⟨[("_a", [a.bare]), ("_b", [b.bare]), ("_c", [d.bare])]⟩

theorem Expr.CutAt.tree {c a b : Expr} {op : Operator} (h : c.CutAt op a b) : c.tree = .node a.tree op b.tree := by
  obtain ⟨rfl, ha, hb⟩ := h
  obtain ⟨x, xs⟩ := a
  obtain ⟨y, ys⟩ := b
  exact tree_split x xs op y ys (fun l hl => Nat.le_of_lt (ha l hl)) hb

theorem Expr.CutFused.tree {c a b d : Expr} (h : c.CutFused a b d) :
    c.tree = .node (.node a.tree .mul b.tree) .add d.tree := by
  obtain ⟨rfl, ha, hb, hd⟩ := h
  obtain ⟨x, xs⟩ := a
  obtain ⟨y, ys⟩ := b
  obtain ⟨z, zs⟩ := d
  have hsum : ∀ l ∈ xs ++ ⟨.mul, y⟩ :: ys, Operator.add.precedence ≤ l.op.precedence := by
    intro l hl
    rcases List.mem_append.1 hl with hl | hl
    · exact Nat.le_of_lt (Nat.lt_trans (by decide) (ha l hl))
    · rcases List.mem_cons.1 hl with rfl | hl
      · exact Nat.le_succ 4
      · exact Nat.le_of_lt (Nat.lt_trans (by decide) (hb l hl))
  have hlist : xs ++ (⟨.mul, y⟩ : Link) :: (ys ++ ⟨.add, z⟩ :: zs) = (xs ++ ⟨.mul, y⟩ :: ys) ++ ⟨.add, z⟩ :: zs := by
    rw [List.append_assoc, List.cons_append]
  show (⟨x, xs ++ (⟨.mul, y⟩ : Link) :: (ys ++ ⟨.add, z⟩ :: zs)⟩ : Expr).tree = _
  rw [hlist, tree_split x _ .add z zs hsum hd, tree_split x xs .mul y ys (fun l hl => Nat.le_of_lt (ha l hl)) hb]

theorem regroup?_isSome (first : Operand) (l m : Link) (ls : List Link) :
    ∃ grouped, (⟨first, l :: m :: ls⟩ : Expr).regroup? = some grouped := by
  refine Option.ne_none_iff_exists'.1 (fun none => ?_)
  have short := (Expr.regroup?_eq_none_iff _).1 none
  rw [Expr.bare_of_isChain rfl] at short
  simp only [Expr.length, List.length_cons] at short
  omega

theorem Expr.CutAt.of_pair {x y : Operand} {op op' : Operator} {a b : Expr}
    (h : Expr.CutAt ⟨x, [⟨op, y⟩]⟩ op' a b) : op' = op ∧ a = ⟨x, []⟩ ∧ b = ⟨y, []⟩ := by
  obtain ⟨h, -, -⟩ := h
  obtain ⟨a₁, as⟩ := a
  obtain ⟨b₁, bs⟩ := b
  cases as with
  | nil =>
    cases h
    exact ⟨rfl, rfl, rfl⟩
  | cons l as =>
    have hlen := congrArg (fun e => e.rest.length) h
    simp only [List.cons_append, List.length_cons, List.length_append, List.length_nil] at hlen
    omega

theorem Expr.CutFused.not_pair {x y : Operand} {op : Operator} {a b d : Expr} :
    ¬ Expr.CutFused ⟨x, [⟨op, y⟩]⟩ a b d := by
  rintro ⟨h, -⟩
  have hlen := congrArg (fun e => e.rest.length) h
  simp only [List.length_cons, List.length_append, List.length_nil] at hlen
  omega

/-- A chain that no pattern accepts as it is, is settled at its loosest operator. -/
theorem settled_of_regroup? {c grouped : Expr} (long : c.isChain = true) (plain : c.tree.Plain)
    (h : c.regroup? = some grouped) :
    ∃ entry captures, Registry.standard.find? grouped = some (entry, captures) ∧ c.Settled entry captures := by
  have hplain : grouped.tree.Plain := by rw [tree_regroup? h]; exact plain
  obtain ⟨first, before, loosest, after, hc, rfl, hb, ha⟩ := regroup?_spec h
  obtain ⟨op, x⟩ := loosest
  rw [Expr.bare_of_isChain long] at hc
  have hop : op ≠ .not := plain.operator op (Expr.op_mem_operators (l := ⟨op, x⟩) (by rw [hc]; simp))
  obtain ⟨⟨entry, captures⟩, hf⟩ := Option.isSome_iff_exists.1 (find?_pair hop hplain.steady)
  refine ⟨entry, captures, hf, ?_⟩
  rcases find?_chain rfl hplain.steady hf with ⟨op', a, b, rfl, cut, rfl⟩ | ⟨a, b, d, rfl, cut, rfl⟩
  · obtain ⟨rfl, rfl, rfl⟩ := cut.of_pair
    rw [Expr.bare_group, Expr.bare_group]
    have hx := x.size_pos
    have hfirst := first.size_pos
    refine .binary ?_ ?_ ?_
    · rw [hc, tree_split first before op' x after hb ha]
    · rw [hc]
      simp only [Expr.size, Link.sizes_append, Link.sizes]
      omega
    · rw [hc]
      simp only [Expr.size, Link.sizes_append, Link.sizes]
      omega
  · exact absurd cut Expr.CutFused.not_pair

/-- **What is asked about a chain, and how it is settled.** -/
theorem exists_settled {c : Expr} (long : c.isChain = true) (plain : c.tree.Plain) :
    ∃ candidate entry captures, (∀ w env, Asks .standard w env c candidate) ∧
      Registry.standard.find? candidate = some (entry, captures) ∧ c.Settled entry captures := by
  cases hf : Registry.standard.find? c with
  | some p =>
    obtain ⟨entry, captures⟩ := p
    refine ⟨c, entry, captures, fun w env => .chain long (by rw [hf]; rfl), hf, ?_⟩
    rcases find?_chain long plain.steady hf with ⟨op, a, b, rfl, cut, rfl⟩ | ⟨a, b, d, rfl, cut, rfl⟩
    · exact .binary cut.tree cut.size_lt.1 cut.size_lt.2
    · exact .fused cut.tree cut.size_lt.1 cut.size_lt.2.1 cut.size_lt.2.2
  | none =>
    have hregroup : ∃ grouped, c.regroup? = some grouped := by
      obtain ⟨first, rest⟩ := c
      match rest, long with
      | [⟨op, x⟩], _ =>
        have hop : op ≠ .not := plain.operator op (Expr.op_mem_operators (l := ⟨op, x⟩) List.mem_cons_self)
        have hsome := find?_pair hop plain.steady
        rw [hf] at hsome
        cases hsome
      | l :: m :: ls, _ => exact regroup?_isSome first l m ls
    obtain ⟨grouped, hg⟩ := hregroup
    obtain ⟨entry, captures, hf', settled⟩ := settled_of_regroup? long plain hg
    exact ⟨grouped, entry, captures, fun w env => .regrouped long hf hg, hf', settled⟩

/-- Nothing else is asked about a chain. -/
theorem Asks.unique {registry : Registry} {w w' : Workspace} {env env' : Env} {c a b : Expr} (long : c.isChain = true)
    (ha : Asks registry w env c a) (hb : Asks registry w' env' c b) : a = b := by
  cases ha with
  | name | call | unary => cases long
  | chain _ found =>
    cases hb with
    | name | call | unary => cases long
    | chain => rfl
    | regrouped _ missed => rw [missed] at found; cases found
  | regrouped _ missed split =>
    cases hb with
    | name | call | unary => cases long
    | chain _ found => rw [missed] at found; cases found
    | regrouped _ _ split' => exact Option.some.inj (split.symm.trans split')

end ChainCalc
