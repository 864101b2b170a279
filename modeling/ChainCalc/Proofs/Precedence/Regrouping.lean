import ChainCalc.Expr.Printer
import ChainCalc.Proofs.Matching.Steps
import ChainCalc.Proofs.Precedence.Tree
/-!
# Regrouping to the end — two operands at every operator

Regrouping takes a chain apart at the root of its precedence tree: at the last of its loosest operators.  The two sides
have fewer operands, so regrouping them in turn comes to an end, with two operands at every operator; what is left then is
the tree itself, written with all its parentheses (`regrouping_follows_the_tree`).
-/
namespace ChainCalc

/-- **A tree written as an expression**: two operands at every operator, each side in parentheses unless it is a leaf. -/
def Tree.parenthesised : Tree Operand → Expr
  | .leaf x => .ofOperand x
  | .node left op right => .binary left.parenthesised op right.parenthesised

theorem Tree.leaves_ne_nil {α : Type} : ∀ t : Tree α, t.leaves ≠ []
  | .leaf _ => List.cons_ne_nil _ _
  | .node left _ _ => List.append_ne_nil_of_left_ne_nil left.leaves_ne_nil _

/-! ### One chain regrouped -/

/-- A chain taken apart at the last of its loosest operators: the operands of the two sides, one side after the other, are
those of the chain. -/
structure Expr.SplitsAt (e left : Expr) (op : Operator) (right : Expr) : Prop where
  operands : e = ⟨left.first, left.rest ++ ⟨op, right.first⟩ :: right.rest⟩
  loosest : ∀ l ∈ e.rest, op.precedence ≤ l.op.precedence
  last : ∀ l ∈ right.rest, op.precedence < l.op.precedence

theorem Expr.SplitsAt.length_lt {e left right : Expr} {op : Operator} (h : e.SplitsAt left op right) :
    left.length < e.length ∧ right.length < e.length := by
  rw [h.operands]
  simp only [Expr.length, List.length_append, List.length_cons]
  omega

/-- What a chain of three or more operands is regrouped to. -/
theorem Expr.exists_splitsAt {e grouped : Expr} (h : e.regroup? = some grouped) :
    ∃ left op right, grouped = .binary left op right ∧ e.bare.SplitsAt left op right := by
  obtain ⟨first, before, ⟨op, x⟩, after, hbare, rfl, hbefore, hafter⟩ := regroup?_spec h
  refine ⟨⟨first, before⟩, op, ⟨x, after⟩, rfl, hbare, fun l hl => ?_, hafter⟩
  rw [hbare] at hl
  rcases List.mem_append.1 hl with hl | hl
  · exact hbefore l hl
  · rcases List.mem_cons.1 hl with rfl | hl
    · exact Nat.le_refl _
    · exact Nat.le_of_lt (hafter l hl)

/-! ### Sides regrouped in turn -/

def Expr.halved (e : Expr) : Expr := e.regroup?.getD e.bare

theorem Expr.tree_halved (e : Expr) : e.halved.tree = e.tree := by
  unfold Expr.halved
  cases h : e.regroup? with
  | none => exact e.tree_bare
  | some grouped => exact tree_regroup? h

theorem Expr.tree_pair (x : Operand) (op : Operator) (y : Operand) :
    (⟨x, [⟨op, y⟩]⟩ : Expr).tree = .node (Expr.ofOperand x).tree op (Expr.ofOperand y).tree :=
  tree_split x [] op y [] (by simp) (by simp)

theorem Expr.length_halved (e : Expr) : e.halved.length ≤ 2 := by
  unfold Expr.halved
  cases h : e.regroup? with
  | none => exact e.regroup?_eq_none_iff.1 h
  | some grouped =>
    obtain ⟨left, op, right, rfl, -⟩ := Expr.exists_splitsAt h
    exact Nat.le_refl 2

/-- **An expression regrouped, and then its two sides**, until no side has more than one operand. -/
def Expr.regroupAll (e : Expr) : Expr :=
  match _h : e.halved with
  | ⟨x, [⟨op, y⟩]⟩ => .binary (Expr.ofOperand x).regroupAll op (Expr.ofOperand y).regroupAll
  | single => single
termination_by e.tree.leaves.length
decreasing_by
  all_goals
    rw [← e.tree_halved, _h, Expr.tree_pair, Tree.leaves, List.length_append]
    have := List.length_pos_iff.2 (Expr.ofOperand x).tree.leaves_ne_nil
    have := List.length_pos_iff.2 (Expr.ofOperand y).tree.leaves_ne_nil
    omega

theorem Expr.halved_cases (e : Expr) :
    (∃ x op y, e.halved = ⟨x, [⟨op, y⟩]⟩) ∨ ∃ x, e.halved = .ofOperand x ∧ e.tree = .leaf x := by
  have short := e.length_halved
  have notParen : ∀ inner, e.halved ≠ ⟨.paren inner, []⟩ := by
    unfold Expr.halved
    cases h : e.regroup? with
    | none => exact e.bare_ne_paren
    | some grouped =>
      obtain ⟨left, op, right, rfl, -⟩ := Expr.exists_splitsAt h
      exact fun inner heq => absurd (congrArg (fun x => x.rest.length) heq) (by simp [Expr.binary, Expr.andThen])
  rw [← e.tree_halved]
  generalize e.halved = halved at short notParen ⊢
  obtain ⟨x, rest⟩ := halved
  cases rest with
  | nil =>
    refine .inr ⟨x, rfl, ?_⟩
    rw [Expr.tree_single]
    cases x with
    | paren inner => exact absurd rfl (notParen inner)
    | _ => rfl
  | cons l rest =>
    obtain ⟨op, y⟩ := l
    cases rest with
    | nil => exact .inl ⟨x, op, y, rfl⟩
    | cons m rest =>
      simp only [Expr.length, List.length_cons] at short
      omega

theorem Expr.regroupAll_eq (e : Expr) : e.regroupAll = e.tree.parenthesised := by
  fun_induction Expr.regroupAll e with
  | case1 e x op y h ihx ihy => rw [ihx, ihy, ← e.tree_halved, h, Expr.tree_pair, Tree.parenthesised]
  | case2 e notPair =>
    obtain ⟨x, op, y, pair⟩ | ⟨x, single, leaf⟩ := e.halved_cases
    · exact absurd pair (notPair x op y)
    · rw [single, leaf, Tree.parenthesised]

/-- **Regrouping follows the precedence tree.**  An expression of at most two operands is not regrouped.  Any other becomes
two operands around the last of its loosest operators: its two sides, each with fewer operands and both together with all
of them in order; and its precedence tree stays the same.  So regrouping the result and its sides again and again ends
with the tree written with all its parentheses. -/
theorem regrouping_follows_the_tree (e : Expr) :
    (e.regroup? = none ↔ e.bare.length ≤ 2) ∧
      (∀ grouped, e.regroup? = some grouped → grouped.length = 2 ∧ grouped.tree = e.tree ∧
        ∃ left op right, grouped = .binary left op right ∧ e.bare.SplitsAt left op right ∧
          left.length < e.bare.length ∧ right.length < e.bare.length) ∧
      e.regroupAll = e.tree.parenthesised := by
  refine ⟨e.regroup?_eq_none_iff, fun grouped h => ?_, e.regroupAll_eq⟩
  obtain ⟨left, op, right, rfl, splits⟩ := Expr.exists_splitsAt h
  exact ⟨rfl, tree_regroup? h, left, op, right, rfl, splits, splits.length_lt⟩

/-- Ties group to the left, what binds tighter stays together, and written parentheses are taken up. -/
example :
    let e : Expr := ⟨.ident "a", [⟨.sub, .ident "b"⟩, ⟨.mul, .paren ⟨.ident "c", [⟨.not, .ident "d"⟩, ⟨.or, .ident "a"⟩]⟩⟩,
      ⟨.add, .ident "c"⟩]⟩
    e.regroupAll.text = "(a - (b * (c ! (d || a)))) + c" := by
  decide +kernel

end ChainCalc
