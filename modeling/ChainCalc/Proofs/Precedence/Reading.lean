import ChainCalc.Engine
import ChainCalc.Proofs.Compile.Acceptance
import ChainCalc.Proofs.Evaluation.Application
import ChainCalc.Proofs.Expr.Equality
import ChainCalc.Proofs.Matching.Filling
import ChainCalc.Proofs.Precedence.Meaning
/-!
# Reading chains — an expression without placeholders means its precedence tree

It compiles exactly when every leaf of the tree does.  Its node has the value of the tree, and fails only if the tree does;
if the tree fails and all leaves end, so does the node (`chains_follow_precedence`).  Where a leaf never ends the node may
not end either, although the tree fails before it comes to that leaf (`failing_product_waits_for_its_summand`): a product
and the sum behind it are one node, and that wants all three operands first.
-/
namespace ChainCalc

/-! ### Names in the leaves -/

mutual

theorem Operand.holes_leaf : ∀ (x : Operand) {y : Operand}, y ∈ x.tree.leaves → y.holes ⊆ x.holes
  | .paren inner, y, h => by
    rw [Operand.tree] at h
    rw [Operand.holes]
    exact inner.holes_leaf h
  | .lit _, y, h | .ident _, y, h | .call _ _, y, h | .unary _ _, y, h => by
    rw [Operand.tree, Tree.leaves, List.mem_singleton] at h
    rw [h]
    exact List.Subset.refl _

theorem Expr.holes_leaf : ∀ (e : Expr) {y : Operand}, y ∈ e.tree.leaves → y.holes ⊆ e.holes
  | ⟨first, rest⟩, y, h => by
    rw [Expr.leaves_tree, List.mem_append] at h
    rw [Expr.holes]
    rcases h with h | h
    · exact List.subset_append_of_subset_left _ (first.holes_leaf h)
    · exact List.subset_append_of_subset_right _ (Link.holes_leaf rest h)

theorem Link.holes_leaf : ∀ (ls : List Link) {y : Operand}, y ∈ ls.flatMap (fun l => l.operand.tree.leaves) →
    y.holes ⊆ Link.holesAll ls
  | [], _, h => by cases h
  | ⟨op, x⟩ :: rest, y, h => by
    rw [List.flatMap_cons, List.mem_append] at h
    rw [Link.holesAll]
    rcases h with h | h
    · exact List.subset_append_of_subset_left _ (x.holes_leaf h)
    · exact List.subset_append_of_subset_right _ (Link.holes_leaf rest h)

end

theorem Expr.plain_tree {e : Expr} (plain : e.holes = []) (joined : ∀ op ∈ e.tree.operators, op ∈ Operator.binary) :
    e.tree.Plain where
  leaf x hx := by
    have hsub := e.holes_leaf hx
    rw [plain] at hsub
    exact Operand.isEllipsis_of_holes (List.subset_nil.1 hsub)
  operator op hop := by
    rintro rfl
    exact absurd (joined _ hop) (by decide)

/-! ### Leaves that compile -/

theorem LeavesMade.extends {env : Env} {w w' : Workspace} {t : Tree Operand} {t' : Tree Node}
    (h : LeavesMade env w t t' w') : w.Extends w' := by
  induction h with
  | leaf made => exact made.extends
  | node _ _ ih ih' => exact ih.trans ih'

/-- **The leaves of a tree can be compiled one after another if each of them can.** -/
theorem leavesMade_iff_accepts {env : Env} (t : Tree Operand) : ∀ {w : Workspace}, env.Within w →
    ((∃ t' w', LeavesMade env w t t' w') ↔ ∀ x ∈ t.leaves, Accepts w env (.ofOperand x)) := by
  induction t with
  | leaf x =>
    intro w _
    rw [Tree.leaves, List.forall_mem_singleton]
    constructor
    · rintro ⟨_, w', ⟨made⟩⟩
      exact ⟨_, w', made⟩
    · rintro ⟨node, w', made⟩
      exact ⟨_, w', .leaf made⟩
  | node left op right ihl ihr =>
    intro w within
    rw [Tree.leaves, List.forall_mem_append, ← ihl within]
    constructor
    · rintro ⟨t', w', h⟩
      obtain ⟨l, r, w₁, hl, hr, -⟩ := leavesMade_node.1 h
      refine ⟨⟨l, w₁, hl⟩, fun x hx => ?_⟩
      rw [← hl.extends.accepts_iff within]
      exact (ihr (hl.extends.within within)).1 ⟨r, w', hr⟩ x hx
    · rintro ⟨⟨l, w₁, hl⟩, h⟩
      have accepts : ∀ x ∈ right.leaves, Accepts w₁ env (.ofOperand x) :=
        fun x hx => (hl.extends.accepts_iff within).2 (h x hx)
      obtain ⟨r, w', hr⟩ := (ihr (hl.extends.within within)).2 accepts
      exact ⟨_, w', .node hl hr⟩

/-! ### Chains -/

/-- **Operator chains mean what the precedence table says.**  An expression in which no name is a placeholder compiles
exactly when all leaves of its precedence tree compile; its node then has the same values as the tree of the nodes of its
leaves, in every workspace, frame and context, fails only if the tree fails, and does fail with it if all leaves end. -/
theorem chains_follow_precedence (e : Expr) {env : Env} {w : Workspace} (within : env.Within w) (plain : e.holes = [])
    (joined : ∀ op ∈ e.tree.operators, op ∈ Operator.binary) :
    (Accepts w env e ↔ ∀ x ∈ e.tree.leaves, Accepts w env (.ofOperand x)) ∧
      ∀ node w', Makes .standard w env e node w' →
        ∃ t, LeavesMade env w e.tree t w' ∧ ∀ W frame ctx, node.Means W frame ctx t := by
  have made := fun w' => makes_iff_leavesMade e env w w' (Expr.plain_tree plain joined)
  refine ⟨?_, fun node w' h => (made w').1 node h⟩
  rw [← leavesMade_iff_accepts e.tree within]
  constructor
  · rintro ⟨node, w', h⟩
    obtain ⟨t, ht, -⟩ := (made w').1 node h
    exact ⟨t, w', ht⟩
  · rintro ⟨t, w', ht⟩
    obtain ⟨node, h⟩ := (made w').2 t ht
    exact ⟨node, w', h⟩

theorem chains_follow_precedence_sum_product :
    let e := ((Expr.lit (.int 1)).andThen .add (.lit (.int 2))).andThen .mul (.lit (.int 3))
    let w : Workspace := { scopes := #[.empty] }
    (Accepts w ⟨⟨0, 0⟩, []⟩ e ↔ ∀ x ∈ e.tree.leaves, Accepts w ⟨⟨0, 0⟩, []⟩ (.ofOperand x)) ∧
      ∀ node w', Makes .standard w ⟨⟨0, 0⟩, []⟩ e node w' →
        ∃ t, LeavesMade ⟨⟨0, 0⟩, []⟩ w e.tree t w' ∧ ∀ W frame ctx, node.Means W frame ctx t :=
  chains_follow_precedence _ (by simp [Env.Within, Env.path]) rfl (by decide)

/-- What `define(f(), f)` leaves behind: a function without parameters that comes to itself. -/
theorem exists_self : ∃ main w d name env,
    ((Engine.new .standard {} {}).1.compile 20 "define(f(), f)").run (Engine.new .standard {} {}).2 = some (.ok main, w) ∧
      d.params = [] ∧ w.body? d = some (.functionRef name env) ∧ w.lookup env name = some (.function d) ∧
      w.lookup (Engine.new .standard {} {}).1.globals "f" = some (.function d) := by
  have script : (((Engine.new .standard {} {}).1.compile 20 "define(f(), f)").run (Engine.new .standard {} {}).2).any
      (fun (r, w) => r.toOption.isSome && (w.lookup (Engine.new .standard {} {}).1.globals "f").any fun
        | .function d => d.params.isEmpty && (w.body? d).any fun
          | .functionRef name env => (w.lookup env name).any fun
            | .function d' => d' == d
            | _ => false
          | _ => false
        | _ => false) = true := by decide +kernel
  simp only [Option.any_eq_true, Prod.exists, Bool.and_eq_true] at script
  obtain ⟨r, w, compiled, ended, b, bound, script⟩ := script
  obtain ⟨main, rfl⟩ : ∃ main, r = .ok main := by
    cases r with
    | ok main => exact ⟨main, rfl⟩
    | error _ => cases ended
  cases b with
  | value _ | param _ _ => cases script
  | function d =>
    simp only [Option.any_eq_true, Bool.and_eq_true, List.isEmpty_iff] at script
    obtain ⟨thunk, body, known, script⟩ := script
    cases body with
    | functionRef name env =>
      obtain ⟨b', itself, same⟩ := (Option.any_eq_true _ _).1 script
      cases b' with
      | value _ | param _ _ => cases same
      | function d' =>
        obtain rfl := eq_of_beq same
        exact ⟨main, w, _, name, env, compiled, thunk, known, itself, bound⟩
    | _ => cases script

/-- **A product that fails is not heard of before a summand that never ends**: with `define(f(), f)`, the tree of
`'a' * 1 + f(1)` fails at the product, and the fused node of the chain, which wants all three operands first, comes to
nothing. -/
theorem failing_product_waits_for_its_summand :
    let engine := (Engine.new .standard {} {}).1
    let e := ((Expr.lit (.str "a")).andThen .mul (.lit (.int 1))).andThen .add (.call "f" [.lit (.int 1)])
    (Program.parse "'a' * 1 + f(1)").toOption = some [e] ∧ e.holes = [] ∧
      (∀ op ∈ e.tree.operators, op ∈ Operator.binary) ∧
      ∃ main w node t, (engine.compile 20 "define(f(), f)").run (Engine.new .standard {} {}).2 = some (.ok main, w) ∧
        Makes .standard w engine.globals e node w ∧ LeavesMade engine.globals w e.tree t w ∧
        (∃ failure, t.Yields w .root (engine.context w) (.error failure)) ∧
        ∀ r, ¬ Evaluates w node .root (engine.context w) r := by
  intro engine e
  obtain ⟨main, w, d, name, env, compiled, thunk, body, itself, bound⟩ := exists_self
  have literal : ∀ l : Literal, Makes .standard w engine.globals (.lit l) (.constant l.value) w :=
    fun l => makes_iff.2 (.literal rfl)
  have called : Makes .standard w engine.globals (.call "f" [.lit (.int 1)])
      (.invoke "f" "f(1)" engine.globals [.constant (.int 1)]) w :=
    makes_iff.2 (.callFunction rfl rfl bound (.cons (literal (.int 1)) (.nil w)))
  have plain : e.tree.Plain := Expr.plain_tree rfl (by decide)
  have found := find?_fused rfl plain.steady (a := .lit (.str "a")) (b := .lit (.int 1)) (d := .call "f" [.lit (.int 1)])
    ⟨rfl, by decide, by decide, by decide⟩
  have asks : ∀ w env, Asks .standard w env e e := by
    refine fun _ _ => .chain rfl ?_
    show (Registry.standard.find? e).isSome = true
    rw [found]
    rfl
  have fused := (makes_chain (e := e) rfl asks).2
    ((builds_fused found).2 ⟨_, _, _, _, _, literal (.str "a"), literal (.int 1), called, rfl⟩)
  refine ⟨by decide +kernel, rfl, by decide, main, w, _, _, compiled, fused,
    .node (.node (.leaf (literal (.str "a"))) (.leaf (literal (.int 1)))) (.leaf called), ?_, ?_⟩
  · exact ⟨_, .left (Tree.yields_node_fault (.leaf ⟨1, rfl⟩) (.leaf ⟨1, rfl⟩) rfl)⟩
  · have endless : ∀ r, ¬ Evaluates w (.invoke "f" "f(1)" engine.globals [.constant (.int 1)]) .root (engine.context w) r :=
      not_evaluates_invoke_self thunk body itself bound (by show 0 < defaultMaxCallDepth; decide) _ _ _
    have constant : ∀ v e, ¬ Evaluates w (.constant v) .root (engine.context w) (.error e) :=
      fun v e h => by cases h.unique ⟨1, rfl⟩
    -- the operands come first, and the last of them comes to nothing
    rintro (failure | v) h
    · simp [evaluates_kernel_error, evaluatesAll_cons_error, evaluatesAll_cons_ok, endless, constant] at h
    · simp [evaluates_kernel_ok, evaluatesAll_cons_ok, endless] at h

end ChainCalc
