import ChainCalc.Proofs.Evaluation.Steps
import ChainCalc.Proofs.Precedence.Cuts
/-!
# The meaning of chains — operators apply as the precedence tree says

The reference is the precedence tree with every leaf compiled by itself: its leaves are evaluated as nodes and each
operator is applied to the values of its two sides (`Tree.Yields`).  What the compiler makes of a chain means the same as
that tree (`Node.Means`), although no tree is ever built and a product is fused with a sum behind it.
-/
namespace ChainCalc

/-! ### The reference -/

section

variable (w : Workspace) (frame : Frame) (ctx : Context)

/-- **A tree of nodes evaluated from left to right**, each operator applied to the values of its sides. -/
inductive Tree.Yields : Tree Node → Except EvalError Value → Prop
  | leaf {node : Node} {r : Except EvalError Value} (h : Evaluates w node frame ctx r) : Yields (.leaf node) r
  | left {l r : Tree Node} {op : Operator} {e : EvalError} (h : Yields l (.error e)) : Yields (.node l op r) (.error e)
  | right {l r : Tree Node} {op : Operator} {a : Value} {e : EvalError} (hl : Yields l (.ok a)) (hr : Yields r (.error e)) :
      Yields (.node l op r) (.error e)
  | both {l r : Tree Node} {op : Operator} {a b : Value} (hl : Yields l (.ok a)) (hr : Yields r (.ok b)) :
      Yields (.node l op r) ((Arithmetic.binary op a b).mapError (ctx.error op.symbol))

/-- **A node means a tree**: they have the same values, and fail alike.  A tree may fail before it comes to a leaf that
never ends, so that a failure of the tree is one of the node where every leaf ends. -/
structure Node.Means (node : Node) (t : Tree Node) : Prop where
  value : ∀ v, Evaluates w node frame ctx (.ok v) ↔ t.Yields w frame ctx (.ok v)
  failure : (∃ e, Evaluates w node frame ctx (.error e)) → ∃ e, t.Yields w frame ctx (.error e)
  failure_of_ends : (∀ x ∈ t.leaves, ∃ r, Evaluates w x frame ctx r) → (∃ e, t.Yields w frame ctx (.error e)) →
    ∃ e, Evaluates w node frame ctx (.error e)

end

namespace Tree

variable {w : Workspace} {frame : Frame} {ctx : Context}

theorem yields_node_ok {l r : Tree Node} {op : Operator} {v : Value} :
    (Tree.node l op r).Yields w frame ctx (.ok v) ↔
      ∃ a b, l.Yields w frame ctx (.ok a) ∧ r.Yields w frame ctx (.ok b) ∧ Arithmetic.binary op a b = .ok v := by
  constructor
  · intro h
    generalize hr : (Except.ok v : Except EvalError Value) = res at h
    cases h with
    | left h => cases hr
    | right hl h => cases hr
    | both hl h =>
      rename_i a b
      refine ⟨a, b, hl, h, ?_⟩
      cases hb : Arithmetic.binary op a b with
      | ok v' => rw [hb] at hr; cases hr; rfl
      | error fault => rw [hb] at hr; cases hr
  · rintro ⟨a, b, hl, hr, hb⟩
    have : (Tree.node l op r).Yields w frame ctx _ := .both hl hr
    rw [hb] at this
    exact this

theorem yields_node_error {l r : Tree Node} {op : Operator} {e : EvalError} (h : (Tree.node l op r).Yields w frame ctx (.error e)) :
    l.Yields w frame ctx (.error e) ∨
      (∃ a, l.Yields w frame ctx (.ok a) ∧ r.Yields w frame ctx (.error e)) ∨
      ∃ a b fault, l.Yields w frame ctx (.ok a) ∧ r.Yields w frame ctx (.ok b) ∧ Arithmetic.binary op a b = .error fault := by
  generalize hr : (Except.error e : Except EvalError Value) = res at h
  cases h with
  | left h => cases hr; exact .inl h
  | right hl h => cases hr; exact .inr (.inl ⟨_, hl, h⟩)
  | both hl h =>
    rename_i a b
    cases hb : Arithmetic.binary op a b with
    | ok v => rw [hb] at hr; cases hr
    | error fault => exact .inr (.inr ⟨a, b, fault, hl, h, hb⟩)

theorem yields_node_fault {l r : Tree Node} {op : Operator} {a b : Value} {fault : Fault} (hl : l.Yields w frame ctx (.ok a))
    (hr : r.Yields w frame ctx (.ok b)) (hb : Arithmetic.binary op a b = .error fault) :
    (Tree.node l op r).Yields w frame ctx (.error (ctx.error op.symbol fault)) := by
  have : (Tree.node l op r).Yields w frame ctx _ := .both hl hr
  rw [hb] at this
  exact this

theorem yields_of_ends : ∀ {t : Tree Node}, (∀ x ∈ t.leaves, ∃ r, Evaluates w x frame ctx r) → ∃ r, t.Yields w frame ctx r
  | .leaf x, h => by
    obtain ⟨r, hr⟩ := h x (List.mem_singleton.2 rfl)
    exact ⟨r, .leaf hr⟩
  | .node left op right, h => by
    obtain ⟨r, hr⟩ := yields_of_ends (fun x hx => h x (List.mem_append_left _ hx))
    cases r with
    | error e => exact ⟨_, .left hr⟩
    | ok a =>
      obtain ⟨s, hs⟩ := yields_of_ends (t := right) (fun x hx => h x (List.mem_append_right _ hx))
      cases s with
      | error e => exact ⟨_, .right hr hs⟩
      | ok b => exact ⟨_, .both hr hs⟩

end Tree

/-! ### Kernels of operators -/

namespace Node.Means

variable {w : Workspace} {frame : Frame} {ctx : Context}

theorem leaf (node : Node) : node.Means w frame ctx (.leaf node) := by
  have hiff : ∀ r, (Tree.leaf node).Yields w frame ctx r ↔ Evaluates w node frame ctx r :=
    fun r => ⟨fun h => by cases h with | leaf h => exact h, .leaf⟩
  refine ⟨fun v => (hiff _).symm, ?_, ?_⟩
  · rintro ⟨e, h⟩
    exact ⟨e, .leaf h⟩
  · rintro - ⟨e, h⟩
    exact ⟨e, (hiff _).1 h⟩

theorem ends {node : Node} {t : Tree Node} (h : node.Means w frame ctx t)
    (hleaves : ∀ x ∈ t.leaves, ∃ r, Evaluates w x frame ctx r) :
    (∃ v, Evaluates w node frame ctx (.ok v) ∧ t.Yields w frame ctx (.ok v)) ∨ ∃ e, Evaluates w node frame ctx (.error e) := by
  obtain ⟨r, hr⟩ := Tree.yields_of_ends hleaves
  cases r with
  | ok v => exact .inl ⟨v, (h.value v).2 hr, hr⟩
  | error e => exact .inr (h.failure_of_ends hleaves ⟨e, hr⟩)

theorem fusedKernel_ok {a b c v : Value} : Standard.fusedKernel [a, b, c] = .ok v ↔
    ∃ p, Arithmetic.binary .mul a b = .ok p ∧ Arithmetic.binary .add p c = .ok v := by
  show (Arithmetic.binary .mul a b >>= fun p => Arithmetic.binary .add p c) = _ ↔ _
  cases Arithmetic.binary .mul a b with
  | error fault => simp [bind, Except.bind]
  | ok p => simp [bind, Except.bind]

theorem fusedKernel_error {a b c : Value} {fault : Fault} : Standard.fusedKernel [a, b, c] = .error fault ↔
    Arithmetic.binary .mul a b = .error fault ∨
      ∃ p, Arithmetic.binary .mul a b = .ok p ∧ Arithmetic.binary .add p c = .error fault := by
  show (Arithmetic.binary .mul a b >>= fun p => Arithmetic.binary .add p c) = _ ↔ _
  cases Arithmetic.binary .mul a b with
  | error fault => simp [bind, Except.bind]
  | ok p => simp [bind, Except.bind]

theorem evaluates_fused_error {n₁ n₂ n₃ : Node} {a b : Value} {name label : String} (ha : Evaluates w n₁ frame ctx (.ok a))
    (hb : Evaluates w n₂ frame ctx (.ok b))
    (hc : (∃ c fault, Evaluates w n₃ frame ctx (.ok c) ∧ Standard.fusedKernel [a, b, c] = .error fault) ∨
      ∃ e, Evaluates w n₃ frame ctx (.error e)) :
    ∃ e, Evaluates w (.kernel name label [n₁, n₂, n₃] Standard.fusedKernel) frame ctx (.error e) := by
  rcases hc with ⟨c, fault, hc, hf⟩ | ⟨e, he⟩
  · refine ⟨_, evaluates_kernel_error.2 (.inr ⟨[a, b, c], fault, ?_, hf, rfl⟩)⟩
    simp only [evaluatesAll_cons_ok, evaluatesAll_nil, Except.ok.injEq]
    exact ⟨a, [b, c], ha, ⟨b, [c], hb, ⟨c, [], hc, rfl, rfl⟩, rfl⟩, rfl⟩
  · refine ⟨e, evaluates_kernel_error.2 (.inl ?_)⟩
    simp only [evaluatesAll_cons_error]
    exact .inr ⟨a, ha, .inr ⟨b, hb, .inl he⟩⟩

section

variable {n₁ n₂ : Node} {t₁ t₂ : Tree Node} (h₁ : n₁.Means w frame ctx t₁) (h₂ : n₂.Means w frame ctx t₂)

include h₁ h₂

/-- **A binary operator's node means the operator at the root.** -/
theorem binary (op : Operator) (name label : String) :
    (Node.kernel name label [n₁, n₂] (Standard.binaryKernel op)).Means w frame ctx (.node t₁ op t₂) := by
  constructor
  · intro v
    simp only [evaluates_kernel_ok, evaluatesAll_cons_ok, evaluatesAll_nil, Except.ok.injEq, Tree.yields_node_ok]
    constructor
    · rintro ⟨_, ⟨a, _, ha, ⟨b, _, hb, rfl, rfl⟩, rfl⟩, hv⟩
      exact ⟨a, b, (h₁.value a).1 ha, (h₂.value b).1 hb, hv⟩
    · rintro ⟨a, b, ha, hb, hv⟩
      exact ⟨[a, b], ⟨a, [b], (h₁.value a).2 ha, ⟨b, [], (h₂.value b).2 hb, rfl, rfl⟩, rfl⟩, hv⟩
  · rintro ⟨e, he⟩
    simp only [evaluates_kernel_error, evaluatesAll_cons_ok, evaluatesAll_cons_error, evaluatesAll_nil, Except.ok.injEq,
      reduceCtorEq, and_false, exists_false, or_false] at he
    rcases he with (he | ⟨a, ha, he⟩) | ⟨_, fault, ⟨a, _, ha, ⟨b, _, hb, rfl, rfl⟩, rfl⟩, hf, -⟩
    · obtain ⟨e', he'⟩ := h₁.failure ⟨e, he⟩
      exact ⟨e', .left he'⟩
    · obtain ⟨e', he'⟩ := h₂.failure ⟨e, he⟩
      exact ⟨e', .right ((h₁.value a).1 ha) he'⟩
    · exact ⟨_, Tree.yields_node_fault ((h₁.value a).1 ha) ((h₂.value b).1 hb) hf⟩
  · rintro ends ⟨e, he⟩
    simp only [evaluates_kernel_error, evaluatesAll_cons_ok, evaluatesAll_cons_error, evaluatesAll_nil, Except.ok.injEq,
      reduceCtorEq, and_false, exists_false, or_false]
    rcases Tree.yields_node_error he with he | ⟨a, ha, he⟩ | ⟨a, b, fault, ha, hb, hf⟩
    · obtain ⟨e', he'⟩ := h₁.failure_of_ends (fun x hx => ends x (List.mem_append_left _ hx)) ⟨e, he⟩
      exact ⟨e', .inl (.inl he')⟩
    · obtain ⟨e', he'⟩ := h₂.failure_of_ends (fun x hx => ends x (List.mem_append_right _ hx)) ⟨e, he⟩
      exact ⟨e', .inl (.inr ⟨a, (h₁.value a).2 ha, he'⟩)⟩
    · exact ⟨_, .inr ⟨[a, b], fault, ⟨a, [b], (h₁.value a).2 ha, ⟨b, [], (h₂.value b).2 hb, rfl, rfl⟩, rfl⟩, hf, rfl⟩⟩

/-- **The fused node means a product below a sum.** -/
theorem fused {n₃ : Node} {t₃ : Tree Node} (h₃ : n₃.Means w frame ctx t₃) (name label : String) :
    (Node.kernel name label [n₁, n₂, n₃] Standard.fusedKernel).Means w frame ctx (.node (.node t₁ .mul t₂) .add t₃) := by
  constructor
  · intro v
    simp only [evaluates_kernel_ok, evaluatesAll_cons_ok, evaluatesAll_nil, Except.ok.injEq, Tree.yields_node_ok]
    constructor
    · rintro ⟨_, ⟨a, _, ha, ⟨b, _, hb, ⟨c, _, hc, rfl, rfl⟩, rfl⟩, rfl⟩, hv⟩
      obtain ⟨p, hp, hs⟩ := fusedKernel_ok.1 hv
      exact ⟨p, c, ⟨a, b, (h₁.value a).1 ha, (h₂.value b).1 hb, hp⟩, (h₃.value c).1 hc, hs⟩
    · rintro ⟨p, c, ⟨a, b, ha, hb, hp⟩, hc, hs⟩
      exact ⟨[a, b, c], ⟨a, [b, c], (h₁.value a).2 ha, ⟨b, [c], (h₂.value b).2 hb, ⟨c, [], (h₃.value c).2 hc, rfl, rfl⟩,
        rfl⟩, rfl⟩, fusedKernel_ok.2 ⟨p, hp, hs⟩⟩
  · rintro ⟨e, he⟩
    simp only [evaluates_kernel_error, evaluatesAll_cons_ok, evaluatesAll_cons_error, evaluatesAll_nil, Except.ok.injEq,
      reduceCtorEq, and_false, exists_false, or_false] at he
    rcases he with (he | ⟨a, ha, he | ⟨b, hb, he⟩⟩) |
      ⟨_, fault, ⟨a, _, ha, ⟨b, _, hb, ⟨c, _, hc, rfl, rfl⟩, rfl⟩, rfl⟩, hf, -⟩
    · obtain ⟨e', he'⟩ := h₁.failure ⟨e, he⟩
      exact ⟨e', .left (.left he')⟩
    · obtain ⟨e', he'⟩ := h₂.failure ⟨e, he⟩
      exact ⟨e', .left (.right ((h₁.value a).1 ha) he')⟩
    · obtain ⟨e', he'⟩ := h₃.failure ⟨e, he⟩
      -- the summand failed; the tree multiplies before it looks at the summand, and that may fail too
      cases hp : Arithmetic.binary .mul a b with
      | error fault => exact ⟨_, .left (Tree.yields_node_fault ((h₁.value a).1 ha) ((h₂.value b).1 hb) hp)⟩
      | ok p => exact ⟨e', .right (Tree.yields_node_ok.2 ⟨a, b, (h₁.value a).1 ha, (h₂.value b).1 hb, hp⟩) he'⟩
    · rcases fusedKernel_error.1 hf with hp | ⟨p, hp, hs⟩
      · exact ⟨_, .left (Tree.yields_node_fault ((h₁.value a).1 ha) ((h₂.value b).1 hb) hp)⟩
      · exact ⟨_, Tree.yields_node_fault (Tree.yields_node_ok.2 ⟨a, b, (h₁.value a).1 ha, (h₂.value b).1 hb, hp⟩)
          ((h₃.value c).1 hc) hs⟩
  · rintro ends ⟨e, he⟩
    have ends₃ : ∀ x ∈ t₃.leaves, ∃ r, Evaluates w x frame ctx r := fun x hx => ends x (List.mem_append_right _ hx)
    rcases Tree.yields_node_error he with he | ⟨p, hp, he⟩ | ⟨p, c, fault, hp, hc, hf⟩
    · rcases Tree.yields_node_error he with he | ⟨a, ha, he⟩ | ⟨a, b, fault, ha, hb, hf⟩
      · obtain ⟨e', he'⟩ := h₁.failure_of_ends
          (fun x hx => ends x (List.mem_append_left _ (List.mem_append_left _ hx))) ⟨e, he⟩
        exact ⟨e', evaluates_kernel_error.2 (.inl (evaluatesAll_cons_error.2 (.inl he')))⟩
      · obtain ⟨e', he'⟩ := h₂.failure_of_ends
          (fun x hx => ends x (List.mem_append_left _ (List.mem_append_right _ hx))) ⟨e, he⟩
        exact ⟨e', evaluates_kernel_error.2 (.inl (evaluatesAll_cons_error.2
          (.inr ⟨a, (h₁.value a).2 ha, evaluatesAll_cons_error.2 (.inl he')⟩)))⟩
      · refine evaluates_fused_error ((h₁.value a).2 ha) ((h₂.value b).2 hb) ?_
        rcases h₃.ends ends₃ with ⟨c, hc, -⟩ | he'
        · exact .inl ⟨c, fault, hc, fusedKernel_error.2 (.inl hf)⟩
        · exact .inr he'
    · obtain ⟨a, b, ha, hb, -⟩ := Tree.yields_node_ok.1 hp
      exact evaluates_fused_error ((h₁.value a).2 ha) ((h₂.value b).2 hb) (.inr (h₃.failure_of_ends ends₃ ⟨e, he⟩))
    · obtain ⟨a, b, ha, hb, hm⟩ := Tree.yields_node_ok.1 hp
      exact evaluates_fused_error ((h₁.value a).2 ha) ((h₂.value b).2 hb)
        (.inl ⟨c, fault, (h₃.value c).2 hc, fusedKernel_error.2 (.inr ⟨p, hm, hf⟩)⟩)

end

end Node.Means

/-! ### Trees compiled leaf by leaf -/

/-- **The leaves of a tree compiled from left to right**, each by itself. -/
inductive LeavesMade (env : Env) : Workspace → Tree Operand → Tree Node → Workspace → Prop
  | leaf {w w' : Workspace} {x : Operand} {node : Node} (made : Makes .standard w env (.ofOperand x) node w') :
      LeavesMade env w (.leaf x) (.leaf node) w'
  | node {w w₁ w₂ : Workspace} {left right : Tree Operand} {op : Operator} {l r : Tree Node}
      (made : LeavesMade env w left l w₁) (made' : LeavesMade env w₁ right r w₂) :
      LeavesMade env w (.node left op right) (.node l op r) w₂

theorem leavesMade_node {env : Env} {w w' : Workspace} {left right : Tree Operand} {op : Operator} {t : Tree Node} :
    LeavesMade env w (.node left op right) t w' ↔
      ∃ l r w₁, LeavesMade env w left l w₁ ∧ LeavesMade env w₁ right r w' ∧ t = .node l op r := by
  constructor
  · rintro (_ | ⟨hl, hr⟩)
    exact ⟨_, _, _, hl, hr, rfl⟩
  · rintro ⟨l, r, w₁, hl, hr, rfl⟩
    exact .node hl hr

theorem Expr.tree_of_short {e : Expr} (h : e.bare.isChain = false) :
    ∃ x, e.bare = .ofOperand x ∧ e.tree = .leaf x := by
  rw [← Expr.tree_bare]
  have hparen := e.bare_ne_paren
  generalize e.bare = c at h hparen
  obtain ⟨x, rest⟩ := c
  cases rest with
  | cons l ls => cases h
  | nil =>
    refine ⟨x, rfl, ?_⟩
    rw [Expr.tree_single]
    cases x with
    | paren inner => exact absurd rfl (hparen inner)
    | _ => rfl

theorem builds_binary {w w' : Workspace} {env : Env} {c a b : Expr} {op : Operator} {node : Node}
    (h : Registry.standard.find? c = some (Standard.binaryEntry op, ⟨[("_1", [a.bare]), ("_2", [b.bare])]⟩)) :
    Builds .standard (Makes .standard) w env c node w' ↔
      ∃ n₁ n₂ w₁, Makes .standard w env a n₁ w₁ ∧ Makes .standard w₁ env b n₂ w' ∧
        node = .kernel op.symbol c.text [n₁, n₂] (Standard.binaryKernel op) := by
  unfold Builds
  rw [h]
  simp only [Option.some.injEq, Prod.mk.injEq]
  constructor
  · rintro ⟨_, _, groups, ⟨rfl, rfl⟩, hg, hnode⟩
    simp only [makesGroups_one, makesGroups_nil, makes_bare] at hg
    obtain ⟨n₁, w₁, _, h₁, ⟨n₂, w₂, _, h₂, ⟨rfl, rfl⟩, rfl⟩, rfl⟩ := hg
    cases hnode
    exact ⟨n₁, n₂, w₁, h₁, h₂, rfl⟩
  · rintro ⟨n₁, n₂, w₁, h₁, h₂, rfl⟩
    refine ⟨_, _, [("_1", [n₁]), ("_2", [n₂])], ⟨rfl, rfl⟩, ?_, rfl⟩
    simp only [makesGroups_one, makesGroups_nil, makes_bare]
    exact ⟨n₁, w₁, _, h₁, ⟨n₂, w', _, h₂, ⟨rfl, rfl⟩, rfl⟩, rfl⟩

theorem builds_fused {w w' : Workspace} {env : Env} {c a b d : Expr} {node : Node}
    (h : Registry.standard.find? c =
      some (Standard.fusedEntry, ⟨[("_a", [a.bare]), ("_b", [b.bare]), ("_c", [d.bare])]⟩)) :
    Builds .standard (Makes .standard) w env c node w' ↔
      ∃ n₁ n₂ n₃ w₁ w₂, Makes .standard w env a n₁ w₁ ∧ Makes .standard w₁ env b n₂ w₂ ∧
        Makes .standard w₂ env d n₃ w' ∧ node = .kernel "fma" c.text [n₁, n₂, n₃] Standard.fusedKernel := by
  unfold Builds
  rw [h]
  simp only [Option.some.injEq, Prod.mk.injEq]
  constructor
  · rintro ⟨_, _, groups, ⟨rfl, rfl⟩, hg, hnode⟩
    simp only [makesGroups_one, makesGroups_nil, makes_bare] at hg
    obtain ⟨n₁, w₁, _, h₁, ⟨n₂, w₂, _, h₂, ⟨n₃, w₃, _, h₃, ⟨rfl, rfl⟩, rfl⟩, rfl⟩, rfl⟩ := hg
    cases hnode
    exact ⟨n₁, n₂, n₃, w₁, w₂, h₁, h₂, h₃, rfl⟩
  · rintro ⟨n₁, n₂, n₃, w₁, w₂, h₁, h₂, h₃, rfl⟩
    refine ⟨_, _, [("_a", [n₁]), ("_b", [n₂]), ("_c", [n₃])], ⟨rfl, rfl⟩, ?_, rfl⟩
    simp only [makesGroups_one, makesGroups_nil, makes_bare]
    exact ⟨n₁, w₁, _, h₁, ⟨n₂, w₂, _, h₂, ⟨n₃, w', _, h₃, ⟨rfl, rfl⟩, rfl⟩, rfl⟩, rfl⟩

/-- A chain is compiled by asking the registry, and in no other way. -/
theorem makes_chain {w w' : Workspace} {env : Env} {e candidate : Expr} {node : Node} (long : e.bare.isChain = true)
    (asks : ∀ w env, Asks .standard w env e.bare candidate) :
    Makes .standard w env e node w' ↔ Builds .standard (Makes .standard) w env candidate node w' := by
  rw [makes_iff]
  constructor
  · intro h
    cases h with
    | pattern asks' built =>
      rw [Asks.unique long (asks w env) asks']
      exact built
    | literal form | variableName form | parameterName form | functionName form | lambda form | block form
    | callFunction form | callVariable form | callParameter form =>
      rw [form] at long
      cases long
  · exact fun built => .pattern (asks w env) built

/-- **The compiler makes the leaves of the tree, in order, and a node that means the tree.** -/
theorem makes_iff_leavesMade : ∀ (e : Expr) (env : Env) (w w' : Workspace), e.tree.Plain →
    (∀ node, Makes .standard w env e node w' →
      ∃ t, LeavesMade env w e.tree t w' ∧ ∀ W frame ctx, node.Means W frame ctx t) ∧
    (∀ t, LeavesMade env w e.tree t w' → ∃ node, Makes .standard w env e node w')
  | e, env, w, w', plain => by
    cases hlong : e.bare.isChain with
    | false =>
      obtain ⟨x, hx, htree⟩ := Expr.tree_of_short hlong
      have hmakes : ∀ node, Makes .standard w env e node w' ↔ Makes .standard w env (.ofOperand x) node w' := by
        intro node
        rw [← hx, makes_bare]
      rw [htree]
      refine ⟨fun node h => ⟨.leaf node, .leaf ((hmakes node).1 h), fun W frame ctx => .leaf node⟩, ?_⟩
      rintro t (⟨made⟩ | _)
      exact ⟨_, (hmakes _).2 made⟩
    | true =>
      have plain' : e.bare.tree.Plain := by rw [Expr.tree_bare]; exact plain
      obtain ⟨candidate, entry, captures, asks, found, settled⟩ := exists_settled hlong plain'
      have hsize := e.size_bare_le
      simp only [makes_chain hlong asks]
      rw [← Expr.tree_bare e]
      cases settled with
      | binary root left right =>
        rename_i op a b
        rw [root] at plain' ⊢
        have ha := fun w w' => makes_iff_leavesMade a env w w' (Tree.plain_node plain').1
        have hb := fun w w' => makes_iff_leavesMade b env w w' (Tree.plain_node plain').2
        simp only [builds_binary found, leavesMade_node]
        constructor
        · rintro node ⟨n₁, n₂, w₁, h₁, h₂, rfl⟩
          obtain ⟨t₁, made₁, means₁⟩ := (ha w w₁).1 n₁ h₁
          obtain ⟨t₂, made₂, means₂⟩ := (hb w₁ w').1 n₂ h₂
          exact ⟨_, ⟨t₁, t₂, w₁, made₁, made₂, rfl⟩,
            fun W frame ctx => (means₁ W frame ctx).binary (means₂ W frame ctx) op _ _⟩
        · rintro t ⟨t₁, t₂, w₁, made₁, made₂, rfl⟩
          obtain ⟨n₁, h₁⟩ := (ha w w₁).2 t₁ made₁
          obtain ⟨n₂, h₂⟩ := (hb w₁ w').2 t₂ made₂
          exact ⟨_, n₁, n₂, w₁, h₁, h₂, rfl⟩
      | fused root left middle right =>
        rename_i a b d
        rw [root] at plain' ⊢
        have plainₘ := (Tree.plain_node plain').1
        have ha := fun w w' => makes_iff_leavesMade a env w w' (Tree.plain_node plainₘ).1
        have hb := fun w w' => makes_iff_leavesMade b env w w' (Tree.plain_node plainₘ).2
        have hd := fun w w' => makes_iff_leavesMade d env w w' (Tree.plain_node plain').2
        simp only [builds_fused found, leavesMade_node]
        constructor
        · rintro node ⟨n₁, n₂, n₃, w₁, w₂, h₁, h₂, h₃, rfl⟩
          obtain ⟨t₁, made₁, means₁⟩ := (ha w w₁).1 n₁ h₁
          obtain ⟨t₂, made₂, means₂⟩ := (hb w₁ w₂).1 n₂ h₂
          obtain ⟨t₃, made₃, means₃⟩ := (hd w₂ w').1 n₃ h₃
          exact ⟨_, ⟨_, t₃, w₂, ⟨t₁, t₂, w₁, made₁, made₂, rfl⟩, made₃, rfl⟩,
            fun W frame ctx => (means₁ W frame ctx).fused (means₂ W frame ctx) (means₃ W frame ctx) _ _⟩
        · rintro t ⟨_, t₃, w₂, ⟨t₁, t₂, w₁, made₁, made₂, rfl⟩, made₃, rfl⟩
          obtain ⟨n₁, h₁⟩ := (ha w w₁).2 t₁ made₁
          obtain ⟨n₂, h₂⟩ := (hb w₁ w₂).2 t₂ made₂
          obtain ⟨n₃, h₃⟩ := (hd w₂ w').2 t₃ made₃
          exact ⟨_, n₁, n₂, n₃, w₁, w₂, h₁, h₂, h₃, rfl⟩
termination_by e => e.size

end ChainCalc
