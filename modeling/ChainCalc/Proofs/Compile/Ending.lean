import ChainCalc.Proofs.Compile.Steps
import ChainCalc.Proofs.Matching.Weight
/-!
# Compilation ends — every question of the compiler is about something lighter

The compiler asks only about expressions that are lighter than the one it is compiling, whatever the registry: parts of a
special form, arguments, and what a pattern captures.  So the number of nested steps that an expression needs is at most
its weight (`compilation_ends`).

`Asking sub sub' n x y` says that `x` and `y` are one computation, which asks `sub` and `sub'` in the same places and only
about what is below `n`; the traversal of the compiler is done once for this relation.
-/
namespace ChainCalc

open CompileM

/-- **One computation with two answerers**, asked in the same places, and only about expressions of less weight than `n`. -/
inductive Asking (sub sub' : Expr → Env → CompileM Node) (n : Nat) : {α : Type} → CompileM α → CompileM α → Prop
  | settled {α : Type} (r : Except CompileError α) : Asking sub sub' n (settled r) (settled r)
  | update {α : Type} (f : Workspace → α × Workspace) : Asking sub sub' n (update f) (update f)
  | ask {e : Expr} (below : e.Below n) (env : Env) : Asking sub sub' n (sub e env) (sub' e env)
  | bind {α β : Type} {x y : CompileM α} {f g : α → CompileM β} (first : Asking sub sub' n x y)
      (next : ∀ a, Asking sub sub' n (f a) (g a)) : Asking sub sub' n (x >>= f) (y >>= g)
  | onError {α : Type} {x y : CompileM α} (first : Asking sub sub' n x y) (cleanup : Workspace → Workspace) :
      Asking sub sub' n (onError x cleanup) (onError y cleanup)

namespace Asking

variable {α β ι : Type} {sub sub' : Expr → Env → CompileM Node} {n : Nat}

/-- **Answerers that agree are asked to the same end.** -/
theorem eq {x y : CompileM α} (h : Asking sub sub' n x y) (agree : ∀ e : Expr, e.Below n → ∀ env, sub e env = sub' e env) :
    x = y := by
  induction h with
  | settled r => rfl
  | update f => rfl
  | ask below env => exact agree _ below env
  | bind _ _ first next => rw [first, funext next]
  | onError _ cleanup first => rw [first]

/-- **A computation ends if all answers to its questions do.** -/
theorem ends {x y : CompileM α} (h : Asking sub sub' n x y)
    (total : ∀ e : Expr, e.Below n → ∀ env w, (sub e env).run w ≠ none) : ∀ w, x.run w ≠ none := by
  induction h with
  | settled r => exact fun _ h => by cases h
  | update f => exact fun _ h => by cases h
  | ask below env => exact total _ below env
  | @bind _ _ x _ f _ _ _ first next =>
    intro w
    have hx := first w
    rw [run_bind]
    generalize x.run w = r at hx ⊢
    match r, hx with
    | some (.error e, w'), _ => exact fun h => by cases h
    | some (.ok a, w'), _ => exact next a w'
  | @onError _ x _ _ cleanup first =>
    intro w
    have hx := first w
    rw [run_onError]
    generalize x.run w = r at hx ⊢
    match r, hx with
    | some (.error e, w'), _ => exact fun h => by cases h
    | some (.ok a, w'), _ => exact fun h => by cases h

theorem pure (a : α) : Asking sub sub' n (Pure.pure a : CompileM α) (Pure.pure a) := .settled (.ok a)

theorem fail (e : CompileError) : Asking sub sub' n (CompileM.fail e : CompileM α) (CompileM.fail e) := .settled (.error e)

theorem mapM {f g : ι → CompileM α} : ∀ {l : List ι}, (∀ i ∈ l, Asking sub sub' n (f i) (g i)) →
    Asking sub sub' n (l.mapM f) (l.mapM g)
  | [], _ => by
    rw [List.mapM_nil, List.mapM_nil]
    exact pure []
  | i :: l, h => by
    obtain ⟨head, tail⟩ := List.forall_mem_cons.1 h
    rw [List.mapM_cons, List.mapM_cons]
    exact head.bind (fun _ => (mapM tail).bind (fun _ => pure _))

/-! ### The parts of the compiler -/

theorem compileAll {es : List Expr} (below : ∀ e ∈ es, e.Below n) (env : Env) :
    Asking sub sub' n (ChainCalc.compileAll sub es env) (ChainCalc.compileAll sub' es env) :=
  mapM (fun e he => .ask (below e he) env)

theorem compileCaptures {c : Captures} (below : ∀ g ∈ c.entries, ∀ e ∈ g.2, e.Below n) (env : Env) :
    Asking sub sub' n (ChainCalc.compileCaptures sub c env) (ChainCalc.compileCaptures sub' c env) :=
  (mapM (fun g hg => (compileAll (below g hg) env).bind (fun nodes => pure (g.1, nodes)))).bind (fun _ => pure _)

section

variable {registry : Registry} {candidate : Expr} (concrete : candidate.Concrete) (bare : candidate.bare = candidate)
  (le : candidate.weight ≤ n)

include concrete bare le

theorem fromRegistry (env : Env) : Asking sub sub' n (ChainCalc.fromRegistry registry sub candidate env)
    (ChainCalc.fromRegistry registry sub' candidate env) := by
  unfold ChainCalc.fromRegistry
  cases found : registry.find? candidate with
  | none => exact pure none
  | some r =>
    obtain ⟨entry, captures⟩ := r
    have lighter := lighter_of_find? concrete bare found
    have below : ∀ g ∈ captures.entries, ∀ e ∈ g.2, e.Below n := fun g hg e he =>
      ⟨(lighter g hg e he).concrete, Nat.lt_of_lt_of_le (lighter g hg e he).lt le⟩
    exact (compileCaptures below env).bind (fun _ => (settled _).bind (fun node => pure (some node)))

theorem fromRegistryOr (env : Env) (error : CompileError) : Asking sub sub' n
    (ChainCalc.fromRegistryOr registry sub candidate env error) (ChainCalc.fromRegistryOr registry sub' candidate env error) := by
  refine (fromRegistry concrete bare le env).bind (fun r => ?_)
  cases r with
  | none => exact fail error
  | some node => exact pure node

end

theorem formCapture {c : Captures} {placeholder : String} {f g : Expr → CompileM α}
    (next : ∀ e, (c.of placeholder).head? = some e → Asking sub sub' n (f e) (g e)) :
    Asking sub sub' n (ChainCalc.formCapture c placeholder >>= f) (ChainCalc.formCapture c placeholder >>= g) := by
  unfold ChainCalc.formCapture
  cases h : (c.of placeholder).head? with
  | none => exact fail (.formUnbound placeholder)
  | some e => exact next e h

theorem paramNames (problem : FormProblem) (whole : Expr) (args : List Expr) :
    Asking sub sub' n (ChainCalc.paramNames problem whole args) (ChainCalc.paramNames problem whole args) := by
  unfold ChainCalc.paramNames
  split
  · exact pure _
  · exact fail _

theorem compileDefine {e : Expr} (define : e.isDefine = true) (below : e.Below n) (env : Env) :
    Asking sub sub' n (ChainCalc.compileDefine sub e env) (ChainCalc.compileDefine sub' e env) := by
  unfold ChainCalc.compileDefine
  cases form : defineForm.captures? e with
  | none => exact fail _
  | some captures =>
    refine formCapture (fun target htarget => formCapture (fun value hvalue => ?_))
    obtain ⟨t, v, rest, hbare, -, rfl, -⟩ := args_of_defines define ⟨captures, form, htarget, hvalue⟩
    have lighter : v.bare.Below n := by
      have h := below.bare
      rw [hbare] at h
      have hv := Expr.below_of_mem h.concrete (List.mem_cons_of_mem _ List.mem_cons_self : v ∈ t :: v :: rest)
      exact (⟨hv.concrete, Nat.lt_trans hv.lt h.lt⟩ : v.Below n).bare
    split
    · exact (ask lighter env).bind (fun _ => (update _).bind (fun _ => pure _))
    · exact fail _
    · refine (paramNames _ _ _).bind (fun params => (update _).bind (fun scope => (update _).bind (fun d =>
        (update _).bind (fun previous => ?_))))
      exact (((ask lighter scope).bind (fun node => (update _).bind (fun _ => pure node))).onError _).bind (fun _ => pure _)

theorem compileStatement {e : Expr} (below : e.Below n) (env : Env) :
    Asking sub sub' n (ChainCalc.compileStatement sub e env) (ChainCalc.compileStatement sub' e env) := by
  unfold ChainCalc.compileStatement
  split
  · rename_i define
    exact (compileDefine define below env).bind (fun _ => pure _)
  · exact (ask below env).bind (fun _ => pure _)

theorem compileLambda {args : List Expr} (below : ∀ e ∈ args, e.Below n) (e : Expr) (env : Env) :
    Asking sub sub' n (ChainCalc.compileLambda sub args e env) (ChainCalc.compileLambda sub' args e env) := by
  unfold ChainCalc.compileLambda
  cases last : args.getLast? with
  | none => exact fail _
  | some body =>
    refine (paramNames _ _ _).bind (fun params => (update _).bind (fun scope => ?_))
    exact (ask (below body (List.mem_of_getLast? last)) scope).bind (fun node => (update _).bind (fun d =>
      (update _).bind (fun _ => pure _)))

theorem compileStatements (env : Env) : ∀ {ss : List Expr}, (∀ s ∈ ss, s.Below n) → ∀ ends : Bool,
    Asking sub sub' n (ChainCalc.compileStatements sub env ss ends) (ChainCalc.compileStatements sub' env ss ends)
  | [], _, ends => pure ([], ends)
  | s :: ss, below, ends => by
    obtain ⟨head, tail⟩ := List.forall_mem_cons.1 below
    refine (compileStatement head env).bind (fun statement => ?_)
    cases statement with
    | defined name => exact compileStatements env tail false
    | expr node => exact (compileStatements env tail true).bind (fun _ => pure _)

theorem compileBlock {statements : List Expr} (below : ∀ s ∈ statements, s.Below n) (e : Expr) (env : Env) :
    Asking sub sub' n (ChainCalc.compileBlock sub statements e env) (ChainCalc.compileBlock sub' statements e env) := by
  refine (update _).bind (fun scope => (compileStatements scope below false).bind (fun r => ?_))
  obtain ⟨nodes, ends⟩ := r
  cases ends with
  | true => exact pure _
  | false => exact fail _

variable (registry : Registry)

theorem compileName {name : String} (concrete : (Expr.ident name).Concrete) (le : (Expr.ident name).weight ≤ n) (env : Env) :
    Asking sub sub' n (ChainCalc.compileName registry sub name (.ident name) env)
      (ChainCalc.compileName registry sub' name (.ident name) env) := by
  refine (update _).bind (fun binding => ?_)
  match binding with
  | some (.value node) => exact pure node
  | some (.param depth index) => exact pure _
  | some (.function d) => exact pure _
  | none =>
    dsimp only
    split
    · exact fail _
    · exact fromRegistryOr concrete rfl le env _

section

variable {f : String} {args : List Expr} (concrete : (Expr.call f args).Concrete) (le : (Expr.call f args).weight ≤ n)

include concrete le

theorem below_args : ∀ e ∈ args, e.Below n := fun _ he =>
  ⟨(Expr.below_of_mem concrete he).concrete, Nat.lt_of_lt_of_le (Expr.below_of_mem concrete he).lt le⟩

theorem compileBoundCall (env : Env) : Asking sub sub' n (ChainCalc.compileBoundCall registry sub f args (.call f args) env)
    (ChainCalc.compileBoundCall registry sub' f args (.call f args) env) := by
  have all : Asking sub sub' n (ChainCalc.compileAll sub args env) (ChainCalc.compileAll sub' args env) :=
    compileAll (below_args concrete le) env
  refine (update _).bind (fun binding => ?_)
  match binding with
  | some (.value node) => exact all.bind (fun _ => pure _)
  | some (.param depth index) => exact all.bind (fun _ => pure _)
  | some (.function d) => exact all.bind (fun _ => pure _)
  | none => exact fromRegistryOr concrete rfl le env _

theorem compileCall (env : Env) : Asking sub sub' n (ChainCalc.compileCall registry sub f args (.call f args) env)
    (ChainCalc.compileCall registry sub' f args (.call f args) env) := by
  have below : ∀ e ∈ args.map Expr.bare, e.Below n := by
    intro e he
    obtain ⟨a, ha, rfl⟩ := List.mem_map.1 he
    exact (below_args concrete le a ha).bare
  by_cases hd : f = "define"
  · subst hd
    exact fail _
  by_cases hl : f = "lambda"
  · subst hl
    rw [compileCall_lambda, compileCall_lambda]
    exact compileLambda below _ env
  by_cases hb : f = "block"
  · subst hb
    rw [compileCall_block, compileCall_block]
    exact compileBlock below _ env
  · have plain : isSpecial f = false := by simp [isSpecial, hd, hl, hb]
    rw [compileCall_plain registry sub plain, compileCall_plain registry sub' plain]
    exact compileBoundCall registry concrete le env

end

/-- **One step of the compiler asks only about what is lighter.** -/
theorem compileStep {e : Expr} (concrete : e.Concrete) (env : Env) :
    Asking sub sub' e.weight (ChainCalc.compileStep registry sub e env) (ChainCalc.compileStep registry sub' e env) := by
  replace concrete := Expr.handedDown_concrete.bare concrete
  have le : e.bare.weight ≤ e.weight := Nat.le_of_eq e.weight_bare
  unfold ChainCalc.compileStep
  cases long : e.bare.isChain with
  | true =>
    rw [if_pos rfl, if_pos rfl]
    refine (fromRegistry concrete e.bare_bare le env).bind (fun r => ?_)
    cases r with
    | some node => exact pure node
    | none =>
      dsimp only
      cases split : e.bare.regroup? with
      | none => exact fail _
      | some grouped =>
        refine fromRegistryOr (concrete.regroup? split) ?_ ?_ env _
        · obtain ⟨_, _, _, _, -, rfl, -⟩ := regroup?_spec split
          exact Expr.bare_of_isChain rfl
        · rw [Expr.weight_regroup? split]
          exact le
  | false =>
    rw [if_neg Bool.false_ne_true, if_neg Bool.false_ne_true]
    have hx := Expr.bare_eq_ofOperand long
    generalize e.bare.first = x at hx ⊢
    rw [hx] at concrete le ⊢
    cases x with
    | lit value => exact pure _
    | ident name => exact compileName registry concrete le env
    | call f args => exact compileCall registry concrete le env
    | paren inner => exact absurd hx (e.bare_ne_paren inner)
    | unary op y => exact fromRegistryOr concrete rfl le env _

theorem unitNodes {m m' : Nat} (env : Env) : ∀ {ss : List Expr}, (∀ s ∈ ss, s.Below n) →
    ∀ undo : List (String × Option Binding), Asking (compile registry m) (compile registry m') n
      (ChainCalc.unitNodes registry m env ss undo) (ChainCalc.unitNodes registry m' env ss undo)
  | [], _, _ => pure []
  | s :: ss, below, undo => by
    obtain ⟨head, tail⟩ := List.forall_mem_cons.1 below
    rw [ChainCalc.unitNodes, ChainCalc.unitNodes]
    split
    · rename_i define
      exact ((compileDefine define head env).onError _).bind (fun defined => unitNodes env tail (defined :: undo))
    · exact ((ask head env).onError _).bind (fun _ => (unitNodes env tail undo).bind (fun _ => pure _))

theorem compileUnit {m m' : Nat} {ss : List Expr} (below : ∀ s ∈ ss, s.Below n) (env : Env) :
    Asking (compile registry m) (compile registry m') n (ChainCalc.compileUnit registry m ss env)
      (ChainCalc.compileUnit registry m' ss env) :=
  (unitNodes registry env below []).bind (fun _ => (update _).bind (fun _ => (update _).bind (fun _ => pure _)))

end Asking

/-! ### Enough steps -/

/-- From `k` steps on there is an answer, and it is always the same. -/
def CompileM.SettlesFrom {α : Type} (k : Nat) (x : Nat → CompileM α) : Prop :=
  ∀ n, k ≤ n → x n = x k ∧ ∀ w, (x n).run w ≠ none

theorem compile_of_le (registry : Registry) : ∀ {k : Nat} {e : Expr}, e.Below (k + 1) → ∀ {n : Nat}, k ≤ n → ∀ env : Env,
    compile registry n e env = compile registry k e env ∧ ∀ w, (compile registry n e env).run w ≠ none
  | 0, e, below, _, _, _ => absurd (Nat.lt_one_iff.1 below.lt) (Nat.ne_of_gt e.weight_pos)
  | k + 1, e, below, n + 1, le, env => by
    have lighter : ∀ e' : Expr, e'.Below e.weight → e'.Below (k + 1) := fun e' h =>
      ⟨h.concrete, Nat.lt_of_lt_of_le h.lt (Nat.le_of_lt_succ below.lt)⟩
    have asking : Asking (compile registry n) (compile registry k) e.weight (compile registry (n + 1) e env)
        (compile registry (k + 1) e env) := Asking.compileStep registry below.concrete env
    have answers := fun (e' : Expr) (h : e'.Below e.weight) => compile_of_le registry (lighter e' h) (Nat.le_of_succ_le_succ le)
    exact ⟨asking.eq (fun e' h env => (answers e' h env).1), asking.ends (fun e' h env => (answers e' h env).2)⟩

theorem Asking.settles {α : Type} {registry : Registry} {k : Nat} {x : Nat → CompileM α}
    (asking : ∀ n, Asking (compile registry n) (compile registry k) (k + 1) (x n) (x k)) : SettlesFrom k x := fun n le =>
  ⟨(asking n).eq (fun _ below env => (compile_of_le registry below le env).1),
    (asking n).ends (fun _ below env => (compile_of_le registry below le env).2)⟩

/-- **Compilation ends**, for every registry, in every environment and on every workspace, if no name in the source is a
placeholder and no literal is NaN.  The compiler goes on only to expressions of less weight, where parentheses weigh
nothing; so an expression, a statement and a unit have their answer after as many nested steps as they weigh. -/
theorem compilation_ends (registry : Registry) :
    (∀ e : Expr, (Expr.ofOperand (.paren e)).weight = e.weight) ∧
    (∀ e : Expr, e.Concrete → ∀ sub sub' : Expr → Env → CompileM Node,
      (∀ e' : Expr, e'.Concrete → e'.weight < e.weight → ∀ env, sub e' env = sub' e' env) →
        ∀ env, compileStep registry sub e env = compileStep registry sub' e env) ∧
    (∀ e : Expr, e.Concrete → ∀ env, SettlesFrom e.weight (fun n => compile registry n e env)) ∧
    (∀ e : Expr, e.Concrete → ∀ env, SettlesFrom e.weight (fun n => statement registry n e env)) ∧
    ∀ es : List Expr, (∀ e ∈ es, e.Concrete) → ∀ env, SettlesFrom (Expr.weights es) (fun n => compileUnit registry n es env) := by
  refine ⟨fun e => ?_, fun e concrete sub sub' agree env => ?_, fun e concrete env => ?_, fun e concrete env => ?_,
    fun es concrete env => ?_⟩
  · rw [Expr.weight_ofOperand, Operand.weight]
  · exact (Asking.compileStep registry concrete env).eq (fun e' below => agree e' below.concrete below.lt)
  · exact Asking.settles (fun n => .ask ⟨concrete, Nat.lt_succ_self _⟩ env)
  · exact Asking.settles (fun n => .compileStatement ⟨concrete, Nat.lt_succ_self _⟩ env)
  · exact Asking.settles (fun n => .compileUnit registry
      (fun e he => ⟨concrete e he, Nat.lt_succ_of_le (Expr.weight_le_of_mem he)⟩) env)

/-- An entry with patterns that take anything: a placeholder alone, an ellipsis alone, a call of any name, a sum of any
length. -/
def greedyEntry : Entry :=
  ⟨"any", [.ofExpr (.ident "_x"), .ofExpr (.ident "__xs"), .ofExpr (.call "_f" [.ident "__xs"]),
    .ofExpr ⟨.ident "_x", [⟨.add, .ident "__xs"⟩]⟩], .ofKernel (fun _ => .ok (.bool true)), ""⟩

theorem compilation_ends_greedy :
    let sum : Expr := ⟨.ident "x", [⟨.add, .paren ⟨.ident "y", [⟨.mul, .lit (.int 2)⟩]⟩⟩, ⟨.add, .call "g" [.ident "z"]⟩]⟩
    let env : Env := ⟨⟨0, 0⟩, []⟩
    (compile ⟨[greedyEntry]⟩ 6 sum env).run default ≠ none ∧ (statement ⟨[greedyEntry]⟩ 6 sum env).run default ≠ none ∧
      (compileUnit ⟨[greedyEntry]⟩ 12 [sum, sum] env).run default ≠ none ∧
      compileStep ⟨[greedyEntry]⟩ (compile ⟨[greedyEntry]⟩ 5) sum env =
        compileStep ⟨[greedyEntry]⟩ (compile ⟨[greedyEntry]⟩ 6) sum env := by
  intro sum env
  have concrete : sum.Concrete := by
    simp only [sum, Expr.ident, Expr.ofOperand, Expr.Concrete, Operand.Concrete, Link.AllConcrete, Expr.AllConcrete]
    decide
  have weight : sum.weight = 6 := by
    simp only [sum, Expr.ident, Expr.ofOperand, Expr.weight, Operand.weight, Link.weights, Expr.weights]
  obtain ⟨-, lighter, ends, endsStatement, endsUnit⟩ := compilation_ends ⟨[greedyEntry]⟩
  refine ⟨(ends sum concrete env 6 (Nat.le_of_eq weight)).2 _, (endsStatement sum concrete env 6 (Nat.le_of_eq weight)).2 _,
    (endsUnit [sum, sum] (by simp [concrete]) env 12 ?_).2 _, lighter sum concrete _ _ (fun e he lt env => ?_) env⟩
  · simp only [Expr.weights, weight]
    decide
  · rw [weight] at lt
    have five := (ends e he env 5 (by omega)).1
    have six := (ends e he env 6 (by omega)).1
    exact five.trans six.symm

end ChainCalc
