import ChainCalc.Proofs.Compile.Fresh
import ChainCalc.Proofs.Compile.Steps
import ChainCalc.Proofs.Standard.Entries
/-!
# Acceptance — what it takes for an expression to compile

Whether the standard registry lets an expression compile depends on nothing but what kind of thing each name is bound to:
a variable, a function, a parameter, or nothing (`accepts_of_twins`).  So it does not matter what was compiled before
without defining a name, although scopes and functions are numbered differently then.
-/
namespace ChainCalc

open CompileM

/-! ### Names and kinds -/

inductive BindingKind where
  | value
  | function
  | param
  deriving DecidableEq

def Binding.kind : Binding → BindingKind
  | .value _ => .value
  | .function _ => .function
  | .param _ _ => .param

def Env.Within (env : Env) (w : Workspace) : Prop := ∀ s ∈ env.path, s.id < w.scopes.size

/-- **Two environments in which every name is bound to the same kind of thing.** -/
structure Twins (w : Workspace) (env : Env) (w' : Workspace) (env' : Env) : Prop where
  within : env.Within w
  within' : env'.Within w'
  kinds : ∀ name, (w.lookup env name).map Binding.kind = (w'.lookup env' name).map Binding.kind

namespace Workspace

theorem lookupPath_congr {w w' : Workspace} (name : String) : ∀ {path : List ScopeRef},
    (∀ s ∈ path, w'.scope s.id = w.scope s.id) → w'.lookupPath name path = w.lookupPath name path
  | [], _ => rfl
  | s :: outer, h => by
    unfold lookupPath
    rw [h s List.mem_cons_self, lookupPath_congr name (fun s' hs' => h s' (List.mem_cons_of_mem _ hs'))]

theorem Extends.lookup {w w' : Workspace} (h : w.Extends w') {env : Env} (within : env.Within w) (name : String) :
    w'.lookup env name = w.lookup env name := lookupPath_congr name (fun s hs => h.scope s.id (within s hs))

theorem Extends.within {w w' : Workspace} (h : w.Extends w') {env : Env} (within : env.Within w) : env.Within w' :=
  fun s hs => Nat.lt_of_lt_of_le (within s hs) h.scopes

theorem lookup_inner (w : Workspace) (env : Env) (s : ScopeRef) (name : String) :
    w.lookup ⟨s, env.path⟩ name = ((w.scope s.id).get? name).or (w.lookup env name) := by
  show w.lookupPath name (s :: env.path) = _
  rw [lookupPath]
  cases (w.scope s.id).get? name <;> rfl

theorem scope_define (w : Workspace) (env : Env) (name : String) (b : Binding) (i : Nat) :
    (w.define env name b).2.scope i = (w.updateScope env.here.id (fun s => s.insert name b)).scope i := by
  obtain ⟨warnings, hw⟩ := w.define_snd env name b
  rw [hw]
  rfl

theorem get?_scope_define_self (w : Workspace) {env : Env} (within : env.Within w) (name : String) (b : Binding) :
    ((w.define env name b).2.scope env.here.id).get? name = some b := by
  rw [scope_define, scope_updateScope_self w (within env.here List.mem_cons_self), Table.get?_insert_self]

theorem get?_scope_define_ne (w : Workspace) {env : Env} (within : env.Within w) {name other : String} (h : other ≠ name)
    (b : Binding) (i : Nat) : ((w.define env name b).2.scope i).get? other = (w.scope i).get? other := by
  rw [scope_define]
  by_cases hi : i = env.here.id
  · rw [hi, scope_updateScope_self w (within env.here List.mem_cons_self), Table.get?_insert_ne _ h]
  · rw [scope_updateScope_ne w hi]

/-- **A name that is defined is bound to what it was defined as**, and other names to what they were. -/
theorem lookup_define (w : Workspace) {env : Env} (within : env.Within w) (name : String) (b : Binding) (x : String) :
    (w.define env name b).2.lookup env x = if x = name then some b else w.lookup env x := by
  show (w.define env name b).2.lookupPath x (env.here :: env.outer) = _
  by_cases hx : x = name
  · rw [if_pos hx, lookupPath, hx, w.get?_scope_define_self within]
  · rw [if_neg hx]
    have hpath : ∀ path, (w.define env name b).2.lookupPath x path = w.lookupPath x path := by
      intro path
      induction path with
      | nil => rfl
      | cons s path ih => rw [lookupPath, lookupPath, w.get?_scope_define_ne within hx, ih]
    exact hpath env.path

theorem within_define (w : Workspace) {env : Env} (within : env.Within w) (name : String) (b : Binding) :
    env.Within (w.define env name b).2 := by
  intro s hs
  rw [size_scopes_define]
  exact within s hs

/-- The scope of a function's parameters stays as it is when the function gets its name. -/
theorem scope_function (w : Workspace) {env : Env} (within : env.Within w) (t : Scope) (name : String) (params : List String)
    (depth : Nat) (b : Binding) :
    let w' := (((w.addScope t).declare name params depth).2.define env name b).2
    w'.scope w.scopes.size = t ∧ w.scopes.size < w'.scopes.size := by
  refine ⟨?_, ?_⟩
  · rw [scope_define, scope_updateScope_ne _ (Nat.ne_of_gt (within env.here List.mem_cons_self))]
    exact w.scope_addScope_self t
  · rw [size_scopes_define]
    show w.scopes.size < (w.scopes.push t).size
    simp

end Workspace

namespace Twins

variable {w₁ w₂ w₁' w₂' : Workspace} {env₁ env₂ : Env}

theorem grow (h : Twins w₁ env₁ w₂ env₂) (h₁ : w₁.Extends w₁') (h₂ : w₂.Extends w₂') : Twins w₁' env₁ w₂' env₂ where
  within := h₁.within h.within
  within' := h₂.within h.within'
  kinds name := by rw [h₁.lookup h.within, h₂.lookup h.within', h.kinds]

theorem inner (h : Twins w₁ env₁ w₂ env₂) {s₁ s₂ : ScopeRef} (there₁ : s₁.id < w₁.scopes.size)
    (there₂ : s₂.id < w₂.scopes.size)
    (same : ∀ name, ((w₁.scope s₁.id).get? name).map Binding.kind = ((w₂.scope s₂.id).get? name).map Binding.kind) :
    Twins w₁ ⟨s₁, env₁.path⟩ w₂ ⟨s₂, env₂.path⟩ where
  within := List.forall_mem_cons.2 ⟨there₁, h.within⟩
  within' := List.forall_mem_cons.2 ⟨there₂, h.within'⟩
  kinds name := by rw [Workspace.lookup_inner, Workspace.lookup_inner, Option.map_or, Option.map_or, same, h.kinds]

theorem addScope (h : Twins w₁ env₁ w₂ env₂) {t₁ t₂ : Scope} (depth₁ depth₂ : Nat)
    (same : ∀ name, (t₁.get? name).map Binding.kind = (t₂.get? name).map Binding.kind) :
    Twins (w₁.addScope t₁) ⟨⟨w₁.scopes.size, depth₁⟩, env₁.path⟩ (w₂.addScope t₂) ⟨⟨w₂.scopes.size, depth₂⟩, env₂.path⟩ := by
  refine (h.grow (w₁.extends_addScope t₁) (w₂.extends_addScope t₂)).inner ?_ ?_ (fun name => ?_)
  · simp [Workspace.addScope]
  · simp [Workspace.addScope]
  · rw [Workspace.scope_addScope_self, Workspace.scope_addScope_self, same]

theorem define (h : Twins w₁ env₁ w₂ env₂) (name : String) {b₁ b₂ : Binding} (same : b₁.kind = b₂.kind) :
    Twins (w₁.define env₁ name b₁).2 env₁ (w₂.define env₂ name b₂).2 env₂ where
  within := w₁.within_define h.within name b₁
  within' := w₂.within_define h.within' name b₂
  kinds x := by
    rw [w₁.lookup_define h.within, w₂.lookup_define h.within']
    split
    · exact congrArg some same
    · exact h.kinds x

theorem setBody (h : Twins w₁ env₁ w₂ env₂) (d₁ d₂ : Definition) (node₁ node₂ : Node) :
    Twins (w₁.setBody d₁ node₁) env₁ (w₂.setBody d₂ node₂) env₂ where
  within := h.within
  within' := h.within'
  kinds name := by
    have h₁ : (w₁.setBody d₁ node₁).lookup env₁ name = w₁.lookup env₁ name :=
      Workspace.lookupPath_congr name (fun _ _ => rfl)
    have h₂ : (w₂.setBody d₂ node₂).lookup env₂ name = w₂.lookup env₂ name :=
      Workspace.lookupPath_congr name (fun _ _ => rfl)
    rw [h₁, h₂]
    exact h.kinds name

end Twins

theorem same_paramScope (depth depth' : Nat) (params : List String) (name : String) :
    ((Workspace.paramScope depth params).get? name).map Binding.kind =
      ((Workspace.paramScope depth' params).get? name).map Binding.kind := by
  have like : Table.Parallel (fun b b' : Binding => b.kind = b'.kind) (Workspace.paramScope depth params)
      (Workspace.paramScope depth' params) := by
    refine Table.Parallel.ofList (List.forall₂_iff_get.2 ⟨by simp, fun i h₁ h₂ => ?_⟩)
    simp [Binding.kind]
  have h := like.get? name
  generalize (Workspace.paramScope depth params).get? name = a at h ⊢
  generalize (Workspace.paramScope depth' params).get? name = b at h ⊢
  cases h with
  | some h => exact congrArg some h
  | none => rfl

/-! ### Nodes of the standard registry are always made -/

abbrev SameShape : Table (List Node) → Table (List Node) → Prop := Table.Parallel (fun xs ys => xs.length = ys.length)

abbrev SameGroups : List (String × List Node) → List (String × List Node) → Prop :=
  List.Forall₂ (fun g g' => g.1 = g'.1 ∧ g.2.length = g'.2.length)

def Factory.ByShape (f : Factory) : Prop :=
  ∀ {primitive name label t t' node}, SameShape t t' → f ⟨primitive, t⟩ name label = .ok node →
    ∃ node', f ⟨primitive, t'⟩ name label = .ok node'

theorem Bound.one_of_sameShape {primitive placeholder : String} {t t' : Table (List Node)} {node : Node}
    (h : SameShape t t') (hone : (⟨primitive, t⟩ : Bound).one placeholder = .ok node) :
    ∃ node', (⟨primitive, t'⟩ : Bound).one placeholder = .ok node' := by
  obtain ⟨nodes, hn⟩ := Bound.one_eq_ok.1 hone
  have hshape := h.get? placeholder
  rw [show t.get? placeholder = some (node :: nodes) from hn] at hshape
  generalize hb : t'.get? placeholder = b at hshape
  cases hshape with
  | some hlen =>
    rename_i ys
    cases ys with
    | nil => cases hlen
    | cons y ys => exact ⟨y, Bound.one_eq_ok.2 ⟨ys, hb⟩⟩

theorem Standard.byShape_of_isStandard {f : Factory} (standard : IsStandard f) : f.ByShape := by
  intro primitive name label t t' node h hnode
  cases standard with
  | conditional =>
    obtain ⟨c, y, n, hc, hy, hn, -⟩ := ifEntry_eq_ok.1 hnode
    obtain ⟨c', hc'⟩ := Bound.one_of_sameShape h hc
    obtain ⟨y', hy'⟩ := Bound.one_of_sameShape h hy
    obtain ⟨n', hn'⟩ := Bound.one_of_sameShape h hn
    exact ⟨_, ifEntry_eq_ok.2 ⟨c', y', n', hc', hy', hn', rfl⟩⟩
  | fetch =>
    obtain ⟨key, hk, -⟩ := fetchEntry_eq_ok.1 hnode
    obtain ⟨key', hk'⟩ := Bound.one_of_sameShape h hk
    exact ⟨_, fetchEntry_eq_ok.2 ⟨key', hk', rfl⟩⟩
  | pi => exact ⟨_, rfl⟩
  | worker query => exact ⟨_, rfl⟩
  | kernel known => exact ⟨_, rfl⟩

/-! ### Acceptance -/

def Accepts (w : Workspace) (env : Env) (e : Expr) : Prop := ∃ node w', Makes .standard w env e node w'

theorem Makes.extends {registry : Registry} {w w' : Workspace} {env : Env} {e : Expr} {node : Node}
    (h : Makes registry w env e node w') : w.Extends w' := by
  obtain ⟨n, hn⟩ := h
  exact compile_extends hn

/-- What is accepted in an environment is accepted in its twins. -/
def Transfers (make : Making) : Prop :=
  ∀ {w w' : Workspace} {env : Env} {e : Expr} {node : Node}, make w env e node w' →
    w.Extends w' ∧ ∀ {w₂ env₂}, Twins w env w₂ env₂ → Accepts w₂ env₂ e

section

variable {make : Making} (transfers : Transfers make)

include transfers

theorem transfers_all {w w' : Workspace} {env : Env} {es : List Expr} {nodes : List Node}
    (h : MakesAll make env w es nodes w') : w.Extends w' ∧ ∀ {w₂ env₂}, Twins w env w₂ env₂ →
      ∃ nodes₂ w₂', MakesAll (Makes .standard) env₂ w₂ es nodes₂ w₂' ∧ w₂.Extends w₂' ∧ nodes₂.length = nodes.length := by
  induction h with
  | nil w => exact ⟨.refl w, fun _ => ⟨[], _, .nil _, .refl _, rfl⟩⟩
  | cons head _ ih =>
    obtain ⟨hext, accepts⟩ := transfers head
    obtain ⟨hext', ih⟩ := ih
    refine ⟨hext.trans hext', fun twins => ?_⟩
    obtain ⟨node₂, w₃, made⟩ := accepts twins
    obtain ⟨nodes₂, w₄, rest, hrest, hlen⟩ := ih (twins.grow hext made.extends)
    exact ⟨node₂ :: nodes₂, w₄, .cons made rest, made.extends.trans hrest, congrArg (· + 1) hlen⟩

theorem transfers_groups {w w' : Workspace} {env : Env} {groups : List (String × List Expr)}
    {made : List (String × List Node)} (h : MakesGroups make env w groups made w') : w.Extends w' ∧
      ∀ {w₂ env₂}, Twins w env w₂ env₂ → ∃ made₂ w₂', MakesGroups (Makes .standard) env₂ w₂ groups made₂ w₂' ∧
        w₂.Extends w₂' ∧ SameGroups made made₂ := by
  induction h with
  | nil w => exact ⟨.refl w, fun _ => ⟨[], _, .nil _, .refl _, .nil⟩⟩
  | cons head _ ih =>
    obtain ⟨hext, accepts⟩ := transfers_all transfers head.2
    obtain ⟨hext', ih⟩ := ih
    refine ⟨hext.trans hext', fun twins => ?_⟩
    obtain ⟨nodes₂, w₃, hall, hext₂, hlen⟩ := accepts twins
    obtain ⟨made₂, w₄, rest, hrest, hsame⟩ := ih (twins.grow hext hext₂)
    exact ⟨(_, nodes₂) :: made₂, w₄, .cons ⟨rfl, hall⟩ rest, hext₂.trans hrest, .cons ⟨head.1, hlen.symm⟩ hsame⟩

theorem transfers_builds {w w' w₂ : Workspace} {env env₂ : Env} {candidate : Expr} {node : Node}
    (h : Builds .standard make w env candidate node w') (twins : Twins w env w₂ env₂) :
    ∃ node₂ w₂', Builds .standard (Makes .standard) w₂ env₂ candidate node₂ w₂' := by
  obtain ⟨entry, captures, groups, hf, hg, hnode⟩ := h
  obtain ⟨-, accepts⟩ := transfers_groups transfers hg
  obtain ⟨groups₂, w₂', hg₂, -, hsame⟩ := accepts twins
  obtain ⟨node₂, hnode₂⟩ := Standard.byShape_of_isStandard (Standard.isStandard_of_find? hf) (Table.Parallel.ofList hsame) hnode
  exact ⟨node₂, w₂', entry, captures, groups₂, hf, hg₂, hnode₂⟩

theorem transfers_define {w w' : Workspace} {env : Env} {e : Expr} {name : String} {previous : Option Binding}
    (h : MakesDefine make env w e name previous w') {w₂ : Workspace} {env₂ : Env} (twins : Twins w env w₂ env₂) :
    ∃ previous₂ w₂', MakesDefine (Makes .standard) env₂ w₂ e name previous₂ w₂' ∧ Twins w' env w₂' env₂ := by
  cases h with
  | value form named made =>
    obtain ⟨hext, accepts⟩ := transfers made
    obtain ⟨node₂, w₃, made₂⟩ := accepts twins
    exact ⟨_, _, .value form named made₂, (twins.grow hext made₂.extends).define name rfl⟩
  | function form called named entered declared bound made =>
    rename_i w₁ w₂' w₃ w₄ scope d target value args params body
    cases entered
    cases declared
    -- the same three steps on the other side: a scope, a function, its name
    let s₁ := Workspace.paramScope (env.depth + 1) params
    let s₂ := Workspace.paramScope (env₂.depth + 1) params
    let v₁ := (w.addScope s₁).declare name params (env.depth + 1)
    let v₂ := (w₂.addScope s₂).declare name params (env₂.depth + 1)
    have hw₃ : w₃ = (v₁.2.define env name (.function v₁.1)).2 := congrArg Prod.snd bound.symm
    have defined : Twins w₃ env (v₂.2.define env₂ name (.function v₂.1)).2 env₂ := by
      rw [hw₃]
      exact (twins.grow ((w.extends_addScope s₁).trans (Workspace.extends_declare _ name params (env.depth + 1)))
        ((w₂.extends_addScope s₂).trans (Workspace.extends_declare _ name params (env₂.depth + 1)))).define name rfl
    have inner : Twins w₃ ⟨⟨w.scopes.size, env.depth + 1⟩, env.path⟩ (v₂.2.define env₂ name (.function v₂.1)).2
        ⟨⟨w₂.scopes.size, env₂.depth + 1⟩, env₂.path⟩ := by
      obtain ⟨hs₁, there₁⟩ := w.scope_function twins.within s₁ name params (env.depth + 1) (.function v₁.1)
      obtain ⟨hs₂, there₂⟩ := w₂.scope_function twins.within' s₂ name params (env₂.depth + 1) (.function v₂.1)
      rw [← show w₃ = _ from hw₃] at hs₁ there₁
      refine defined.inner there₁ there₂ (fun x => ?_)
      rw [hs₁, hs₂]
      exact same_paramScope _ _ params x
    obtain ⟨hext, accepts⟩ := transfers made
    obtain ⟨body₂, w₅, made₂⟩ := accepts inner
    exact ⟨_, _, .function form called named rfl rfl rfl made₂, (defined.grow hext made₂.extends).setBody _ _ _ _⟩

theorem transfers_statements {w w' : Workspace} {env : Env} {ss : List Expr} {nodes : List Node} {ends ends' : Bool}
    (h : MakesStatements make env w ss ends nodes ends' w') : ∀ {w₂ env₂}, Twins w env w₂ env₂ →
      ∃ nodes₂ w₂', MakesStatements (Makes .standard) env₂ w₂ ss ends nodes₂ ends' w₂' := by
  induction h with
  | nil w ends => exact fun _ => ⟨[], _, .nil _ _⟩
  | define is head _ ih =>
    intro w₂ env₂ twins
    obtain ⟨previous₂, w₃, made₂, twins'⟩ := transfers_define transfers head twins
    obtain ⟨nodes₂, w₄, rest⟩ := ih twins'
    exact ⟨nodes₂, w₄, .define is made₂ rest⟩
  | expr is head _ ih =>
    intro w₂ env₂ twins
    obtain ⟨hext, accepts⟩ := transfers head
    obtain ⟨node₂, w₃, made₂⟩ := accepts twins
    obtain ⟨nodes₂, w₄, rest⟩ := ih (twins.grow hext made₂.extends)
    exact ⟨node₂ :: nodes₂, w₄, .expr is made₂ rest⟩

/-- **One step of the compiler** is possible in both of two twins, or in neither. -/
theorem transfers_step {w w' w₂ : Workspace} {env env₂ : Env} {e : Expr} {node : Node}
    (h : Step .standard make w env e node w') (twins : Twins w env w₂ env₂) : Accepts w₂ env₂ e := by
  have lookup : ∀ {x b}, w.lookup env x = some b → ∃ b₂, w₂.lookup env₂ x = some b₂ ∧ b₂.kind = b.kind := by
    intro x b hb
    have := twins.kinds x
    rw [hb] at this
    obtain ⟨b₂, hb₂, hkind⟩ := Option.map_eq_some_iff.1 this.symm
    exact ⟨b₂, hb₂, hkind⟩
  have missing : ∀ {x}, w.lookup env x = none → w₂.lookup env₂ x = none := by
    intro x hx
    have := twins.kinds x
    rw [hx] at this
    exact Option.map_eq_none_iff.1 this.symm
  have accepts : ∀ {node₂ w₂'}, Step .standard (Makes .standard) w₂ env₂ e node₂ w₂' → Accepts w₂ env₂ e :=
    fun h => ⟨_, _, makes_iff.2 h⟩
  cases h with
  | literal form => exact accepts (.literal form)
  | variableName form bound =>
    obtain ⟨b, hb, kind⟩ := lookup bound
    cases b with
    | value node₂ => exact accepts (.variableName form hb)
    | function d => cases kind
    | param depth index => cases kind
  | parameterName form bound =>
    obtain ⟨b, hb, kind⟩ := lookup bound
    cases b with
    | value node₂ => cases kind
    | function d => cases kind
    | param depth index => exact accepts (.parameterName form hb)
  | functionName form bound =>
    obtain ⟨b, hb, kind⟩ := lookup bound
    cases b with
    | value node₂ => cases kind
    | function d => exact accepts (.functionName form hb)
    | param depth index => cases kind
  | pattern asks built =>
    obtain ⟨node₂, w₃, built₂⟩ := transfers_builds transfers built twins
    refine accepts (.pattern ?_ built₂)
    generalize hbare : e.bare = e' at asks
    cases asks with
    | name unbound plain => exact .name (missing unbound) plain
    | call plain unbound => exact .call plain (missing unbound)
    | unary op x => exact .unary op x
    | chain long found => exact .chain long found
    | regrouped long missed split => exact .regrouped long missed split
  | lambda form last named entered made declared =>
    cases entered
    obtain ⟨-, inner⟩ := transfers made
    obtain ⟨node₂, w₃, made₂⟩ := inner (twins.addScope _ (env₂.depth + 1) (same_paramScope _ (env₂.depth + 1) _))
    exact accepts (.lambda form last named rfl made₂ rfl)
  | block form entered made =>
    cases entered
    obtain ⟨nodes₂, w₃, made₂⟩ := transfers_statements transfers made (twins.addScope _ env₂.depth (fun _ => rfl))
    exact accepts (.block form rfl made₂)
  | callFunction form plain bound made =>
    obtain ⟨b, hb, kind⟩ := lookup bound
    obtain ⟨nodes₂, w₃, made₂, -⟩ := (transfers_all transfers made).2 twins
    cases b with
    | value node₂ => cases kind
    | function d => exact accepts (.callFunction form plain hb made₂)
    | param depth index => cases kind
  | callVariable form plain bound made =>
    obtain ⟨b, hb, kind⟩ := lookup bound
    obtain ⟨nodes₂, w₃, made₂, -⟩ := (transfers_all transfers made).2 twins
    cases b with
    | value node₂ => exact accepts (.callVariable form plain hb made₂)
    | function d => cases kind
    | param depth index => cases kind
  | callParameter form plain bound made =>
    obtain ⟨b, hb, kind⟩ := lookup bound
    obtain ⟨nodes₂, w₃, made₂, -⟩ := (transfers_all transfers made).2 twins
    cases b with
    | value node₂ => cases kind
    | function d => cases kind
    | param depth index => exact accepts (.callParameter form plain hb made₂)

end

theorem transfers_compile : ∀ n : Nat, Transfers (.of (compile .standard n))
  | 0 => fun h => by cases h
  | n + 1 => fun h =>
    ⟨compile_extends h, fun twins => transfers_step (transfers_compile n) ((compile_gives_iff .standard n _ _ _ _ _).1 h) twins⟩

/-- **What compiles in an environment compiles in every twin of it.** -/
theorem accepts_of_twins {w w' : Workspace} {env env' : Env} {e : Expr} (h : Accepts w env e)
    (twins : Twins w env w' env') : Accepts w' env' e := by
  obtain ⟨node, w₁, n, hn⟩ := h
  exact (transfers_compile n hn).2 twins

/-- **What was compiled before does not matter** to what compiles in scopes that were there already. -/
theorem Workspace.Extends.accepts_iff {w w' : Workspace} (h : w.Extends w') {env : Env} (within : env.Within w) {e : Expr} :
    Accepts w' env e ↔ Accepts w env e :=
  ⟨fun made => accepts_of_twins made ⟨h.within within, within, fun name => by rw [h.lookup within]⟩,
    fun made => accepts_of_twins made ⟨within, h.within within, fun name => by rw [h.lookup within]⟩⟩

end ChainCalc
