import ChainCalc.Proofs.Compile.Units
import ChainCalc.Proofs.Renaming.Candidates
import ChainCalc.Proofs.Renaming.Scopes
/-!
# Compilation side by side — a renamed program compiles like the program

Where an expression compiles, the renamed expression compiles too, in the renamed workspace and in as many steps; the two
nodes differ in labels and in the names of parameters only (`copies_compile`).
-/
namespace ChainCalc

open CompileM

/-! ### Nodes -/

section

variable {P : String → Env → Prop}

theorem Node.Sim.refl {node : Node} (own : node.Own P) (leaf : node.children = []) : node.Sim P node :=
  ⟨rfl, .mk own (fun x hx => by rw [leaf] at hx; cases hx)⟩

theorem Node.Sim.all {nodes nodes' : List Node} (h : List.Forall₂ (Node.Sim P) nodes nodes') :
    nodes'.map Node.anon = nodes.map Node.anon ∧ ∀ x ∈ nodes, x.Good P := by
  induction h with
  | nil => exact ⟨rfl, fun _ hx => by cases hx⟩
  | cons head _ ih =>
    rw [List.forall_mem_cons, List.map_cons, List.map_cons, head.anon, ih.1]
    exact ⟨rfl, head.good, ih.2⟩

theorem Node.Sim.kernel {nodes nodes' : List Node} {compute : Kernel} (blind : compute.Blind) (name label label' : String)
    (h : List.Forall₂ (Node.Sim P) nodes nodes') :
    (Node.kernel name label nodes compute).Sim P (.kernel name label' nodes' compute) := by
  obtain ⟨hanon, hgood⟩ := Node.Sim.all h
  exact ⟨by simp [Node.anon, hanon], .mk blind hgood⟩

theorem Node.Sim.sequence {nodes nodes' : List Node} (label label' : String) (h : List.Forall₂ (Node.Sim P) nodes nodes') :
    (Node.sequence label nodes).Sim P (.sequence label' nodes') := by
  obtain ⟨hanon, hgood⟩ := Node.Sim.all h
  exact ⟨by simp [Node.anon, hanon], .mk trivial hgood⟩

theorem Node.Sim.invoke {nodes nodes' : List Node} {name : String} {env : Env} (usable : P name env) (site site' : String)
    (h : List.Forall₂ (Node.Sim P) nodes nodes') : (Node.invoke name site env nodes).Sim P (.invoke name site' env nodes') := by
  obtain ⟨hanon, hgood⟩ := Node.Sim.all h
  exact ⟨by simp [Node.anon, hanon], .mk usable hgood⟩

theorem Node.Sim.apply {nodes nodes' : List Node} {callee callee' : Node} (hcallee : callee.Sim P callee') (site site' : String)
    (h : List.Forall₂ (Node.Sim P) nodes nodes') : (Node.apply site callee nodes).Sim P (.apply site' callee' nodes') := by
  obtain ⟨hanon, hgood⟩ := Node.Sim.all h
  exact ⟨by simp [Node.anon, hanon, hcallee.anon], .mk trivial (List.forall_mem_cons.2 ⟨hcallee.good, hgood⟩)⟩

theorem Node.Sim.param (name name' : String) (depth index : Nat) :
    (Node.param name depth index).Sim P (.param name' depth index) :=
  ⟨rfl, .mk trivial (fun _ hx => by cases hx)⟩

theorem Bound.one_parallel {primitive placeholder : String} {t t' : Table (List Node)} {node : Node}
    (h : t.Parallel (List.Forall₂ (Node.Sim P)) t') (hone : (⟨primitive, t⟩ : Bound).one placeholder = .ok node) :
    ∃ node', (⟨primitive, t'⟩ : Bound).one placeholder = .ok node' ∧ node.Sim P node' := by
  obtain ⟨nodes, hn⟩ := Bound.one_eq_ok.1 hone
  have hrel := h.get? placeholder
  rw [show t.get? placeholder = some (node :: nodes) from hn] at hrel
  generalize hb : t'.get? placeholder = b at hrel
  cases hrel with
  | some hall =>
    cases hall with
    | cons head _ => exact ⟨_, Bound.one_eq_ok.2 ⟨_, hb⟩, head⟩

/-- **Factories make alike nodes of alike nodes.** -/
theorem Standard.factory_parallel {f : Factory} (standard : IsStandard f) {primitive name label : String} (label' : String)
    {t t' : Table (List Node)} {node : Node} (h : t.Parallel (List.Forall₂ (Node.Sim P)) t')
    (hnode : f ⟨primitive, t⟩ name label = .ok node) :
    ∃ node', f ⟨primitive, t'⟩ name label' = .ok node' ∧ node.Sim P node' := by
  cases standard with
  | conditional =>
    obtain ⟨c, y, n, hc, hy, hn, rfl⟩ := ifEntry_eq_ok.1 hnode
    obtain ⟨c', hc', simc⟩ := Bound.one_parallel h hc
    obtain ⟨y', hy', simy⟩ := Bound.one_parallel h hy
    obtain ⟨n', hn', simn⟩ := Bound.one_parallel h hn
    refine ⟨_, ifEntry_eq_ok.2 ⟨c', y', n', hc', hy', hn', rfl⟩, ?_, .mk trivial ?_⟩
    · simp [Node.anon, simc.anon, simy.anon, simn.anon]
    · simp [Node.children, simc.good, simy.good, simn.good]
  | fetch =>
    obtain ⟨key, hk, rfl⟩ := fetchEntry_eq_ok.1 hnode
    obtain ⟨key', hk', sim⟩ := Bound.one_parallel h hk
    refine ⟨_, fetchEntry_eq_ok.2 ⟨key', hk', rfl⟩, ?_, .mk trivial ?_⟩
    · simp [Node.anon, sim.anon]
    · simp [Node.children, sim.good]
  | pi =>
    cases hnode
    exact ⟨_, rfl, .refl trivial rfl⟩
  | worker query =>
    cases hnode
    exact ⟨_, rfl, rfl, .mk trivial (fun _ hx => by cases hx)⟩
  | kernel known =>
    cases hnode
    exact ⟨_, rfl, .kernel (blind_of_isKernel known) _ _ _ (List.rel_flatten h.values)⟩

end

/-! ### Names -/

def NameRenamed (x y : String) (on : Bool) (z z' : String) : Prop :=
  (z' = z ∧ z ≠ y ∧ (z = x → on = false)) ∨ (on = true ∧ z = x ∧ z' = y)

theorem OperandRenamed.ident {care : Care} {x y z : String} {on : Bool} {o : Operand}
    (h : OperandRenamed care x y on (.ident z) o) : ∃ z', o = .ident z' ∧ NameRenamed x y on z z' := by
  cases h with
  | name fresh other => exact ⟨z, rfl, .inl ⟨rfl, fresh, other⟩⟩
  | parameter => exact ⟨y, rfl, .inr ⟨rfl, rfl, rfl⟩⟩

theorem OperandRenamed.plainCall {care : Care} {x y f : String} {on : Bool} {args : List Expr} {o : Operand}
    (hxy : x ≠ y) (hy : isSpecial y = false) (plain : isSpecial f = false) (h : OperandRenamed care x y on (.call f args) o) :
    ∃ f' args', o = .call f' args' ∧ isSpecial f' = false ∧ NameRenamed x y on f f' ∧ ExprsRenamed care x y on args args' ∧
      (f' = f → care.call f args ∧ care.call f args') := by
  cases h with
  | call plain fresh other safe safe' inside =>
    exact ⟨f, _, rfl, plain, .inl ⟨rfl, fresh, other⟩, inside, fun _ => ⟨safe, safe'⟩⟩
  | callParameter plain inside => exact ⟨y, _, rfl, hy, .inr ⟨rfl, rfl, rfl⟩, inside, fun heq => absurd heq.symm hxy⟩
  | lambda _ _ _ _ => exact absurd plain (by decide)
  | block _ => exact absurd plain (by decide)

theorem OperandRenamed.lambdaCall {care : Care} {x y : String} {on : Bool} {args : List Expr} {o : Operand}
    (h : OperandRenamed care x y on (.call "lambda" args) o) :
    ∃ chosen names names' params body body', args = names ++ [body] ∧ o = .call "lambda" (names' ++ [body']) ∧
      names.mapM Expr.asIdent? = some params ∧ names'.mapM Expr.asIdent? = some (renamedParams x y chosen params) ∧
      y ∉ params ∧ ExprRenamed care x y (if x ∈ params then chosen else on) body body' := by
  generalize hf : "lambda" = f at h
  cases h with
  | call plain _ _ _ _ _ => exact absurd plain (by rw [← hf]; decide)
  | callParameter plain _ => exact absurd plain (by rw [← hf]; decide)
  | block _ => exact absurd hf (by decide)
  | lambda named named' fresh inside => exact ⟨_, _, _, _, _, _, rfl, rfl, named, named', fresh, inside⟩

theorem OperandRenamed.blockCall {care : Care} {x y : String} {on : Bool} {args : List Expr} {o : Operand}
    (h : OperandRenamed care x y on (.call "block" args) o) :
    ∃ ss', o = .call "block" ss' ∧ StatementsRenamed care x y on args ss' := by
  generalize hf : "block" = f at h
  cases h with
  | call plain _ _ _ _ _ => exact absurd plain (by rw [← hf]; decide)
  | callParameter plain _ => exact absurd plain (by rw [← hf]; decide)
  | lambda _ _ _ _ => exact absurd hf (by decide)
  | block inside => exact ⟨_, rfl, inside⟩

theorem lambda_args (names : List Expr) (body : Expr) :
    ((names ++ [body]).map Expr.bare).getLast? = some body.bare ∧
      ((names ++ [body]).map Expr.bare).dropLast.mapM Expr.asIdent? = names.mapM Expr.asIdent? := by
  constructor
  · simp
  · rw [List.map_append, List.map_singleton, List.dropLast_concat, List.mapM_map]
    simp [Function.comp_def]

section

variable (base : Nat) (x y : String)

structure Stage (on : Bool) (env : Env) (w w' : Workspace) : Prop where
  mirror : w.Mirror base x y w'
  within : env.Within w'
  layered : Layered base env.path
  flag : w'.renamedAt base x y env.path = on

end

section

variable {base : Nat} {x y : String} {on : Bool} {env : Env} {w w' : Workspace}

theorem Stage.grow (h : Stage base x y on env w w') {w₁ w₁' : Workspace} (ext : w'.Extends w₁') (mirror : w₁.Mirror base x y w₁') :
    Stage base x y on env w₁ w₁' :=
  ⟨mirror, ext.within h.within, h.layered, by rw [ext.renamedAt h.within, h.flag]⟩

theorem Stage.started (h : Stage base x y on env w w') : base ≤ w'.scopes.size := by
  rw [h.mirror.scopes]
  exact h.mirror.started

/-- **A name and its renamed name are bound alike**; a name that is not a parameter was not renamed. -/
theorem Stage.lookup (h : Stage base x y on env w w') {z z' : String} (hz : NameRenamed x y on z z') :
    Option.Rel (Binding.Sim (Usable base x y w')) (w.lookup env z) (w'.lookup env z') ∧
      ((z' = z ∧ Usable base x y w' z env) ∨ ∃ depth index, w.lookup env z = some (.param depth index)) := by
  rcases hz with ⟨rfl, fresh, other⟩ | ⟨hon, rfl, rfl⟩
  · have hflag : z' = x → w'.renamedAt base x y env.path = false := fun hz => by rw [h.flag, other hz]
    have other : z' = y → ∀ s ∈ env.path, s.id < base := fun hz => absurd hz fresh
    exact ⟨h.mirror.lookupPath other hflag, .inl ⟨rfl, h.within, other, hflag⟩⟩
  · obtain ⟨depth, index, hx, hy⟩ := h.mirror.parameter h.layered (h.flag.trans hon)
    refine ⟨?_, .inr ⟨depth, index, hx⟩⟩
    unfold Workspace.lookup
    rw [hx, hy]
    exact .some (.param depth index)

theorem Stage.lookup_none (h : Stage base x y on env w w') {z z' : String} (hz : NameRenamed x y on z z')
    (hnone : w.lookup env z = none) : z' = z ∧ w'.lookup env z = none := by
  obtain ⟨hrel, hname⟩ := h.lookup hz
  rw [hnone] at hrel hname
  rcases hname with ⟨rfl, -⟩ | ⟨_, _, hsome⟩
  · generalize w'.lookup env z' = b at hrel ⊢
    cases hrel
    exact ⟨rfl, rfl⟩
  · cases hsome

theorem Stage.lookup_value (h : Stage base x y on env w w') {z z' : String} (hz : NameRenamed x y on z z') {node : Node}
    (bound : w.lookup env z = some (.value node)) :
    ∃ node', w'.lookup env z' = some (.value node') ∧ node.Sim (Usable base x y w') node' := by
  have hrel := (h.lookup hz).1
  rw [bound] at hrel
  generalize w'.lookup env z' = b at hrel ⊢
  cases hrel with
  | some sim =>
    cases sim with
    | value sim => exact ⟨_, rfl, sim⟩

theorem Stage.lookup_param (h : Stage base x y on env w w') {z z' : String} (hz : NameRenamed x y on z z') {depth index : Nat}
    (bound : w.lookup env z = some (.param depth index)) : w'.lookup env z' = some (.param depth index) := by
  have hrel := (h.lookup hz).1
  rw [bound] at hrel
  generalize w'.lookup env z' = b at hrel ⊢
  cases hrel with
  | some sim =>
    cases sim with
    | param => rfl

theorem Stage.lookup_function (h : Stage base x y on env w w') {z z' : String} (hz : NameRenamed x y on z z') {d : Definition}
    (bound : w.lookup env z = some (.function d)) :
    z' = z ∧ Usable base x y w' z env ∧ ∃ d', w'.lookup env z = some (.function d') := by
  obtain ⟨hrel, hname⟩ := h.lookup hz
  rw [bound] at hrel hname
  rcases hname with ⟨rfl, usable⟩ | ⟨_, _, hsome⟩
  · refine ⟨rfl, usable, ?_⟩
    generalize w'.lookup env z' = b at hrel ⊢
    cases hrel with
    | some sim =>
      cases sim with
      | function _ => exact ⟨_, rfl⟩
  · cases hsome

end

/-! ### What is made on the other side -/

section

variable (care : Care) (base : Nat) (x y : String)

def Copies (make : Making) : Prop :=
  ∀ {on : Bool} {env : Env} {w w₁ w' : Workspace} {e e' : Expr} {node : Node}, ExprRenamed care x y on e e' →
    Stage base x y on env w w' → make w env e node w₁ →
      ∃ node' w₁', make w' env e' node' w₁' ∧ w'.Extends w₁' ∧ w₁.Mirror base x y w₁' ∧ node.Sim (Usable base x y w₁') node'

end

section

variable {care : Care} {base : Nat} {x y : String} {make : Making} (copies : Copies care base x y make) {on : Bool} {env : Env} {w w₁ w' : Workspace}

include copies

theorem copies_all {es es' : List Expr} {nodes : List Node} (made : MakesAll make env w es nodes w₁)
    (renamed : List.Forall₂ (ExprRenamed care x y on) es es') (stage : Stage base x y on env w w') :
    ∃ nodes' w₁', MakesAll make env w' es' nodes' w₁' ∧ w'.Extends w₁' ∧ w₁.Mirror base x y w₁' ∧
      List.Forall₂ (Node.Sim (Usable base x y w₁')) nodes nodes' := by
  induction made generalizing w' es' with
  | nil w =>
    cases renamed
    exact ⟨[], w', .nil _, .refl w', stage.mirror, .nil⟩
  | cons head _ ih =>
    cases renamed with
    | cons hhead htail =>
      obtain ⟨node', w₁', made', ext, mirror, sim⟩ := copies hhead stage head
      obtain ⟨nodes', w₂', rest, ext', mirror', sims⟩ := ih htail (stage.grow ext mirror)
      exact ⟨node' :: nodes', w₂', .cons made' rest, ext.trans ext', mirror',
        .cons (sim.mono (fun _ _ => Usable.grow ext')) sims⟩

theorem copies_groups {groups groups' : List (String × List Expr)} {made : List (String × List Node)}
    (h : MakesGroups make env w groups made w₁)
    (renamed : List.Forall₂ (fun g g' => g.1 = g'.1 ∧ List.Forall₂ (ExprRenamed care x y on) g.2 g'.2) groups groups')
    (stage : Stage base x y on env w w') :
    ∃ made' w₁', MakesGroups make env w' groups' made' w₁' ∧ w'.Extends w₁' ∧ w₁.Mirror base x y w₁' ∧
      List.Forall₂ (fun g g' => g.1 = g'.1 ∧ List.Forall₂ (Node.Sim (Usable base x y w₁')) g.2 g'.2) made made' := by
  induction h generalizing w' groups' with
  | nil w =>
    cases renamed
    exact ⟨[], w', .nil _, .refl w', stage.mirror, .nil⟩
  | cons head _ ih =>
    cases renamed with
    | cons hhead htail =>
      obtain ⟨nodes', w₁', made', ext, mirror, sims⟩ := copies_all copies head.2 hhead.2 stage
      obtain ⟨groups', w₂', rest, ext', mirror', sims'⟩ := ih htail (stage.grow ext mirror)
      refine ⟨(_, nodes') :: groups', w₂', .cons ⟨hhead.1, made'⟩ rest, ext.trans ext', mirror', .cons ⟨head.1, ?_⟩ sims'⟩
      exact sims.imp (fun _ _ sim => sim.mono (fun _ _ => Usable.grow ext'))

theorem copies_builds {c c' : Expr} {node : Node} (alike : SettledAlike (ExprRenamed care x y on) c c') (stage : Stage base x y on env w w')
    (built : Builds .standard make w env c node w₁) :
    ∃ node' w₁', Builds .standard make w' env c' node' w₁' ∧ w₁.Mirror base x y w₁' ∧ node.Sim (Usable base x y w₁') node' := by
  obtain ⟨entry, captures, groups, hf, hg, hnode⟩ := built
  unfold SettledAlike at alike
  rw [hf] at alike
  generalize hf' : Registry.standard.find? c' = found at alike
  cases alike with
  | @some _ found hfound =>
    obtain ⟨entry', captures'⟩ := found
    obtain ⟨rfl, same⟩ : entry = entry' ∧ _ := hfound
    obtain ⟨groups', w₁', hg', -, mirror, sims⟩ := copies_groups copies hg same stage
    obtain ⟨node', hnode', sim⟩ :=
      Standard.factory_parallel (Standard.isStandard_of_find? hf) c'.text (Table.Parallel.ofList sims) hnode
    exact ⟨node', w₁', ⟨entry, captures', groups', hf', hg', hnode'⟩, mirror, sim⟩

omit copies in
/-- **A definition and the renamed one** name and say the corresponding arguments. -/
theorem defines_renamed (suits : care.Suits x y) {s s' t t' v v' target value : Expr} {more more' : List Expr} {inner : Bool}
    (is : s.isDefine = true) (form : s.bare = .call "define" (t :: v :: more))
    (form' : s'.bare = .call "define" (t' :: v' :: more')) (safe : care.call "define" (t :: v :: more))
    (safe' : care.call "define" (t' :: v' :: more')) (named : t'.ellipsis? = t.ellipsis?)
    (inside : ExprRenamed care x y inner v v') (after : ExprsRenamed care x y on more more') (h : s.Defines target value) :
    target = t.bare ∧ value = v.bare ∧ s'.Defines t'.bare v'.bare := by
  obtain ⟨t₀, v₀, rest, hbare, rfl, rfl, ht, hv, hex⟩ := args_of_defines is h
  rw [form] at hbare
  cases hbare
  have hv' : v'.ellipsis? = none := by
    have := suits.define safe safe' (by simp) (by simp) inside
    rw [hv] at this
    simpa using this
  have hex' : exhausted more' = true := by
    cases after with
    | nil => rfl
    | @cons _ e e' rest rest' head tail =>
      cases tail with
      | nil => exact (suits.define safe safe' (by simp) (by simp) head).trans hex
      | cons _ _ => cases hex
  exact ⟨rfl, rfl, defines_of_args form' (named.trans ht) hv' hex'⟩

omit copies in
theorem plain_of_extends (stage : Stage base x y on env w w') (plain : env.Plain base y w') {w₁' : Workspace}
    (ext : w'.Extends w₁') : env.Plain base y w₁' := by
  intro new
  rw [ext.scope _ (stage.within env.here List.mem_cons_self)]
  exact plain new

omit copies in
theorem Stage.define (stage : Stage base x y on env w w') (plain : env.Plain base y w') {f : String} (hf : f ≠ y)
    {b b' : Binding} (sim : Binding.Sim (Usable base x y w') b b') :
    Stage base x y (on && f != x) env (w.define env f b).2 (w'.define env f b').2 ∧
      env.Plain base y (w'.define env f b').2 := by
  refine ⟨⟨stage.mirror.define stage.within plain hf sim, w'.within_define stage.within f b', stage.layered, ?_⟩, fun new => ?_⟩
  · rw [Workspace.renamedAt_define stage.within hf plain, stage.flag]
  · rw [w'.get?_scope_define_ne stage.within (Ne.symm hf), plain new]

theorem copies_value (suits : care.Suits x y) {s s' t t' v v' : Expr} {more more' : List Expr} {z name : String}
    {previous : Option Binding} (is : s.isDefine = true) (form : s.bare = .call "define" (t :: v :: more))
    (form' : s'.bare = .call "define" (t' :: v' :: more')) (safe : care.call "define" (t :: v :: more))
    (safe' : care.call "define" (t' :: v' :: more')) (named : t.asIdent? = some z) (named' : t'.asIdent? = some z)
    (fresh : z ≠ y) (inside : ExprRenamed care x y on v v') (after : ExprsRenamed care x y on more more')
    (stage : Stage base x y on env w w') (plain : env.Plain base y w')
    (made : MakesDefine make env w s name previous w₁) :
    ∃ previous' w₁', MakesDefine make env w' s' z previous' w₁' ∧ Stage base x y (on && z != x) env w₁ w₁' ∧
      env.Plain base y w₁' ∧ ∀ f env', Usable base x y w' f env' → Usable base x y w₁' f env' := by
  have target : t'.ellipsis? = t.ellipsis? := by
    rw [← Expr.ellipsis?_bare t', ← Expr.ellipsis?_bare t, Expr.asIdent?_eq_some.1 named, Expr.asIdent?_eq_some.1 named']
  cases made with
  | value hdef hname made =>
    obtain ⟨rfl, rfl, hdef'⟩ := defines_renamed suits is form form' safe safe' target inside after hdef
    rw [Expr.asIdent?_bare, named] at hname
    cases hname
    obtain ⟨node', w₂', made', ext, mirror, sim⟩ := copies inside.bare stage made
    have stage' := stage.grow ext mirror
    obtain ⟨stage'', plain''⟩ := stage'.define (plain_of_extends stage plain ext) fresh (.value sim)
    exact ⟨_, _, .value hdef' (by rw [Expr.asIdent?_bare, named']) made', stage'', plain'',
      fun f env' usable => Usable.define stage'.within fresh (usable.grow ext)⟩
  | function hdef called _ _ _ _ _ =>
    obtain ⟨rfl, rfl, -⟩ := defines_renamed suits is form form' safe safe' target inside after hdef
    rw [Expr.asCall?_bare] at called
    rw [asIdent?_eq_none_of_asCall? called] at named
    cases named

omit copies in
theorem Stage.inner (stage : Stage base x y on env w w') {s : ScopeRef} {depth : Nat} {chosen : Bool} {params : List String}
    (new : base ≤ s.id) (there : s.id < w'.scopes.size) (hs : w'.scope s.id = Workspace.paramScope depth (renamedParams x y chosen params))
    (fresh : y ∉ params) : Stage base x y (if x ∈ params then chosen else on) ⟨s, env.path⟩ w w' where
  mirror := stage.mirror
  within := List.forall_mem_cons.2 ⟨there, stage.within⟩
  layered := List.pairwise_cons.2 ⟨fun _ _ old => absurd old (Nat.not_lt.2 new), stage.layered⟩
  flag := by
    show w'.renamedAt base x y (s :: env.path) = _
    rw [renamedAt_paramScope depth chosen fresh w' new hs, stage.flag]

omit copies in
theorem Stage.addScope (hxy : x ≠ y) (stage : Stage base x y on env w w') (depth : Nat) (chosen : Bool) {params : List String}
    (fresh : y ∉ params) : Stage base x y on env (w.addScope (Workspace.paramScope depth params))
      (w'.addScope (Workspace.paramScope depth (renamedParams x y chosen params))) :=
  stage.grow (w'.extends_addScope _) (stage.mirror.addScope (mirror_paramScope hxy _ depth chosen fresh))

omit copies in
theorem Stage.setBody (stage : Stage base x y on env w w') {d d' : Definition} (hid : d'.id = d.id) {node node' : Node}
    (sim : node.Sim (Usable base x y w') node') : Stage base x y on env (w.setBody d node) (w'.setBody d' node') where
  mirror := stage.mirror.setBody hid sim
  within := stage.within
  layered := stage.layered
  flag := by
    have hsame : (w'.setBody d' node').renamedAt base x y env.path = w'.renamedAt base x y env.path :=
      Workspace.renamedAt_congr (fun _ _ => ⟨rfl, rfl⟩)
    rw [hsame, stage.flag]

omit copies in
theorem Workspace.Mirror.anon_declare (h : w.Mirror base x y w') (name : String) (chosen : Bool) (params : List String)
    (depth : Nat) :
    (w'.declare name (renamedParams x y chosen params) depth).1.anon = (w.declare name params depth).1.anon := by
  unfold Workspace.declare Definition.anon renamedParams
  rw [h.bodies]
  cases chosen with
  | false => rfl
  | true => simp [Function.comp_def]

theorem copies_function (suits : care.Suits x y) (hxy : x ≠ y) {s s' t t' v v' : Expr} {more more' names names' : List Expr} {f name : String}
    {chosen : Bool} {params : List String} {previous : Option Binding} (is : s.isDefine = true)
    (form : s.bare = .call "define" (t :: v :: more)) (form' : s'.bare = .call "define" (t' :: v' :: more'))
    (safe : care.call "define" (t :: v :: more)) (safe' : care.call "define" (t' :: v' :: more'))
    (called : t.asCall? = some (f, names)) (called' : t'.asCall? = some (f, names')) (fresh : f ≠ y)
    (named : names.mapM Expr.asIdent? = some params)
    (named' : names'.mapM Expr.asIdent? = some (renamedParams x y chosen params)) (free : y ∉ params)
    (inside : ExprRenamed care x y (if x ∈ params then chosen else on && f != x) v v')
    (after : ExprsRenamed care x y on more more') (stage : Stage base x y on env w w')
    (plain : env.Plain base y w') (made : MakesDefine make env w s name previous w₁) :
    ∃ previous' w₁', MakesDefine make env w' s' f previous' w₁' ∧ Stage base x y (on && f != x) env w₁ w₁' ∧
      env.Plain base y w₁' ∧ ∀ g env', Usable base x y w' g env' → Usable base x y w₁' g env' := by
  have target : t'.ellipsis? = t.ellipsis? := by
    rw [← Expr.ellipsis?_bare t', ← Expr.ellipsis?_bare t, Expr.asCall?_eq_some.1 called, Expr.asCall?_eq_some.1 called']
    rfl
  cases made with
  | value hdef hname _ =>
    obtain ⟨rfl, rfl, -⟩ := defines_renamed suits is form form' safe safe' target inside after hdef
    rw [Expr.asIdent?_bare, asIdent?_eq_none_of_asCall? called] at hname
    cases hname
  | function hdef hcalled hnamed entered declared bound made =>
    obtain ⟨rfl, rfl, hdef'⟩ := defines_renamed suits is form form' safe safe' target inside after hdef
    rw [Expr.asCall?_bare, called] at hcalled
    cases hcalled
    rw [named] at hnamed
    cases hnamed
    cases entered
    cases declared
    rename_i w₃ w₄ body
    -- the same steps on the other side: a scope, a function, its name
    let s₁ := Workspace.paramScope (env.depth + 1) params
    let s₂ := Workspace.paramScope (env.depth + 1) (renamedParams x y chosen params)
    let v₁ := (w.addScope s₁).declare f params (env.depth + 1)
    let v₂ := (w'.addScope s₂).declare f (renamedParams x y chosen params) (env.depth + 1)
    have ext : w'.Extends v₂.2 := (w'.extends_addScope s₂).trans (Workspace.extends_declare _ _ _ _)
    have stage₀ := stage.addScope hxy (env.depth + 1) chosen free
    have stage₁ : Stage base x y on env v₁.2 v₂.2 := stage.grow ext (stage₀.mirror.declare f _ _ _)
    have hanon : v₂.1.anon = v₁.1.anon := stage₀.mirror.anon_declare f chosen params (env.depth + 1)
    obtain ⟨stage₂, plain₂⟩ := stage₁.define (plain_of_extends stage plain ext) fresh (.function hanon)
    have hw₃ : w₃ = (v₁.2.define env f (.function v₁.1)).2 := congrArg Prod.snd bound.symm
    rw [← hw₃] at stage₂
    obtain ⟨hs, there⟩ :=
      w'.scope_function stage.within s₂ f (renamedParams x y chosen params) (env.depth + 1) (.function v₂.1)
    have made' := made
    rw [← stage.mirror.scopes] at made'
    obtain ⟨body', w₄', made'', ext', mirror, sim⟩ :=
      copies inside.bare (stage₂.inner (s := ⟨w'.scopes.size, env.depth + 1⟩) stage.started there hs free) made'
    have hid : v₂.1.id = v₁.1.id := stage₀.mirror.bodies
    have plain₄ := plain_of_extends stage₂ plain₂ ext'
    refine ⟨_, w₄'.setBody v₂.1 body', .function hdef' (by rw [Expr.asCall?_bare, called']) named' rfl rfl rfl made'',
      (stage₂.grow ext' mirror).setBody hid sim, plain₄, fun g env' usable => ?_⟩
    have usable₄ : Usable base x y w₄' g env' := (Usable.define stage₁.within fresh (usable.grow ext)).grow ext'
    refine Usable.congr ?_ g env' usable₄
    rfl

/-- **Statements side by side**, with the definitions among them. -/
theorem copies_statements (suits : care.Suits x y) (hxy : x ≠ y) (hy : isSpecial y = false) {ss ss' : List Expr}
    {nodes : List Node} {ends ends' : Bool} (made : MakesStatements make env w ss ends nodes ends' w₁) (renamed : StatementsRenamed care x y on ss ss')
    (stage : Stage base x y on env w w') (plain : env.Plain base y w') :
    ∃ nodes' w₁', MakesStatements make env w' ss' ends nodes' ends' w₁' ∧ w₁.Mirror base x y w₁' ∧
      List.Forall₂ (Node.Sim (Usable base x y w₁')) nodes nodes' ∧ ∀ f env', Usable base x y w' f env' → Usable base x y w₁' f env' := by
  induction made generalizing on w' ss' with
  | nil w ends =>
    cases renamed
    exact ⟨[], w', .nil _ _, stage.mirror, .nil, fun _ _ h => h⟩
  | define is head _ ih =>
    cases renamed with
    | expr hhead _ => exact absurd is (by rw [(hhead.isDefine hy).1]; simp)
    | value form form' safe safe' named named' fresh inside after tail =>
      obtain ⟨previous', w₂', made', stage', plain', grow⟩ :=
        copies_value copies suits is form form' safe safe' named named' fresh inside after stage plain head
      obtain ⟨nodes', w₃', rest, mirror, sims, grow'⟩ := ih tail stage' plain'
      exact ⟨nodes', w₃', .define (Expr.isDefine_iff.2 ⟨_, form'⟩) made' rest, mirror, sims,
        fun f env' h => grow' f env' (grow f env' h)⟩
    | function form form' safe safe' called called' fresh named named' free inside after tail =>
      obtain ⟨previous', w₂', made', stage', plain', grow⟩ :=
        copies_function copies suits hxy is form form' safe safe' called called' fresh named named' free inside after stage plain head
      obtain ⟨nodes', w₃', rest, mirror, sims, grow'⟩ := ih tail stage' plain'
      exact ⟨nodes', w₃', .define (Expr.isDefine_iff.2 ⟨_, form'⟩) made' rest, mirror, sims,
        fun f env' h => grow' f env' (grow f env' h)⟩
  | expr is head _ ih =>
    have other : ∀ {s : Expr} {args : List Expr}, s.isDefine = false → s.bare ≠ .call "define" args := by
      intro s args hs hbare
      rw [Expr.isDefine_iff.2 ⟨args, hbare⟩] at hs
      cases hs
    cases renamed with
    | expr hhead htail =>
      obtain ⟨node', w₂', made', ext, mirror, sim⟩ := copies hhead stage head
      obtain ⟨nodes', w₃', rest, mirror', sims, grow⟩ := ih htail (stage.grow ext mirror) (plain_of_extends stage plain ext)
      exact ⟨node' :: nodes', w₃', .expr (hhead.isDefine hy).2 made' rest, mirror', .cons (sim.mono grow) sims,
        fun f env' h => grow f env' (h.grow ext)⟩
    | value form _ _ _ _ _ _ _ _ _ => exact absurd form (other is)
    | function form _ _ _ _ _ _ _ _ _ _ _ _ => exact absurd form (other is)

omit copies in
/-- **What the registry is asked about a renamed expression.** -/
theorem asks_renamed (suits : care.Suits x y) (hxy : x ≠ y) (hy : isSpecial y = false) {b b' c : Expr}
    (renamed : ExprRenamed care x y on b b') (stage : Stage base x y on env w w') (asks : Asks .standard w env b c) :
    ∃ c', Asks .standard w' env b' c' ∧ SettledAlike (ExprRenamed care x y on) c c' := by
  cases asks with
  | @name z unbound plain =>
    obtain ⟨o, rfl, ho⟩ := ExprRenamed.operand renamed
    obtain ⟨z', rfl, hz⟩ := ho.ident
    obtain ⟨rfl, unbound'⟩ := stage.lookup_none hz unbound
    exact ⟨_, .name unbound' plain, settledAlike_name plain⟩
  | @call f args plain unbound =>
    obtain ⟨o, rfl, ho⟩ := ExprRenamed.operand renamed
    obtain ⟨f', args', rfl, -, hf, inside, safe⟩ := ho.plainCall hxy hy plain
    obtain ⟨rfl, unbound'⟩ := stage.lookup_none hf unbound
    exact ⟨_, .call plain unbound', suits.call inside.forall₂ (safe rfl).1 (safe rfl).2⟩
  | unary op o =>
    obtain ⟨o', rfl, ho⟩ := ExprRenamed.operand renamed
    cases ho with
    | unary op inside => exact ⟨_, .unary op _, settledAlike_unary op inside⟩
  | chain long found =>
    have alike := suits.chain long renamed
    refine ⟨b', .chain ((exprRenamed_iff.1 renamed).isChain.trans long) ?_, alike⟩
    unfold SettledAlike at alike
    generalize Registry.standard.find? b = r at alike found
    generalize Registry.standard.find? b' = r' at alike ⊢
    cases alike with
    | some _ => rfl
    | none => cases found
  | regrouped long missed split =>
    have alike := suits.chain long renamed
    unfold SettledAlike at alike
    rw [missed] at alike
    generalize hf' : Registry.standard.find? b' = found' at alike
    cases alike
    obtain ⟨c', split', long', renamed'⟩ := renamed.regroup suits.group split
    exact ⟨c', .regrouped ((exprRenamed_iff.1 renamed).isChain.trans long) hf' split', suits.chain long' renamed'⟩

/-- **One step of the compiler** on an expression can be taken on the renamed one. -/
theorem copies_step (suits : care.Suits x y) (hxy : x ≠ y) (hy : isSpecial y = false) {e e' : Expr} {node : Node}
    (renamed : ExprRenamed care x y on e e') (stage : Stage base x y on env w w')
    (h : Step .standard make w env e node w₁) :
    ∃ node' w₁', Step .standard make w' env e' node' w₁' ∧ w₁.Mirror base x y w₁' ∧ node.Sim (Usable base x y w₁') node' := by
  have hbare := renamed.bare
  have single : ∀ {o : Operand}, e.bare = .ofOperand o → ∃ o', e'.bare = .ofOperand o' ∧ OperandRenamed care x y on o o' := by
    intro o ho
    rw [ho] at hbare
    exact hbare.operand
  cases h with
  | literal form =>
    obtain ⟨o', form', ho⟩ := single form
    cases ho
    exact ⟨_, w', .literal form', stage.mirror, .refl trivial rfl⟩
  | variableName form bound =>
    obtain ⟨o', form', ho⟩ := single form
    obtain ⟨z', rfl, hz⟩ := ho.ident
    obtain ⟨node', bound', sim⟩ := stage.lookup_value hz bound
    exact ⟨node', w', .variableName form' bound', stage.mirror, sim⟩
  | parameterName form bound =>
    obtain ⟨o', form', ho⟩ := single form
    obtain ⟨z', rfl, hz⟩ := ho.ident
    exact ⟨_, w', .parameterName form' (stage.lookup_param hz bound), stage.mirror, .param _ _ _ _⟩
  | functionName form bound =>
    obtain ⟨o', form', ho⟩ := single form
    obtain ⟨z', rfl, hz⟩ := ho.ident
    obtain ⟨rfl, usable, d', bound'⟩ := stage.lookup_function hz bound
    exact ⟨_, w', .functionName form' bound', stage.mirror, .refl usable rfl⟩
  | pattern asks built =>
    obtain ⟨c', asks', alike⟩ := asks_renamed suits hxy hy hbare stage asks
    obtain ⟨node', w₁', built', mirror, sim⟩ := copies_builds copies alike stage built
    exact ⟨node', w₁', .pattern asks' built', mirror, sim⟩
  | lambda form last named entered made declared =>
    obtain ⟨o', form', ho⟩ := single form
    obtain ⟨chosen, names, names', params, body, body', rfl, rfl, hnamed, hnamed', fresh, inside⟩ := ho.lambdaCall
    rw [(lambda_args names body).1] at last
    rw [(lambda_args names body).2, hnamed] at named
    have hparams := Option.some.inj named
    subst hparams
    cases last
    cases entered
    cases declared
    have stage₁ := stage.addScope hxy (env.depth + 1) chosen fresh
    have hs := w'.scope_addScope_self (Workspace.paramScope (env.depth + 1) (renamedParams x y chosen params))
    rw [← stage.mirror.scopes] at made
    obtain ⟨node', w₂', made', ext, mirror, sim⟩ := copies inside.bare
      (stage₁.inner (s := ⟨w'.scopes.size, env.depth + 1⟩) stage.started (by simp [Workspace.addScope]) hs fresh) made
    let d' := w₂'.declare "lambda" (renamedParams x y chosen params) (env.depth + 1)
    have mirror' := mirror.declare "lambda" params (renamedParams x y chosen params) (env.depth + 1)
    have sim' := sim.mono (Usable.congr (show d'.2.scopes = w₂'.scopes from rfl))
    have hanon := mirror.anon_declare "lambda" chosen params (env.depth + 1)
    refine ⟨.lambda d'.1 (some node'), d'.2.setBody d'.1 node', ?_, mirror'.setBody mirror.bodies sim', ?_,
      .mk trivial (fun _ hx => by cases hx)⟩
    · exact .lambda form' (lambda_args names' body').1 (by rw [(lambda_args names' body').2, hnamed']) rfl made' rfl
    · exact congrArg (fun d => Node.lambda d none) hanon
  | block form entered made =>
    obtain ⟨o', form', ho⟩ := single form
    obtain ⟨ss', rfl, inside⟩ := ho.blockCall
    cases entered
    have stage₁ := stage.addScope hxy env.depth false (List.not_mem_nil (a := y))
    have hs := w'.scope_addScope_self (Workspace.paramScope env.depth (renamedParams x y false []))
    have stage₂ := stage₁.inner (s := ⟨w'.scopes.size, env.depth⟩) stage.started (by simp [Workspace.addScope]) hs
      (List.not_mem_nil (a := y))
    rw [← stage.mirror.scopes] at made
    rw [if_neg List.not_mem_nil] at stage₂
    obtain ⟨nodes', w₂', made', mirror, sims, -⟩ := copies_statements copies suits hxy hy made inside.bare stage₂ (by
      intro _
      show (Workspace.scope _ w'.scopes.size).get? y = none
      rw [hs]
      rfl)
    exact ⟨_, w₂', .block form' rfl made', mirror, .sequence _ _ sims⟩
  | callFunction form plain bound made =>
    obtain ⟨o', form', ho⟩ := single form
    obtain ⟨f', args', rfl, plain', hf, inside, -⟩ := ho.plainCall hxy hy plain
    obtain ⟨rfl, usable, d', bound'⟩ := stage.lookup_function hf bound
    obtain ⟨nodes', w₁', made', ext, mirror, sims⟩ := copies_all copies made inside.forall₂ stage
    exact ⟨_, w₁', .callFunction form' plain' bound' made', mirror, .invoke (usable.grow ext) _ _ sims⟩
  | callVariable form plain bound made =>
    obtain ⟨o', form', ho⟩ := single form
    obtain ⟨f', args', rfl, plain', hf, inside, -⟩ := ho.plainCall hxy hy plain
    obtain ⟨callee', bound', sim⟩ := stage.lookup_value hf bound
    obtain ⟨nodes', w₁', made', ext, mirror, sims⟩ := copies_all copies made inside.forall₂ stage
    exact ⟨_, w₁', .callVariable form' plain' bound' made', mirror, .apply (sim.mono (fun _ _ => Usable.grow ext)) _ _ sims⟩
  | callParameter form plain bound made =>
    obtain ⟨o', form', ho⟩ := single form
    obtain ⟨f', args', rfl, plain', hf, inside, -⟩ := ho.plainCall hxy hy plain
    obtain ⟨nodes', w₁', made', ext, mirror, sims⟩ := copies_all copies made inside.forall₂ stage
    exact ⟨_, w₁', .callParameter form' plain' (stage.lookup_param hf bound) made', mirror, .apply (.param _ _ _ _) _ _ sims⟩

end

section

variable {care : Care} {base : Nat} {x y : String} (suits : care.Suits x y) (hxy : x ≠ y) (hy : isSpecial y = false)

include suits hxy hy

/-- **A renamed expression compiles like the expression**, in as many nested steps. -/
theorem copies_compile : ∀ n : Nat, Copies care base x y (.of (compile .standard n))
  | 0 => fun _ _ h => by cases h
  | n + 1 => fun renamed stage h => by
    obtain ⟨node', w₁', step, mirror, sim⟩ :=
      copies_step (copies_compile n) suits hxy hy renamed stage ((compile_gives_iff .standard n _ _ _ _ _).1 h)
    have gives := (compile_gives_iff .standard n _ _ _ _ _).2 step
    exact ⟨node', w₁', gives, compile_extends gives, mirror, sim⟩

/-- **A renamed unit compiles like the unit** to the same main function, with a body that is the same but for names. -/
theorem compileUnit_renamed {n : Nat} {ss ss' : List Expr} {env : Env} {w w₁ w' : Workspace} {main : Closure}
    (renamed : StatementsRenamed care x y false ss ss') (stage : Stage base x y false env w w')
    (plain : env.Plain base y w') (h : (compileUnit .standard n ss env).Gives w main w₁) :
    ∃ w₁', (compileUnit .standard n ss' env).Gives w' main w₁' ∧ w₁.Mirror base x y w₁' := by
  unfold compileUnit at h ⊢
  simp only [gives_bind, gives_update, gives_pure] at h ⊢
  obtain ⟨nodes, w₂, hnodes, d, w₃, declared, _, _, ⟨-, rfl⟩, rfl, rfl⟩ := h
  obtain ⟨ends, made⟩ := makesStatements_of_unitNodes hnodes false
  obtain ⟨nodes', w₂', made', mirror, sims, -⟩ :=
    copies_statements (copies_compile suits hxy hy n) suits hxy hy made renamed stage plain
  cases declared
  let d' := w₂'.declare "main" [] (env.depth + 1)
  have hd : d'.1 = (w₂.declare "main" [] (env.depth + 1)).1 := by
    show (⟨w₂'.bodies.size, _, _, _⟩ : Definition) = ⟨w₂.bodies.size, _, _, _⟩
    rw [mirror.bodies]
  have sim := (Node.Sim.sequence "main" "main" sims).mono (Usable.congr (show d'.2.scopes = w₂'.scopes from rfl))
  refine ⟨d'.2.setBody d'.1 (.sequence "main" nodes'), ⟨nodes', w₂', unitNodes_of_makesStatements made' [], d'.1, d'.2, rfl, (), _,
    rfl, ?_, rfl⟩, (mirror.declare "main" [] [] (env.depth + 1)).setBody mirror.bodies sim⟩
  rw [hd]
  rfl

end

end ChainCalc
