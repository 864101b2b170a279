import ChainCalc.Proofs.Redefinition.LateNames
/-!
# Sequels — redefinition is seen only through late names

Whatever is done later with the engines of a workspace, scopes and functions that were there stay, but for the names that
are bound anew.  So a function gives the same result as before, or the same error with the same trace, unless one of its
late names is bound (`redefinition_is_seen_through_late_names`).

Among the functions that a call can come to are those that are stored under a key, if it fetches at all: the call does not
mention them, and yet a name that one of them looks up can change its result (`stored_function_sees_redefinition`).
-/
namespace ChainCalc

/-! ### What is referred to is there -/

theorem Value.Sound.home {G : World} {w : Workspace} {v : Value} {d : Definition} (sound : v.Sound G w) (holds : v.Holds d) :
    ∃ env, G.home d env := by
  induction holds with
  | self captured applied =>
    cases sound with
    | plain h => cases h
    | function home _ _ _ _ _ => exact ⟨_, home⟩
  | captured mem arg _ ih =>
    cases sound with
    | plain h => cases h
    | function _ _ _ _ inside _ => exact ih (inside _ mem _ arg)
  | applied mem _ ih =>
    cases sound with
    | plain h => cases h
    | function _ _ _ _ _ given => exact ih (given _ mem)

theorem Node.Addressed.names {G : World} {w : Workspace} {Q : Env → Node → Prop} {L : Layout} {node : Node} {name : String}
    {env : Env} (h : node.Addressed G w Q L) (late : node.late? = some (name, env)) : G.Names w L name env := by
  obtain ⟨-, refers, -⟩ := h
  cases node with
  | functionRef name' env' =>
    cases late
    exact refers
  | invoke name' site env' args =>
    cases late
    exact refers
  | _ => cases late

theorem World.Ok.closed {G : World} {w : Workspace} {Q : Env → Node → Prop} (ok : G.Ok Q (fun _ => False) w) :
    w.Closed (fun node => ∃ L, node.Addressed G w Q L) (fun d => ∃ env, G.home d env) where
  body := by
    rintro d node ⟨env, home⟩ known
    obtain ⟨body, known', addressed⟩ := ok.bodies d env home id
    obtain rfl := Option.some.inj (known.symm.trans known')
    exact ⟨_, addressed⟩
  child := by
    rintro node x ⟨L, ⟨-, -, children⟩⟩ mem
    exact ⟨L, children x mem⟩
  mention := by
    rintro node x name env ⟨L, addressed⟩ late bound
    obtain ⟨env₀, -, -, sound⟩ := ok.lookup (addressed.names late).1 bound
    exact ⟨_, sound⟩
  constant := by
    rintro v d ⟨L, ⟨-, sound, -⟩⟩ holds
    exact Value.Sound.home sound holds
  lambda := by
    rintro d body ⟨L, ⟨-, ⟨env, home, -, -⟩, -⟩⟩
    exact ⟨env, home⟩
  function := by
    rintro node name env d ⟨L, addressed⟩ late bound
    obtain ⟨env₀, -, -, home⟩ := ok.lookup (addressed.names late).1 bound
    exact ⟨env₀, home⟩
  stored := fun _ store found holds => (ok.store _ store _ _ found).home holds

/-! ### What is left as it was -/

namespace Workspace

/-- **Scopes and bodies are still there**, and every scope binds the names that matter to what it did before. -/
structure Keeps (names : String → Prop) (w w' : Workspace) : Prop where
  scopes : w.scopes.size ≤ w'.scopes.size
  scope : ∀ i < w.scopes.size, ∀ name, names name → (w'.scope i).get? name = (w.scope i).get? name
  bodies : w.bodies.size ≤ w'.bodies.size
  body : ∀ i < w.bodies.size, w'.bodies[i]? = w.bodies[i]?
  store : w'.store = w.store

variable {names : String → Prop} {w w' w₁ w₂ : Workspace}

theorem Extends.keeps (h : w.Extends w') : w.Keeps names w' :=
  ⟨h.scopes, fun i hi name _ => by rw [h.scope i hi], h.bodies, h.body, h.store⟩

theorem Keeps.trans (h : w.Keeps names w₁) (h' : w₁.Keeps names w₂) : w.Keeps names w₂ where
  scopes := Nat.le_trans h.scopes h'.scopes
  scope i hi name hn := (h'.scope i (Nat.lt_of_lt_of_le hi h.scopes) name hn).trans (h.scope i hi name hn)
  bodies := Nat.le_trans h.bodies h'.bodies
  body i hi := (h'.body i (Nat.lt_of_lt_of_le hi h.bodies)).trans (h.body i hi)
  store := h'.store.trans h.store

theorem keeps_insertAll {id : Nat} (here : id < w.scopes.size) (bs : List (String × Binding))
    (others : ∀ name ∈ bs.map Prod.fst, ¬ names name) : w.Keeps names (w.updateScope id (fun s => s.insertAll bs)) where
  scopes := by simp
  scope i hi name hn := by
    by_cases hid : i = id
    · subst hid
      rw [scope_updateScope_self w here]
      exact Table.get?_insertAll_of_notMem (fun mem => others name mem hn)
    · rw [scope_updateScope_ne w hid]
  bodies := Nat.le_refl _
  body _ _ := rfl
  store := rfl

theorem Keeps.lookupPath (h : w.Keeps names w') {name : String} (hn : names name) : ∀ {path : List ScopeRef},
    (∀ s ∈ path, s.id < w.scopes.size) → w'.lookupPath name path = w.lookupPath name path
  | [], _ => rfl
  | s :: rest, placed => by
    rw [Workspace.lookupPath, Workspace.lookupPath, h.scope s.id (placed s List.mem_cons_self) name hn,
      h.lookupPath hn (fun t ht => placed t (List.mem_cons_of_mem _ ht))]

end Workspace

/-! ### What is done later -/

/-- **Everything done with engines after a point**, without a change of the store and without binding certain names: what
there is afterwards.  A source that is refused binds none, whatever it defines. -/
inductive Later (kept : String → Prop) (w₀ : Workspace) (es₀ : List Engine) (vs₀ : List Value) :
    Workspace → List Engine → List Value → Prop
  | now : Later kept w₀ es₀ vs₀ w₀ es₀ vs₀
  | engine {w : Workspace} {es : List Engine} {vs : List Value} (past : Later kept w₀ es₀ vs₀ w es vs) (settings : Settings) :
      Later kept w₀ es₀ vs₀ (Engine.new .standard settings w).2 ((Engine.new .standard settings w).1 :: es) vs
  | session {w : Workspace} {es : List Engine} {vs : List Value} (past : Later kept w₀ es₀ vs₀ w es vs) {e : Engine}
      (mem : e ∈ es) : Later kept w₀ es₀ vs₀ (e.session w).2 ((e.session w).1 :: es) vs
  | define {w : Workspace} {es : List Engine} {vs : List Value} (past : Later kept w₀ es₀ vs₀ w es vs) {e : Engine}
      (mem : e ∈ es) {name : String} (free : ¬ kept name) {v : Value} (given : Given vs v) :
      Later kept w₀ es₀ vs₀ (e.defineValue name v w) es vs
  | refused {w w' : Workspace} {es : List Engine} {vs : List Value} (past : Later kept w₀ es₀ vs₀ w es vs) {e : Engine}
      (mem : e ∈ es) {n : Nat} {source : String} {failure : Failure}
      (outcome : (e.compile n source).run w = some (.error failure, w')) : Later kept w₀ es₀ vs₀ w' es vs
  | compile {w w' : Workspace} {es : List Engine} {vs : List Value} (past : Later kept w₀ es₀ vs₀ w es vs) {e : Engine}
      (mem : e ∈ es) {n : Nat} {source : String} {statements : List Expr} {main : Closure}
      (read : Program.parse source = .ok statements) (free : ∀ name ∈ definedNames statements, ¬ kept name)
      (outcome : (e.compile n source).run w = some (.ok main, w')) :
      Later kept w₀ es₀ vs₀ w' es (.function main :: vs)
  | failed {w w' : Workspace} {es : List Engine} {vs : List Value} (past : Later kept w₀ es₀ vs₀ w es vs) {e : Engine}
      (mem : e ∈ es) {n : Nat} {f : Closure} {args : List Value} {site : String} {failure : Failure}
      (outcome : (e.callAt n f args site).run w = some (.error failure, w')) : Later kept w₀ es₀ vs₀ w' es vs
  | call {w w' : Workspace} {es : List Engine} {vs : List Value} (past : Later kept w₀ es₀ vs₀ w es vs) {e : Engine}
      (mem : e ∈ es) {n : Nat} {f : Closure} {args : List Value} {site : String} {v : Value} (known : .function f ∈ vs)
      (given : ∀ a ∈ args, Given vs a) (outcome : (e.callAt n f args site).run w = some (.ok v, w')) :
      Later kept w₀ es₀ vs₀ w' es (v :: vs)

section

variable {kept : String → Prop} {w₀ w : Workspace} {es₀ es : List Engine} {vs₀ vs : List Value} {log₀ : List Event}

/-- What is done later makes a longer history. -/
theorem Later.history (past : History w₀ es₀ vs₀ log₀) (later : Later kept w₀ es₀ vs₀ w es vs) :
    ∃ log, History w es vs log := by
  induction later with
  | now => exact ⟨_, past⟩
  | engine _ settings ih => exact ih.imp' _ (fun _ h => h.engine settings)
  | session _ mem ih => exact ih.imp' _ (fun _ h => h.session mem)
  | define _ mem _ given ih => exact ih.imp' _ (fun _ h => h.define mem _ given)
  | refused _ mem outcome ih => exact ih.imp' _ (fun _ h => h.refused mem outcome)
  | compile _ mem read _ outcome ih => exact ih.imp' _ (fun _ h => h.compile mem read outcome)
  | failed _ mem outcome ih => exact ih.imp' _ (fun _ h => h.failed mem outcome)
  | call _ mem known given outcome ih => exact ih.imp' _ (fun _ h => h.call mem known given outcome)

theorem History.placed {log : List Event} (past : History w es vs log) {e : Engine} (mem : e ∈ es) :
    e.globals.here.id < w.scopes.size := by
  obtain ⟨G, serves⟩ := past.serves past.traced_true
  exact serves.ok.placed _ (serves.engines e mem).2.1 _ List.mem_cons_self

/-- **What is done later leaves the kept names as they were**, in every scope that was there. -/
theorem Later.keeps (past : History w₀ es₀ vs₀ log₀) (later : Later kept w₀ es₀ vs₀ w es vs) : w₀.Keeps kept w := by
  induction later with
  | now => exact (Workspace.Extends.refl w₀).keeps
  | engine _ _ ih => exact ih.trans (Workspace.extends_addScope _ _).keeps
  | session _ _ ih => exact ih.trans (Workspace.extends_addScope _ _).keeps
  | @define w es vs before e mem name free v given ih =>
    obtain ⟨log, past'⟩ := before.history past
    have bound := w.extends_define e.globals name (.value (.constant v))
    refine ih.trans (Workspace.Keeps.trans ?_ bound.keeps)
    exact Workspace.keeps_insertAll (past'.placed mem) [(name, .value (.constant v))] (by simpa using free)
  | refused before mem outcome ih =>
    obtain ⟨log, past'⟩ := before.history past
    exact ih.trans (Engine.extends_of_refused (past'.placed mem) outcome).keeps
  | compile before mem read free outcome ih =>
    obtain ⟨log, past'⟩ := before.history past
    obtain ⟨bs, names, extends'⟩ := compileUnit_gives (past'.placed mem) (Engine.gives_of_compile read outcome)
    exact ih.trans ((Workspace.keeps_insertAll (past'.placed mem) bs (names ▸ free)).trans extends'.keeps)
  | failed _ _ outcome ih =>
    obtain ⟨rfl, -⟩ := Engine.run_of_callAt outcome
    exact ih
  | call _ _ _ _ outcome ih =>
    obtain ⟨rfl, -⟩ := Engine.run_of_callAt outcome
    exact ih

end

/-! ### Names that are not late -/

mutual

/-- Whether some node of a tree has a property; the bodies of functions are no part of it. -/
def Node.any (p : Node → Bool) : Node → Bool
  | .kernel name label operands compute => p (.kernel name label operands compute) || Node.anyOf p operands
  | .conditional label condition yes no =>
    p (.conditional label condition yes no) || (condition.any p || (yes.any p || no.any p))
  | .sequence label items => p (.sequence label items) || Node.anyOf p items
  | .invoke name site env args => p (.invoke name site env args) || Node.anyOf p args
  | .apply site callee args => p (.apply site callee args) || (callee.any p || Node.anyOf p args)
  | .fetch label key => p (.fetch label key) || key.any p
  | leaf => p leaf

def Node.anyOf (p : Node → Bool) : List Node → Bool
  | [] => false
  | x :: xs => x.any p || Node.anyOf p xs

end

theorem Node.anyOf_eq (p : Node → Bool) : ∀ xs, Node.anyOf p xs = xs.any (Node.any p)
  | [] => rfl
  | x :: xs => by rw [Node.anyOf, List.any_cons, Node.anyOf_eq p xs]

theorem Node.any_eq_false {p : Node → Bool} {node : Node} :
    node.any p = false ↔ p node = false ∧ ∀ x ∈ node.children, x.any p = false := by
  cases node <;> simp [Node.any, Node.children, Node.anyOf_eq]

def Node.looksUp (name : String) (node : Node) : Bool := node.late?.any (·.1 == name)

/-- Whether a node can make or find a function, other than through the nodes in it and the store. -/
def Node.leads : Node → Bool
  | .constant v => v.asFunction?.isSome
  | .lambda _ _ => true
  | node => node.late?.isSome

def Workspace.mentions (w : Workspace) (name : String) : Bool :=
  w.bodies.toList.any (fun body => body.any (Node.any (Node.looksUp name))) ||
    w.scopes.toList.any (fun scope => scope.values.any (fun
      | .value node => node.any (Node.looksUp name)
      | _ => false))

namespace Workspace

variable {w : Workspace} {roots : List Value} {name : String}

theorem mem_scope_of_lookup {env : Env} {b : Binding} (h : w.lookup env name = some b) :
    ∃ scope ∈ w.scopes.toList, b ∈ scope.values := by
  obtain ⟨s, outer, -, h⟩ := World.lookupPath_eq_some h
  unfold scope at h
  cases hs : w.scopes[s.id]? with
  | none =>
    rw [hs] at h
    cases h
  | some scope =>
    rw [hs] at h
    exact ⟨scope, Array.mem_toList_iff.2 (Array.mem_of_getElem? hs), List.mem_map_of_mem (f := Prod.snd) (Table.mem_of_get? h)⟩

/-- **A name that nothing looks up is not late.** -/
theorem not_lateName_of_mentions (h : w.mentions name = false) : ¬ w.LateName roots name := by
  obtain ⟨bodies, bindings⟩ := Bool.or_eq_false_iff.1 h
  have closed : w.Closed (fun node => node.any (Node.looksUp name) = false) (fun _ => True) := by
    refine ⟨fun {d node} _ known => ?_, fun quiet mem => (Node.any_eq_false.1 quiet).2 _ mem, fun {_ x _ _} _ _ bound => ?_,
      fun _ _ => trivial, fun _ => trivial, fun _ _ _ => trivial, fun _ _ _ _ => trivial⟩
    · have mem : some node ∈ w.bodies.toList := Array.mem_toList_iff.2 (Array.mem_of_getElem? (Option.join_eq_some_iff.1 known))
      exact Bool.eq_false_iff.2 (List.any_eq_false.1 bodies _ mem)
    · obtain ⟨scope, mem, value⟩ := mem_scope_of_lookup bound
      exact Bool.eq_false_iff.2 (List.any_eq_false.1 (Bool.eq_false_iff.2 (List.any_eq_false.1 bindings scope mem)) _ value)
  rintro ⟨node, env, met, late⟩
  have quiet := (Node.any_eq_false.1 (closed.node (fun _ _ _ _ => trivial) met)).1
  have looks : node.looksUp name = true := by
    unfold Node.looksUp
    rw [late]
    exact beq_self_eq_true name
  exact Bool.false_ne_true (quiet.symm.trans looks)

/-- **A function whose tree leads to no other has no late names**, where nothing is stored. -/
theorem not_lateName_of_leads {f : Closure} {body : Node} (known : w.body? f.definition = some body)
    (h : body.any Node.leads = false) (captured : f.captured = []) (applied : f.applied = []) (store : w.store = none) :
    ¬ w.LateName [.function f] name := by
  obtain ⟨d, _, _⟩ := f
  obtain rfl := captured
  obtain rfl := applied
  have quiet : ∀ {node : Node} {name env}, node.any Node.leads = false → node.late? ≠ some (name, env) := by
    intro node name env quiet late
    have leads := (Node.any_eq_false.1 quiet).1
    cases node <;> cases late <;> cases leads
  have closed : w.Closed (fun node => node.any Node.leads = false) (· = d) := by
    refine ⟨?_, fun quiet mem => (Node.any_eq_false.1 quiet).2 _ mem, fun h late => absurd late (quiet h), ?_, ?_,
      fun h late => absurd late (quiet h), ?_⟩
    · rintro _ node rfl known'
      exact Option.some.inj (known.symm.trans known') ▸ h
    · intro v e quiet holds
      have plain : v.asFunction? = none := Option.not_isSome_iff_eq_none.1 (Bool.eq_false_iff.1 (Node.any_eq_false.1 quiet).1)
      cases holds <;> cases plain
    · intro e body quiet
      exact absurd (Node.any_eq_false.1 quiet).1 Bool.true_eq_false.mp
    · intro label x s key v e _ stored
      rw [store] at stored
      cases stored
  rintro ⟨node, env, met, late⟩
  refine quiet (closed.node (fun v mem e holds => ?_) met) late
  obtain rfl := List.mem_singleton.1 mem
  cases holds with
  | self => rfl
  | captured mem => cases mem
  | applied mem => cases mem

end Workspace

/-! ### Late names and redefinition -/

/-- **Redefinition is seen only through late names.**  A function of a history, called later by an engine of that time,
gives the same value as before or fails with the same error, in whatever number of steps, if none of its late names has been
bound in between. -/
theorem redefinition_is_seen_through_late_names {w w' : Workspace} {es es' : List Engine} {vs vs' : List Value}
    {log : List Event} (past : History w es vs log) (e : Engine) {f : Closure} {args : List Value}
    (known : .function f ∈ vs) (given : ∀ a ∈ args, Given vs a)
    (later : Later (w.LateName (.function f :: args)) w es vs w' es' vs') (n : Nat) (site : String) :
    ((e.callAt n f args site).run w').map Prod.fst = ((e.callAt n f args site).run w).map Prod.fst := by
  obtain ⟨G, serves⟩ := past.serves past.traced_true
  have keeps := later.keeps past
  have sound : ∀ v ∈ Value.function f :: args, v.Sound G w :=
    List.forall_mem_cons.2 ⟨serves.values _ known, fun a ha => serves.given (given a ha)⟩
  have start : ∀ v ∈ Value.function f :: args, ∀ d, v.Holds d → ∃ env, G.home d env := fun v hv d => (sound v hv).home
  have addressed : ∀ {node}, w.MeetsNode (.function f :: args) node → ∃ L, node.Addressed G w (fun _ _ => True) L :=
    serves.ok.closed.node start
  have plain : ∀ name label xs compute, w.MeetsNode (.function f :: args) (.kernel name label xs compute) → compute.Plain := by
    intro name label xs compute met
    obtain ⟨L, ⟨-, plain, -⟩⟩ := addressed met
    exact plain
  have names : ∀ node name env, w.MeetsNode (.function f :: args) node → node.late? = some (name, env) →
      w'.lookup env name = w.lookup env name := by
    intro node name env met late
    obtain ⟨L, addressed⟩ := addressed met
    exact keeps.lookupPath ⟨node, env, met, late⟩ (serves.ok.placed env (addressed.names late).1)
  have bodies : ∀ d, w.MeetsFunction (.function f :: args) d → w'.body? d = w.body? d := by
    intro d met
    obtain ⟨env, home⟩ := serves.ok.closed.definition start met
    unfold Workspace.body?
    rw [keeps.body d.id (serves.ok.homes d env home).2.2]
  have within : ∀ v ∈ Value.function f :: args, v.Within (w.MeetsFunction (.function f :: args)) :=
    fun v mem d holds => .root mem holds
  have same : call w' n f args (e.context w) site = call w n f args (e.context w) site :=
    ((((Workspace.closed_meets w (.function f :: args)).lawful plain names bodies).inStep n).call
      ⟨within _ List.mem_cons_self, rfl⟩ (List.forall₂_same.2 (fun v hv => ⟨within v (List.mem_cons_of_mem _ hv), rfl⟩))
      ⟨rfl, rfl⟩ rfl).eq (fun _ _ h => h.2.symm)
  have context : e.context w' = e.context w := by
    unfold Engine.context
    rw [keeps.store]
  rw [Engine.run_callAt, Engine.run_callAt, context, same]
  split
  · rfl
  · rfl
  · rfl

/-- A variable defined anew, and a function of another name: the first main function still adds six and five. -/
theorem redefined_variable_is_not_seen :
    let e := (Engine.new .standard {} {}).1
    ∃ main w main' w',
      (e.compile 20 "define(g(x), x * 2); define(v, 5); g(3) + v").run (Engine.new .standard {} {}).2 = some (.ok main, w) ∧
      (e.compile 20 "define(v, 7); define(h(x), g(x)); h(1) + v").run w = some (.ok main', w') ∧
      Later (w.LateName [.function main]) w [e] [.function main] w' [e] [.function main', .function main] ∧
      ((e.callAt 20 main [] "main").run w').map Prod.fst = ((e.callAt 20 main [] "main").run w).map Prod.fst := by
  intro e
  have script : ((e.compiled? "define(g(x), x * 2); define(v, 5); g(3) + v" (Engine.new .standard {} {}).2).any (fun (_, w) =>
      (e.compiled? "define(v, 7); define(h(x), g(x)); h(1) + v" w).isSome && !w.mentions "v" && !w.mentions "h")) = true := by
    decide +kernel
  simp only [Option.any_eq_true, Prod.exists, Bool.and_eq_true, Bool.not_eq_true', Option.isSome_iff_exists] at script
  obtain ⟨main, w, first, ⟨⟨main', w', second⟩, noV⟩, noH⟩ := script
  obtain ⟨statements, read⟩ := Engine.parse_of_compile (Engine.compile_of_compiled? first)
  obtain ⟨statements', read'⟩ := Engine.parse_of_compile (Engine.compile_of_compiled? second)
  have past := (History.engine .start {}).compile List.mem_cons_self read (Engine.compile_of_compiled? first)
  have names : (Program.parse "define(v, 7); define(h(x), g(x)); h(1) + v").map definedNames = .ok ["v", "h"] := by
    decide +kernel
  rw [read'] at names
  have free : ∀ name ∈ definedNames statements', ¬ w.LateName [.function main] name := by
    rw [Except.ok.inj names]
    simp [Workspace.not_lateName_of_mentions noV, Workspace.not_lateName_of_mentions noH]
  have later : Later (w.LateName [.function main]) w [e] [.function main] w' [e] [.function main', .function main] :=
    Later.now.compile List.mem_cons_self read' free (Engine.compile_of_compiled? second)
  exact ⟨main, w, main', w', Engine.compile_of_compiled? first, Engine.compile_of_compiled? second, later,
    redefinition_is_seen_through_late_names past e List.mem_cons_self (fun _ h => by cases h) later 20 "main"⟩

/-- **A stored function brings late names that no tree mentions.**  The function that is stored looks up `g`; the last main
function fetches it and calls it, and looks up no name in its own tree; yet its result changes as `g` is defined anew. -/
theorem stored_function_sees_redefinition :
    let e := (Engine.new .standard {} {}).1
    ∃ w vs log main w' vs', History w [e] vs log ∧ .function main ∈ vs ∧
      (∀ name, ¬ ({ w with store := none } : Workspace).LateName [.function main] name) ∧
      Later (({ w with store := none } : Workspace).LateName [.function main]) w [e] vs w' [e] vs' ∧
      (e.called? main w).map Value.text = some "1" ∧ (e.called? main w').map Value.text = some "2" := by
  intro e
  have script : ((e.compiled? "define(g(x), 1)" (Engine.new .standard {} {}).2).any fun (_, w₁) =>
      (e.compiled? "define(f(x), g(x)); f" w₁).any fun (m, w₂) => (e.called? m w₂).any fun f =>
        (e.compiled? "define(h, fetch('k')); h(0)" { w₂ with store := some (.insert .empty "k" f) }).any fun (main, w) =>
          (w.body? main.definition).any (fun body => !body.any Node.leads) && main.captured.isEmpty && main.applied.isEmpty &&
          (e.called? main w).map Value.text == some "1" && (e.compiled? "define(g(x), 2)" w).any fun (_, w') =>
            (e.called? main w').map Value.text == some "2") = true := by
    decide +kernel
  simp only [Option.any_eq_true, Prod.exists, Bool.and_eq_true, Bool.not_eq_true', List.isEmpty_iff, beq_iff_eq] at script
  obtain ⟨m₁, w₁, first, m₂, w₂, second, f, made, main, w, third, ⟨⟨⟨⟨body, known, quiet⟩, captured⟩, applied⟩, before⟩,
    m₄, w', fourth, after⟩ := script
  have reads := fun {source w main w'} (h : e.compiled? source w = some (main, w')) =>
    Engine.parse_of_compile (Engine.compile_of_compiled? h)
  obtain ⟨s₁, read₁⟩ := reads first
  obtain ⟨s₂, read₂⟩ := reads second
  obtain ⟨s₃, read₃⟩ := reads third
  obtain ⟨s₄, read₄⟩ := reads fourth
  have past₁ := (History.engine .start {}).compile List.mem_cons_self read₁ (Engine.compile_of_compiled? first)
  have past₂ := past₁.compile List.mem_cons_self read₂ (Engine.compile_of_compiled? second)
  have past₃ := past₂.call List.mem_cons_self List.mem_cons_self (fun _ h => by cases h) (Engine.callAt_of_called? made)
  have past₄ := past₃.store (some (.insert .empty "k" f)) (by
    intro _ stored key v found
    cases stored
    obtain ⟨-, rfl⟩ := Prod.mk.inj (List.mem_singleton.1 (Table.mem_of_get? found))
    exact .inr List.mem_cons_self)
  have past := past₄.compile List.mem_cons_self read₃ (Engine.compile_of_compiled? third)
  have none : ∀ name, ¬ ({ w with store := none } : Workspace).LateName [.function main] name := fun name =>
    Workspace.not_lateName_of_leads (w := { w with store := none }) known quiet captured applied rfl
  exact ⟨w, _, _, main, w', _, past, List.mem_cons_self, none,
    Later.now.compile List.mem_cons_self read₄ (fun name _ => none name) (Engine.compile_of_compiled? fourth), before, after⟩

end ChainCalc
