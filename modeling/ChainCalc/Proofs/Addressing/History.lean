import ChainCalc.Engine
import ChainCalc.Proofs.Addressing.Compile
import ChainCalc.Proofs.Addressing.Evaluation
import ChainCalc.Proofs.Compile.Units
/-!
# Histories — lexical addressing never misses

A history is any sequence of things done with engines of the standard registry in one workspace: engines and sessions
made, values defined and stored, sources compiled, functions called.  Values that come in from outside are plain, or have
been handed out before.  After every history the invariant holds, so no call meets a fault of addressing, and every node is
evaluated in a frame that covers the environment it was compiled in (`lexical_addressing`).
-/
namespace ChainCalc

open CompileM

/-- A value from outside: it is no function, or it was handed out before. -/
def Given (values : List Value) (v : Value) : Prop := v.asFunction? = none ∨ v ∈ values

/-- What has made nodes: a unit that was compiled, or a value that was defined from outside. -/
inductive Event where
  | compiled (before : Workspace) (env : Env) (statements : List Expr) (main : Closure) (after : Workspace)
  | defined (env : Env) (value : Value)

/-- **Everything done with engines in one workspace**: the workspace, the engines, the values handed out, and what has made
nodes. -/
inductive History : Workspace → List Engine → List Value → List Event → Prop
  | start : History {} [] [] []
  | engine {w : Workspace} {es : List Engine} {vs : List Value} {log : List Event} (past : History w es vs log)
      (settings : Settings) : History (Engine.new .standard settings w).2 ((Engine.new .standard settings w).1 :: es) vs log
  | session {w : Workspace} {es : List Engine} {vs : List Value} {log : List Event} (past : History w es vs log) {e : Engine}
      (mem : e ∈ es) : History (e.session w).2 ((e.session w).1 :: es) vs log
  | define {w : Workspace} {es : List Engine} {vs : List Value} {log : List Event} (past : History w es vs log) {e : Engine}
      (mem : e ∈ es) (name : String) {v : Value} (given : Given vs v) :
      History (e.defineValue name v w) es vs (.defined e.globals v :: log)
  | store {w : Workspace} {es : List Engine} {vs : List Value} {log : List Event} (past : History w es vs log)
      (store : Option Store) (given : ∀ s, store = some s → ∀ key v, s.get? key = some v → Given vs v) :
      History { w with store } es vs log
  | refused {w w' : Workspace} {es : List Engine} {vs : List Value} {log : List Event} (past : History w es vs log) {e : Engine}
      (mem : e ∈ es) {n : Nat} {source : String} {failure : Failure}
      (outcome : (e.compile n source).run w = some (.error failure, w')) : History w' es vs log
  | compile {w w' : Workspace} {es : List Engine} {vs : List Value} {log : List Event} (past : History w es vs log) {e : Engine}
      (mem : e ∈ es) {n : Nat} {source : String} {statements : List Expr} {main : Closure}
      (read : Program.parse source = .ok statements) (outcome : (e.compile n source).run w = some (.ok main, w')) :
      History w' es (.function main :: vs) (.compiled w e.globals statements main w' :: log)
  | failed {w w' : Workspace} {es : List Engine} {vs : List Value} {log : List Event} (past : History w es vs log) {e : Engine}
      (mem : e ∈ es) {n : Nat} {f : Closure} {args : List Value} {site : String} {failure : Failure}
      (outcome : (e.callAt n f args site).run w = some (.error failure, w')) : History w' es vs log
  | call {w w' : Workspace} {es : List Engine} {vs : List Value} {log : List Event} (past : History w es vs log) {e : Engine}
      (mem : e ∈ es) {n : Nat} {f : Closure} {args : List Value} {site : String} {v : Value} (known : .function f ∈ vs)
      (given : ∀ a ∈ args, Given vs a) (outcome : (e.callAt n f args site).run w = some (.ok v, w')) :
      History w' es (v :: vs) log

def Event.Traced (Q : Env → Node → Prop) : Event → Prop
  | .compiled before env statements main after =>
    ∃ n nodes ends w₁, MakesStatements (ChainCalc.Traced .standard Q n) env before statements false nodes ends w₁ ∧
      Q env (.sequence "main" nodes) ∧ main = ⟨(w₁.declare "main" [] (env.depth + 1)).1, [], []⟩ ∧
      after = (w₁.declare "main" [] (env.depth + 1)).2.setBody main.definition (.sequence "main" nodes)
  | .defined env v => Q env (.constant v)

/-! ### What engines do -/

namespace Engine

variable {e : Engine} {n : Nat} {w w' : Workspace}

theorem run_compile {source : String} {statements : List Expr} (read : Program.parse source = .ok statements) :
    (e.compile n source).run w = match (compileUnit e.registry n statements e.globals).run w with
      | none => none
      | some (.error error, w) => some (.error (Failure.compile error), w)
      | some (.ok main, w) => some (.ok main, w) := by
  unfold Engine.compile
  rw [read]
  rfl

theorem extends_of_refused {source : String} {failure : Failure} (here : e.globals.here.id < w.scopes.size)
    (h : (e.compile n source).run w = some (.error failure, w')) : w.Extends w' := by
  cases read : Program.parse source with
  | error error =>
    unfold Engine.compile at h
    rw [read] at h
    cases h
    exact .refl w
  | ok statements =>
    rw [run_compile read] at h
    split at h
    · cases h
    · rename_i error w₁ hr
      cases h
      exact compileUnit_fails here ⟨error, hr⟩
    · cases h

theorem compile_ne_eval {source : String} (err : EvalError) : (e.compile n source).run w ≠ some (.error (.eval err), w') := by
  intro h
  cases read : Program.parse source with
  | error error =>
    unfold Engine.compile at h
    rw [read] at h
    cases h
  | ok statements =>
    rw [run_compile read] at h
    split at h
    · cases h
    · cases h
    · cases h

theorem gives_of_compile {source : String} {statements : List Expr} {main : Closure}
    (read : Program.parse source = .ok statements) (h : (e.compile n source).run w = some (.ok main, w')) :
    (compileUnit e.registry n statements e.globals).Gives w main w' := by
  rw [run_compile read] at h
  split at h
  · cases h
  · cases h
  · rename_i hr
    cases h
    exact hr

theorem parse_of_compile {source : String} {main : Closure} (h : (e.compile n source).run w = some (.ok main, w')) :
    ∃ statements, Program.parse source = .ok statements := by
  unfold Engine.compile at h
  split at h
  · cases h
  · exact ⟨_, ‹_›⟩

theorem run_callAt (f : Closure) (args : List Value) (site : String) :
    (e.callAt n f args site).run w = match (ChainCalc.call w n f args (e.context w) site).run with
      | none => none
      | some (.error error) => some (.error (Failure.eval error), w)
      | some (.ok v) => some (.ok v, w) := rfl

theorem run_of_callAt {f : Closure} {args : List Value} {site : String} {r : Except Failure Value}
    (h : (e.callAt n f args site).run w = some (r, w')) :
    w' = w ∧ ((∃ v, r = .ok v ∧ (ChainCalc.call w n f args (e.context w) site).run = some (.ok v)) ∨
      ∃ err, r = .error (.eval err) ∧ (ChainCalc.call w n f args (e.context w) site).run = some (.error err)) := by
  rw [run_callAt] at h
  split at h
  · cases h
  · rename_i err hr
    cases h
    exact ⟨rfl, .inr ⟨err, rfl, hr⟩⟩
  · rename_i v hr
    cases h
    exact ⟨rfl, .inl ⟨v, rfl, hr⟩⟩

theorem run_compile_bind (source : String) (use : Closure → EngineM Value) :
    (e.compile n source >>= use).run w = match (e.compile n source).run w with
      | none => none
      | some (.error failure, w₁) => some (.error failure, w₁)
      | some (.ok main, w₁) => (use main).run w₁ := by
  rw [ExceptT.run_bind]
  show StateT.bind (e.compile n source).run _ w = _
  unfold StateT.bind
  cases (e.compile n source).run w with
  | none => rfl
  | some p =>
    obtain ⟨r, w₁⟩ := p
    cases r <;> rfl

theorem run_run (source : String) :
    (e.run n source).run w = match (e.compile n source).run w with
      | none => none
      | some (.error failure, w₁) => some (.error failure, w₁)
      | some (.ok main, w₁) => (e.callAt n main [] main.definition.name).run w₁ := run_compile_bind source _

theorem call_of_run {source : String} {err : EvalError} (h : (e.run n source).run w = some (.error (.eval err), w')) :
    ∃ main w₁, (e.compile n source).run w = some (.ok main, w₁) ∧
      (e.callAt n main [] main.definition.name).run w₁ = some (.error (.eval err), w') := by
  rw [run_run] at h
  cases hc : (e.compile n source).run w with
  | none =>
    rw [hc] at h
    cases h
  | some p =>
    obtain ⟨r, w₁⟩ := p
    rw [hc] at h
    cases r with
    | ok main => exact ⟨main, w₁, rfl, h⟩
    | error failure =>
      cases h
      exact absurd hc (compile_ne_eval err)

/-! ### Runs on fixed sources -/

/-- The main function of a source that compiles in twenty steps, and what it leaves. -/
def compiled? (e : Engine) (source : String) (w : Workspace) : Option (Closure × Workspace) :=
  match (e.compile 20 source).run w with
  | some (.ok main, w') => some (main, w')
  | _ => none

theorem compile_of_compiled? {e : Engine} {source : String} {w w' : Workspace} {main : Closure}
    (h : e.compiled? source w = some (main, w')) : (e.compile 20 source).run w = some (.ok main, w') := by
  unfold compiled? at h
  split at h
  · cases h
    assumption
  · cases h

def called? (e : Engine) (f : Closure) (w : Workspace) : Option Value :=
  match (e.callAt 20 f [] "main").run w with
  | some (.ok v, _) => some v
  | _ => none

theorem callAt_of_called? {e : Engine} {f : Closure} {w : Workspace} {v : Value} (h : e.called? f w = some v) :
    (e.callAt 20 f [] "main").run w = some (.ok v, w) := by
  unfold called? at h
  split at h
  · rename_i hr
    cases h
    rw [hr, (run_of_callAt hr).1]
  · cases h

end Engine

theorem Value.eq_of_asFunction? {v : Value} {f : Closure} (h : v.asFunction? = some f) : v = .function f := by
  cases v with
  | function g =>
    cases h
    rfl
  | _ => cases h

theorem Event.traced_of_compileUnit {n : Nat} {w w' : Workspace} {env : Env} {statements : List Expr} {main : Closure}
    (h : (compileUnit .standard n statements env).Gives w main w') :
    (Event.compiled w env statements main w').Traced (fun _ _ => True) := by
  unfold compileUnit at h
  simp only [gives_bind, gives_update, gives_pure] at h
  obtain ⟨nodes, w₁, hn, d, w₂, declared, _, _, ⟨-, rfl⟩, rfl, rfl⟩ := h
  obtain ⟨ends, made⟩ := makesStatements_of_unitNodes hn false
  refine ⟨n, nodes, ends, w₁, made.mono (fun _ _ _ _ _ => traced_of_gives), trivial, ?_, ?_⟩
  · rw [declared]
  · rw [declared]

/-! ### The invariant of a history -/

structure World.Serves (Q : Env → Node → Prop) (G : World) (w : Workspace) (es : List Engine) (vs : List Value) : Prop where
  ok : G.Ok Q (fun _ => False) w
  engines : ∀ e ∈ es, e.registry = .standard ∧ G.live e.globals ∧ e.globals.depth = 0
  values : ∀ v ∈ vs, v.Sound G w

namespace World

variable {Q : Env → Node → Prop} {G G' : World} {w w' : Workspace} {es : List Engine} {vs : List Value}

theorem Serves.grow (h : G.Serves Q w es vs) (le : G.Le w G' w') (ok : G'.Ok Q (fun _ => False) w') : G'.Serves Q w' es vs :=
  ⟨ok, fun e he => ⟨(h.engines e he).1, le.live _ (h.engines e he).2.1, (h.engines e he).2.2⟩,
    fun v hv => le.value (h.values v hv)⟩

theorem Serves.addEngine (h : G.Serves Q w es vs) {e : Engine}
    (he : e.registry = .standard ∧ G.live e.globals ∧ e.globals.depth = 0) : G.Serves Q w (e :: es) vs :=
  ⟨h.ok, List.forall_mem_cons.2 ⟨he, h.engines⟩, h.values⟩

theorem Serves.addValue (h : G.Serves Q w es vs) {v : Value} (hv : v.Sound G w) : G.Serves Q w es (v :: vs) :=
  ⟨h.ok, h.engines, List.forall_mem_cons.2 ⟨hv, h.values⟩⟩

theorem Serves.given (h : G.Serves Q w es vs) {v : Value} (hv : Given vs v) : v.Sound G w := hv.elim .plain (h.values v)

theorem Serves.fits_context (h : G.Serves Q w es vs) (e : Engine) : (e.context w).Fits G w := h.ok.store

theorem open_of_depth {env : Env} (h : env.depth = 0) : Open w env := by
  unfold Open
  rw [h]
  exact Nat.zero_le _

theorem Ok.newEnv (ok : G.Ok Q (fun _ => False) w) :
    ∃ G₁, G.Le w G₁ w.newEnv.2 ∧ G₁.Ok Q (fun _ => False) w.newEnv.2 ∧ G₁.live w.newEnv.1 :=
  ⟨_, ok.le_addScope _ _, ok.addScope .empty (fun _ _ h => by cases h) rfl (fun _ _ h => by cases h), .inr rfl⟩

theorem Ok.withStore (ok : G.Ok Q (fun _ => False) w) {store : Option Store}
    (sound : ∀ s, store = some s → ∀ key v, s.get? key = some v → v.Sound G w) :
    G.Le w G { w with store } ∧ G.Ok Q (fun _ => False) { w with store } := by
  have hlayout : ∀ path, ({ w with store } : Workspace).layout path = w.layout path := fun path =>
    Workspace.layout_congr path (fun _ _ _ _ => rfl)
  have le : G.Le w G { w with store } := ok.le_of_scopes (fun _ h => h) (fun _ _ h => h) (fun _ _ _ => rfl) (fun _ _ _ h => h)
  refine ⟨le, ok.placed, fun env he => ?_, ok.around, ok.unique, fun env he name b hb => le.binding he (ok.bindings env he name b hb),
    ok.homes, ok.same, fun d env hd hp => ?_, fun s hs key v hv => le.value (sound s hs key v hv)⟩
  · rw [hlayout]
    exact ok.depth env he
  · obtain ⟨body, hbody, addressed⟩ := ok.bodies d env hd hp
    refine ⟨body, hbody, ?_⟩
    rw [hlayout]
    exact le.addressed List.prefix_rfl addressed

/-- **A unit compiled** and its main function, which belongs to the globals. -/
theorem Ok.compiled (ok : G.Ok Q (fun _ => False) w) {env : Env} (live : G.live env) (depth : env.depth = 0)
    {statements : List Expr} {main : Closure} (traced : (Event.compiled w env statements main w').Traced Q) :
    ∃ G', G.Le w G' w' ∧ G'.Ok Q (fun _ => False) w' ∧ (Value.function main).Sound G' w' := by
  obtain ⟨n, nodes, ends, w₁, made, hq, rfl, rfl⟩ := traced
  obtain ⟨G₁, le₁, ok₁, all⟩ := sound_statements (traced_sound n) made ok live (open_of_depth depth)
  have live₁ := le₁.live _ live
  have ok₂ := ok₁.declare live₁ "main" []
  have le₂ := ok₁.le_declare "main" [] (env.depth + 1) (w₁.declare "main" [] (env.depth + 1)).1 env
  generalize (w₁.declare "main" [] (env.depth + 1)).1 = d at ok₂ le₂ ⊢
  generalize (w₁.declare "main" [] (env.depth + 1)).2 = w₂ at ok₂ le₂ ⊢
  have home : (G₁.withHome d env).home d env := .inr ⟨rfl, rfl⟩
  have le : G.Le w (G₁.withHome d env) w₂ := le₁.trans le₂
  have hlayout : w.layout env.path = [] := List.length_eq_zero_iff.1 ((ok.depth env live).trans depth)
  have body : (Node.sequence "main" nodes).Addressed (G₁.withHome d env) w₂ Q (w₂.layout env.path ++ [d.params.length]) := by
    refine .mk ⟨env, live₁, List.prefix_append _ _, hq⟩ trivial (fun x hx => le₂.addressed ?_ (all x hx))
    rw [le.layout env live]
    exact List.prefix_append _ _
  refine ⟨_, le.trans (le_setBody _ w₂ d _), ok₂.setBody home body, ?_⟩
  refine .function home live₁ ?_ (fun a ha => by cases ha) (fun a ha => by cases ha) (fun v hv => by cases hv)
  rw [(le.trans (le_setBody _ w₂ d (.sequence "main" nodes))).layout env live, hlayout]
  exact Frame.covers_root

theorem Serves.call (h : G.Serves Q w es vs) (e : Engine) (n : Nat) {f : Closure} {args : List Value} (site : String)
    (known : .function f ∈ vs) (given : ∀ a ∈ args, Given vs a) :
    (ChainCalc.call w n f args (e.context w) site).Sound (Value.Sound G w) :=
  (h.ok.sound n).2.2 (h.values _ known) (fun a ha => h.given (given a ha)) (h.fits_context e)

end World

/-- **The invariant holds after every history.** -/
theorem History.serves {Q : Env → Node → Prop} {w : Workspace} {es : List Engine} {vs : List Value} {log : List Event}
    (past : History w es vs log) (traced : ∀ ev ∈ log, ev.Traced Q) : ∃ G : World, G.Serves Q w es vs := by
  induction past with
  | start =>
    refine ⟨⟨fun _ => False, fun _ _ => False⟩, ?_, (fun _ h => by cases h), (fun _ h => by cases h)⟩
    exact ⟨fun _ h => h.elim, fun _ h => h.elim, fun _ _ _ h => h, fun _ _ h => h.elim, fun _ h => h.elim,
      fun _ _ h => h.elim, fun _ _ _ _ h => h.elim, fun _ _ h => h.elim, (fun _ h => by cases h)⟩
  | engine past settings ih =>
    obtain ⟨G, serves⟩ := ih traced
    obtain ⟨G₁, le, ok, live⟩ := serves.ok.newEnv
    exact ⟨G₁, (serves.grow le ok).addEngine ⟨rfl, live, rfl⟩⟩
  | session past mem ih =>
    obtain ⟨G, serves⟩ := ih traced
    obtain ⟨standard, live, depth⟩ := serves.engines _ mem
    obtain ⟨G₁, le, ok, live₁, -, -⟩ := serves.ok.childEnv live rfl
    exact ⟨G₁, (serves.grow le ok).addEngine ⟨standard, live₁, depth⟩⟩
  | define past mem name given ih =>
    obtain ⟨G, serves⟩ := ih (fun ev hev => traced ev (List.mem_cons_of_mem _ hev))
    obtain ⟨-, live, depth⟩ := serves.engines _ mem
    refine ⟨G, serves.grow (serves.ok.le_define live (World.open_of_depth depth) name _)
      (serves.ok.define live (World.open_of_depth depth) name ?_)⟩
    exact .mk ⟨_, live, List.prefix_rfl, traced _ List.mem_cons_self⟩ (serves.given given) (fun _ hx => by cases hx)
  | store past store given ih =>
    obtain ⟨G, serves⟩ := ih traced
    obtain ⟨le, ok⟩ := serves.ok.withStore (fun s hs key v hv => serves.given (given s hs key v hv))
    exact ⟨G, serves.grow le ok⟩
  | refused past mem outcome ih =>
    obtain ⟨G, serves⟩ := ih traced
    have live := (serves.engines _ mem).2.1
    have hext := Engine.extends_of_refused (serves.ok.placed _ live _ List.mem_cons_self) outcome
    exact ⟨G, serves.grow (serves.ok.le_of_extends hext) (serves.ok.extends hext)⟩
  | compile past mem read outcome ih =>
    obtain ⟨G, serves⟩ := ih (fun ev hev => traced ev (List.mem_cons_of_mem _ hev))
    obtain ⟨-, live, depth⟩ := serves.engines _ mem
    obtain ⟨G₁, le, ok, hmain⟩ := serves.ok.compiled live depth (traced _ List.mem_cons_self)
    exact ⟨G₁, (serves.grow le ok).addValue hmain⟩
  | failed past mem outcome ih =>
    obtain ⟨rfl, -⟩ := Engine.run_of_callAt outcome
    exact ih traced
  | call past mem known given outcome ih =>
    rename_i e n f args site v
    obtain ⟨G, serves⟩ := ih traced
    obtain ⟨rfl, ⟨v', hv, hcall⟩ | ⟨err, hv, -⟩⟩ := Engine.run_of_callAt outcome
    · cases hv
      exact ⟨G, serves.addValue ((serves.call e n site known given).1 v hcall)⟩
    · cases hv

theorem History.traced_true {w : Workspace} {es : List Engine} {vs : List Value} {log : List Event}
    (past : History w es vs log) : ∀ ev ∈ log, ev.Traced (fun _ _ => True) := by
  induction past with
  | start => exact fun _ h => by cases h
  | engine _ _ ih | session _ _ ih | store _ _ _ ih | refused _ _ _ ih | failed _ _ _ ih | call _ _ _ _ _ ih => exact ih
  | define _ _ _ _ ih => exact List.forall_mem_cons.2 ⟨trivial, ih⟩
  | compile past mem read outcome ih =>
    obtain ⟨G, serves⟩ := past.serves ih
    have made := Engine.gives_of_compile read outcome
    rw [(serves.engines _ mem).1] at made
    exact List.forall_mem_cons.2 ⟨Event.traced_of_compileUnit made, ih⟩

theorem sound_callAt {G : World} {Q : Env → Node → Prop} {w w' : Workspace} {es : List Engine} {vs : List Value}
    (serves : G.Serves Q w es vs) {e : Engine} {n : Nat} {f : Closure} {args : List Value} {site : String} {err : EvalError}
    (known : .function f ∈ vs) (given : ∀ a ∈ args, Given vs a)
    (h : (e.callAt n f args site).run w = some (.error (.eval err), w')) : err.fault.isAddressing = false := by
  obtain ⟨-, ⟨v, hv, -⟩ | ⟨err', hv, hcall⟩⟩ := Engine.run_of_callAt h
  · cases hv
  · cases hv
    exact (serves.call e n site known given).2 err hcall

/-- **Lexical addressing never misses.**  After every history no run of a source and no call of a function meets a fault
of addressing; and every node that is evaluated in a call belongs to an environment whose layout its frame covers, for
every relation `Q` that holds of all nodes compiled in the history together with the environments they were compiled
in. -/
theorem lexical_addressing {w : Workspace} {es : List Engine} {vs : List Value} {log : List Event}
    (past : History w es vs log) {e : Engine} (mem : e ∈ es) :
    (∀ n source err w', (e.run n source).run w = some (.error (.eval err), w') → err.fault.isAddressing = false) ∧
    (∀ n f args site err w', .function f ∈ vs → (∀ a ∈ args, Given vs a) →
      (e.callAt n f args site).run w = some (.error (.eval err), w') → err.fault.isAddressing = false) ∧
    (∀ Q : Env → Node → Prop, (∀ ev ∈ log, ev.Traced Q) → ∀ f args site body inner ctx node frame ctx',
      .function f ∈ vs → (∀ a ∈ args, Given vs a) → Enters w f args (e.context w) site body inner ctx →
      Visits w body inner ctx node frame ctx' →
        ∃ env, Q env node ∧ (w.layout env.path).length = env.depth ∧ frame.Covers (w.layout env.path)) := by
  refine ⟨fun n source err w' h => ?_, fun n f args site err w' known given h => ?_, ?_⟩
  · obtain ⟨main, w₁, compiled, h⟩ := Engine.call_of_run h
    obtain ⟨statements, read⟩ := Engine.parse_of_compile compiled
    have past' := past.compile mem read compiled
    obtain ⟨G, serves⟩ := past'.serves past'.traced_true
    exact sound_callAt serves List.mem_cons_self (fun _ ha => by cases ha) h
  · obtain ⟨G, serves⟩ := past.serves past.traced_true
    exact sound_callAt serves known given h
  · intro Q traced f args site body inner ctx node frame ctx' known given enters visits
    obtain ⟨G, serves⟩ := past.serves traced
    obtain ⟨L, addressed, fits, hctx⟩ := serves.ok.enters enters (serves.values _ known)
      (fun a ha => serves.given (given a ha)) (serves.fits_context e)
    obtain ⟨L', ⟨⟨env, live, layout, hq⟩, -, -⟩, fits'⟩ := serves.ok.visits visits addressed fits hctx
    exact ⟨env, hq, serves.ok.depth env live, fits'.covers.mono layout⟩

/-- A session in which a number is defined and a source is run that returns a closure: it has captured the argument of the
call that made it, and is called from outside. -/
theorem lexical_addressing_returned_closure :
    let engine := (Engine.new .standard {} {}).1
    let session := (engine.session (Engine.new .standard {} {}).2).1
    let w := session.defineValue "k" (.int 5) (engine.session (Engine.new .standard {} {}).2).2
    let source := "define(add(x), lambda(y, x + y * k)); add(1)"
    ∃ statements main w' f body inner ctx, (session.compile 20 source).run w = some (.ok main, w') ∧
      let log := [Event.compiled w session.globals statements main w', .defined session.globals (.int 5)]
      History w' [session, engine] [.function f, .function main] log ∧ (∀ ev ∈ log, ev.Traced (fun _ _ => True)) ∧
      f.captured ≠ [] ∧ Enters w' f [.int 2] (session.context w') "add(1)(2)" body inner ctx ∧
      (∀ n source err w'', (session.run n source).run w' = some (.error (.eval err), w'') →
        err.fault.isAddressing = false) ∧
      (∀ n err w'', (session.callAt n f [.int 2] "add(1)(2)").run w' = some (.error (.eval err), w'') →
        err.fault.isAddressing = false) ∧
      ∀ Q : Env → Node → Prop, (∀ ev ∈ log, ev.Traced Q) → ∀ node frame ctx', Visits w' body inner ctx node frame ctx' →
        ∃ env, Q env node ∧ (w'.layout env.path).length = env.depth ∧ frame.Covers (w'.layout env.path) := by
  intro engine session w source
  have script : ((session.compiled? source w).any fun (main, w') => (session.called? main w').any fun v =>
      v.asFunction?.any fun f => !f.captured.isEmpty && (w'.body? f.definition).isSome &&
        decide (f.definition.params.length ≤ (f.applied ++ [Value.int 2]).length)) = true := by decide +kernel
  simp only [Option.any_eq_true, Prod.exists, Bool.and_eq_true, Bool.not_eq_true', List.isEmpty_eq_false_iff,
    decide_eq_true_eq, Option.isSome_iff_exists] at script
  obtain ⟨main, w', compiled, v, called, f, hf, ⟨captured, body, known⟩, full⟩ := script
  obtain rfl := Value.eq_of_asFunction? hf
  have compiled := Engine.compile_of_compiled? compiled
  obtain ⟨statements, read⟩ := Engine.parse_of_compile compiled
  have mem : session ∈ [session, engine] := List.mem_cons_self
  have past : History w' [session, engine] [.function f, .function main]
      [.compiled w session.globals statements main w', .defined session.globals (.int 5)] :=
    ((((History.start.engine {}).session List.mem_cons_self).define mem "k" (.inl rfl)).compile mem read compiled).call
      mem List.mem_cons_self (fun _ ha => by cases ha) (Engine.callAt_of_called? called)
  obtain ⟨inner, pushed⟩ : ∃ inner, (session.context w').push f.definition.name "add(1)(2)" = .ok inner :=
    ⟨_, Context.push_eq_ok.2 ⟨by show 0 < defaultMaxCallDepth; decide, rfl⟩⟩
  have enters := Enters.body full known pushed
  have given : ∀ a ∈ [Value.int 2], Given [.function f, .function main] a := List.forall_mem_singleton.2 (.inl rfl)
  obtain ⟨runs, calls, visits⟩ := lexical_addressing past mem
  refine ⟨statements, main, w', f, body, _, _, compiled, past, past.traced_true, captured, enters, runs, ?_, ?_⟩
  · exact fun n err w'' => calls n f [.int 2] "add(1)(2)" err w'' List.mem_cons_self given
  · exact fun Q traced node frame ctx' =>
      visits Q traced f [.int 2] "add(1)(2)" body _ _ node frame ctx' List.mem_cons_self given enters

end ChainCalc
