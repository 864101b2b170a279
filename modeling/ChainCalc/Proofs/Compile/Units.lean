import ChainCalc.Proofs.Compile.Fresh
import ChainCalc.Proofs.Compile.Steps
import ChainCalc.Standard
/-!
# Units of statements — all definitions or none

A definition that succeeds inserts its name in the scope it is written in and changes nothing else that was there; one
that fails changes nothing at all, although a function is bound before its body is compiled.  A unit undoes what it has
defined so far when a statement fails, the latest first, and every step of that gives back the table before the
definition (`rollback_cons`).  So a unit inserts the names of all its definitions, in order, or leaves every scope as it
was.
-/
namespace ChainCalc

open CompileM Workspace

/-! ### The names that statements define -/

/-- The name that a statement defines: its first argument, as a name or as the name of a call. -/
def Expr.definedName? (e : Expr) : Option String :=
  match e.asCall? with
  | some (form, target :: _) => if form == "define" then target.asIdent?.or (target.asCall?.map Prod.fst) else none
  | _ => none

def definedNames (statements : List Expr) : List String := statements.filterMap Expr.definedName?

theorem definedName?_of_defines {e target value : Expr} (he : e.isDefine = true) (h : e.Defines target value) :
    e.definedName? = target.asIdent?.or (target.asCall?.map Prod.fst) := by
  obtain ⟨t, v, rest, hbare, rfl, -, -, -, -⟩ := args_of_defines he h
  unfold Expr.definedName?
  rw [Expr.asCall?_eq_some.2 hbare, Expr.asIdent?_bare, Expr.asCall?_bare]
  rfl

theorem definedName?_of_not_define {e : Expr} (h : e.isDefine = false) : e.definedName? = none := by
  unfold Expr.definedName?
  split
  · rename_i form target rest hc
    have hform : (form == "define") = false := by
      unfold Expr.isDefine at h
      rw [hc] at h
      exact h
    rw [hform]
    rfl
  · rfl

/-! ### One definition -/

theorem formCapture_fails (c : Captures) (placeholder : String) (w w' : Workspace) :
    (formCapture c placeholder).Fails w w' ↔ (c.of placeholder).head? = none ∧ w' = w := by
  unfold formCapture
  cases (c.of placeholder).head? with
  | none => simp
  | some e' => simp

theorem paramNames_fails (problem : FormProblem) (whole : Expr) (args : List Expr) (w w' : Workspace) :
    (paramNames problem whole args).Fails w w' ↔ args.mapM Expr.asIdent? = none ∧ w' = w := by
  unfold paramNames
  cases args.mapM Expr.asIdent? with
  | none => simp
  | some names' => simp

theorem extends_restore {env : Env} {w : Workspace} {name : String} {b : Binding} {w' : Workspace}
    (h : (w.updateScope env.here.id (fun s => s.insert name b)).Extends w') :
    w.Extends (w'.restore env name ((w.scope env.here.id).get? name)) := by
  have hback := h.updateBoth env.here.id (fun s => s.restore name ((w.scope env.here.id).get? name))
  rw [updateScope_updateScope, ← restore_eq] at hback
  refine ⟨by simpa using hback.scopes, fun i hi => ?_, hback.bodies, hback.body, hback.store⟩
  rw [hback.scope i (by simpa using hi)]
  by_cases hid : i = env.here.id
  · subst hid
    rw [scope_updateScope_self w hi]
    exact Table.restore_insert _ _ _
  · exact scope_updateScope_ne w hid _

section

variable {registry : Registry} {n : Nat} {env : Env} {w : Workspace} (here : env.here.id < w.scopes.size)

include here

/-- A function that is bound before its body is compiled: its name is inserted, and the function is new. -/
theorem extends_of_bound {w₁ w₂ w₃ : Workspace} {scope : Env} {params : List String} {f : String} {depth : Nat}
    {d : Definition} {previous : Option Binding} (entered : w.functionEnv env params = (scope, w₁))
    (declared : w₁.declare f params depth = (d, w₂)) (bound : w₂.define env f (.function d) = (previous, w₃)) :
    (w.updateScope env.here.id (fun s => s.insert f (.function d))).Extends w₃ ∧
      previous = (w.scope env.here.id).get? f ∧ w.bodies.size ≤ d.id := by
  have h₁ : w.Extends w₁ := by
    have := w.extends_addScope (paramScope (env.depth + 1) params)
    rwa [show w.addScope _ = w₁ from congrArg Prod.snd entered] at this
  have h₂ : w₁.Extends w₂ := by
    have := w₁.extends_declare f params depth
    rwa [declared] at this
  have h₃ := extends_define w₂ env f (.function d)
  rw [bound] at h₃
  refine ⟨((h₁.trans h₂).updateBoth _ _).trans h₃, ?_, ?_⟩
  · rw [show previous = _ from (congrArg Prod.fst bound).symm, define_fst, (h₁.trans h₂).scope _ here]
  · rw [show d.id = w₁.bodies.size from congrArg (fun p => p.1.id) declared.symm]
    exact h₁.bodies

/-- **A definition that succeeds** inserts its name where it is written, and says what stood there before. -/
theorem compileDefine_gives_spec {e : Expr} {name : String} {previous : Option Binding} {w' : Workspace}
    (he : e.isDefine = true) (h : (compileDefine (compile registry n) e env).Gives w (name, previous) w') :
    e.definedName? = some name ∧ previous = (w.scope env.here.id).get? name ∧
      ∃ b, (w.updateScope env.here.id (fun s => s.insert name b)).Extends w' := by
  rw [compileDefine_gives] at h
  cases h with
  | value form named made =>
    have hext := compile_extends made
    refine ⟨?_, ?_, _, (hext.updateBoth _ _).trans (extends_define _ env name _)⟩
    · rw [definedName?_of_defines he form, named]
      rfl
    · rw [define_fst, hext.scope _ here]
  | function form called named entered declared bound made =>
    obtain ⟨hext, hprevious, hid⟩ := extends_of_bound here entered declared bound
    refine ⟨?_, hprevious, _, (hext.trans (compile_extends made)).setBody hid _⟩
    rw [definedName?_of_defines he form, asIdent?_eq_none_of_asCall? called, called]
    rfl

/-- **A definition that fails leaves nothing behind**, not even the name of a function whose body failed. -/
theorem compileDefine_fails_spec {e : Expr} {w' : Workspace}
    (h : (compileDefine (compile registry n) e env).Fails w w') : w.Extends w' := by
  unfold compileDefine at h
  split at h
  · rw [fails_fail] at h
    exact h ▸ .refl w
  · rename_i captures _
    simp only [fails_bind, formCapture_fails, formCapture_gives] at h
    rcases h with ⟨-, rfl⟩ | ⟨target, _, ⟨-, rfl⟩, ⟨-, rfl⟩ | ⟨value, _, ⟨-, rfl⟩, h⟩⟩
    · exact .refl w'
    · exact .refl w'
    · split at h
      · simp only [fails_bind, fails_update, fails_pure, and_false, exists_false, or_false] at h
        obtain ⟨e, h⟩ := h
        exact compile_extends h
      · rw [fails_fail] at h
        exact h ▸ .refl _
      · rename_i f args _ _
        simp only [fails_bind, fails_update, gives_update, fails_pure, paramNames_fails, paramNames_gives, fails_onError,
          and_false, exists_false, or_false, false_or] at h
        rcases h with ⟨-, rfl⟩ | ⟨params, _, ⟨-, rfl⟩, scope, w₁, entered, d, w₂, declared, previous, w₃, bound, w₄, failed, rfl⟩
        · exact .refl _
        · obtain ⟨hext, rfl, -⟩ := extends_of_bound here entered declared bound
          unfold compileBody at failed
          simp only [fails_bind, fails_update, fails_pure, and_false, exists_false, or_false] at failed
          obtain ⟨e, failed⟩ := failed
          exact extends_restore (hext.trans (compile_extends failed))

end

/-! ### Whole units -/

/-- Whatever comes after `w`, taking definitions back leads to something that only adds to `w₀`. -/
def Undoes (env : Env) (undo : List (String × Option Binding)) (w₀ w : Workspace) : Prop :=
  ∀ w', w.Extends w' → w₀.Extends (rollback env undo w')

theorem Undoes.nil (env : Env) (w : Workspace) : Undoes env [] w w := fun _ h => h

theorem Undoes.of_extends {env : Env} {undo : List (String × Option Binding)} {w₀ w w₁ : Workspace}
    (h : Undoes env undo w₀ w) (hext : w.Extends w₁) : Undoes env undo w₀ w₁ := fun w' hw' => h w' (hext.trans hw')

theorem Undoes.cons {env : Env} {undo : List (String × Option Binding)} {w₀ w w₁ : Workspace} {name : String}
    {b : Binding} (h : Undoes env undo w₀ w) (hext : (w.updateScope env.here.id (fun s => s.insert name b)).Extends w₁) :
    Undoes env ((name, (w.scope env.here.id).get? name) :: undo) w₀ w₁ :=
  fun _ hw' => h _ (extends_restore (hext.trans hw'))

section

variable {registry : Registry} {n : Nat} {env : Env}

/-- **A unit that fails** has taken back everything that it defined. -/
theorem unitNodes_fails : ∀ {ss : List Expr} {undo : List (String × Option Binding)} {w₀ w w' : Workspace},
    env.here.id < w.scopes.size → Undoes env undo w₀ w → (unitNodes registry n env ss undo).Fails w w' → w₀.Extends w'
  | [], undo, w₀, w, w', _, _, h => absurd h (fails_pure _ _ _)
  | s :: rest, undo, w₀, w, w', here, undoes, h => by
    unfold unitNodes at h
    cases hs : s.isDefine with
    | true =>
      simp only [hs, if_true, fails_bind, fails_onError, gives_onError] at h
      rcases h with ⟨w₁, h, rfl⟩ | ⟨⟨name, previous⟩, w₁, hd, h⟩
      · exact undoes _ (compileDefine_fails_spec here h)
      · obtain ⟨-, rfl, b, hext⟩ := compileDefine_gives_spec here hs hd
        have here' : env.here.id < w₁.scopes.size := Nat.lt_of_lt_of_le (by simpa using here) hext.scopes
        exact unitNodes_fails here' (undoes.cons hext) h
    | false =>
      simp only [hs, Bool.false_eq_true, if_false, fails_bind, fails_onError, gives_onError, fails_pure, and_false,
        exists_false, or_false] at h
      rcases h with ⟨w₁, ⟨e, h⟩, rfl⟩ | ⟨node, w₁, hn, h⟩
      · exact undoes _ (compile_extends h)
      · have hext := compile_extends hn
        exact unitNodes_fails (Nat.lt_of_lt_of_le here hext.scopes) (undoes.of_extends hext) h

/-- **A unit that succeeds** has inserted the names of its definitions, in order. -/
theorem unitNodes_gives : ∀ {ss : List Expr} {undo : List (String × Option Binding)} {w w' : Workspace} {nodes : List Node},
    env.here.id < w.scopes.size → (unitNodes registry n env ss undo).Gives w nodes w' →
      ∃ bs, bs.map Prod.fst = definedNames ss ∧ (w.updateScope env.here.id (fun s => s.insertAll bs)).Extends w'
  | [], undo, w, w', nodes, _, h => by
    obtain ⟨-, rfl⟩ := (gives_pure _ _ _ _).1 h
    refine ⟨[], rfl, ?_⟩
    show (w'.updateScope env.here.id (fun s => s)).Extends w'
    rw [updateScope_id]
    exact .refl w'
  | s :: rest, undo, w, w', nodes, here, h => by
    unfold unitNodes at h
    cases hs : s.isDefine with
    | true =>
      simp only [hs, if_true, gives_bind, gives_onError] at h
      obtain ⟨⟨name, previous⟩, w₁, hd, h⟩ := h
      obtain ⟨hname, -, b, hext⟩ := compileDefine_gives_spec here hs hd
      have here' : env.here.id < w₁.scopes.size := Nat.lt_of_lt_of_le (by simpa using here) hext.scopes
      obtain ⟨bs, hbs, hext'⟩ := unitNodes_gives here' h
      refine ⟨(name, b) :: bs, ?_, ?_⟩
      · rw [List.map_cons, hbs, definedNames, definedNames, List.filterMap_cons_some hname]
      · have hboth := hext.updateBoth env.here.id (fun s => s.insertAll bs)
        rw [updateScope_updateScope] at hboth
        exact hboth.trans hext'
    | false =>
      simp only [hs, Bool.false_eq_true, if_false, gives_bind, gives_onError, gives_pure] at h
      obtain ⟨node, w₁, hn, nodes', w₂, h, rfl, rfl⟩ := h
      have hext := compile_extends hn
      obtain ⟨bs, hbs, hext'⟩ := unitNodes_gives (Nat.lt_of_lt_of_le here hext.scopes) h
      refine ⟨bs, ?_, (hext.updateBoth _ _).trans hext'⟩
      rw [hbs, definedNames, definedNames, List.filterMap_cons_none (definedName?_of_not_define hs)]

end

theorem makesStatements_of_unitNodes {registry : Registry} {n : Nat} {env : Env} : ∀ {ss : List Expr}
    {undo : List (String × Option Binding)} {w w' : Workspace} {nodes : List Node},
    (unitNodes registry n env ss undo).Gives w nodes w' → ∀ ends, ∃ ends',
      MakesStatements (.of (compile registry n)) env w ss ends nodes ends' w'
  | [], undo, w, w', nodes, h, ends => by
    obtain ⟨rfl, rfl⟩ := (gives_pure _ _ _ _).1 h
    exact ⟨ends, .nil _ _⟩
  | s :: rest, undo, w, w', nodes, h, ends => by
    unfold unitNodes at h
    cases hs : s.isDefine with
    | true =>
      simp only [hs, if_true, gives_bind, gives_onError] at h
      obtain ⟨⟨name, previous⟩, w₁, hd, h⟩ := h
      obtain ⟨ends', tail⟩ := makesStatements_of_unitNodes h false
      exact ⟨ends', .define hs ((compileDefine_gives _ s env w name previous w₁).1 hd) tail⟩
    | false =>
      simp only [hs, Bool.false_eq_true, if_false, gives_bind, gives_onError, gives_pure] at h
      obtain ⟨node, w₁, hn, nodes', w₂, h, rfl, rfl⟩ := h
      obtain ⟨ends', tail⟩ := makesStatements_of_unitNodes h true
      exact ⟨ends', .expr hs hn tail⟩

theorem unitNodes_of_makesStatements {registry : Registry} {n : Nat} {env : Env} {ss : List Expr} {w w' : Workspace}
    {nodes : List Node} {ends ends' : Bool}
    (h : MakesStatements (.of (compile registry n)) env w ss ends nodes ends' w') :
    ∀ undo, (unitNodes registry n env ss undo).Gives w nodes w' := by
  induction h with
  | nil w ends => exact fun undo => (gives_pure _ _ _ _).2 ⟨rfl, rfl⟩
  | define is head _ ih =>
    intro undo
    unfold unitNodes
    simp only [is, if_true, gives_bind, gives_onError]
    exact ⟨_, _, (compileDefine_gives _ _ _ _ _ _ _).2 head, ih _⟩
  | expr is head _ ih =>
    intro undo
    unfold unitNodes
    simp only [is, Bool.false_eq_true, if_false, gives_bind, gives_onError, gives_pure]
    exact ⟨_, _, head, _, _, ih undo, rfl, rfl⟩

theorem compileUnit_gives_of_le {registry : Registry} {n m : Nat} (h : n ≤ m) {ss : List Expr} {env : Env} {w w' : Workspace}
    {main : Closure} (hn : (compileUnit registry n ss env).Gives w main w') : (compileUnit registry m ss env).Gives w main w' := by
  unfold compileUnit at hn ⊢
  rw [gives_bind] at hn ⊢
  obtain ⟨nodes, w₁, gives, more⟩ := hn
  obtain ⟨ends, makes⟩ := makesStatements_of_unitNodes gives false
  have makes' := makes.mono (fun w env e node w' => Making.of_compile_mono n m w env e node w' h)
  exact ⟨nodes, w₁, unitNodes_of_makesStatements makes' [], more⟩

/-! ### What a compilation binds -/

def Workspace.SameScopes (w w' : Workspace) : Prop := ∀ i < w.scopes.size, w'.scope i = w.scope i

/-- Of the scopes that were there, only one is changed: it has given names inserted in order, and is the same at all
others. -/
structure Workspace.Binds (w : Workspace) (id : Nat) (names : List String) (w' : Workspace) : Prop where
  others : ∀ i < w.scopes.size, i ≠ id → w'.scope i = w.scope i
  inserted : ∃ bs : List (String × Binding), bs.map Prod.fst = names ∧ w'.scope id = (w.scope id).insertAll bs
  bound : ∀ name ∈ names, ((w'.scope id).get? name).isSome = true
  only : ∀ name, name ∉ names → (w'.scope id).get? name = (w.scope id).get? name

theorem Workspace.binds_of_extends {w w' : Workspace} {id : Nat} (h : id < w.scopes.size) {bs : List (String × Binding)}
    (hext : (w.updateScope id (fun s => s.insertAll bs)).Extends w') : w.Binds id (bs.map Prod.fst) w' := by
  have hid : w'.scope id = (w.scope id).insertAll bs := by
    rw [hext.scope id (by simpa using h), scope_updateScope_self w h]
  refine ⟨fun i hi hne => ?_, ⟨bs, rfl, hid⟩, fun name hn => ?_, fun name hn => ?_⟩
  · rw [hext.scope i (by simpa using hi), scope_updateScope_ne w hne]
  · rw [hid]
    exact Table.isSome_get?_insertAll hn
  · rw [hid]
    exact Table.get?_insertAll_of_notMem hn

section

variable {registry : Registry} {n : Nat} {env : Env} {w w' : Workspace}

theorem compileUnit_fails {ss : List Expr} (here : env.here.id < w.scopes.size)
    (h : (compileUnit registry n ss env).Fails w w') : w.Extends w' := by
  unfold compileUnit at h
  simp only [fails_bind, fails_update, fails_pure, and_false, exists_false, or_false] at h
  exact unitNodes_fails here (.nil env w) h

theorem compileUnit_gives {ss : List Expr} {main : Closure} (here : env.here.id < w.scopes.size)
    (h : (compileUnit registry n ss env).Gives w main w') :
    ∃ bs, bs.map Prod.fst = definedNames ss ∧ (w.updateScope env.here.id (fun s => s.insertAll bs)).Extends w' := by
  unfold compileUnit at h
  simp only [gives_bind, gives_update, gives_pure] at h
  obtain ⟨nodes, w₁, hn, d, w₂, declared, _, _, ⟨-, rfl⟩, -, rfl⟩ := h
  obtain ⟨bs, hbs, hext⟩ := unitNodes_gives here hn
  have h₂ : w₁.Extends w₂ := by
    have := w₁.extends_declare "main" [] (env.depth + 1)
    rwa [declared] at this
  have hid : w.bodies.size ≤ d.id := by
    rw [show d.id = w₁.bodies.size from congrArg (fun p => p.1.id) declared.symm]
    exact hext.bodies
  exact ⟨bs, hbs, (hext.trans h₂).setBody hid _⟩

theorem statement_fails {s : Expr} (here : env.here.id < w.scopes.size) (h : (statement registry n s env).Fails w w') :
    w.Extends w' := by
  unfold statement compileStatement at h
  split at h
  · simp only [fails_bind, fails_pure, and_false, exists_false, or_false] at h
    exact compileDefine_fails_spec here h
  · simp only [fails_bind, fails_pure, and_false, exists_false, or_false] at h
    obtain ⟨e, h⟩ := h
    exact compile_extends h

theorem statement_gives {s : Expr} {st : Statement} (here : env.here.id < w.scopes.size)
    (h : (statement registry n s env).Gives w st w') :
    ∃ bs, bs.map Prod.fst = definedNames [s] ∧ (w.updateScope env.here.id (fun t => t.insertAll bs)).Extends w' := by
  unfold statement compileStatement at h
  split at h
  · rename_i hs
    simp only [gives_bind, gives_pure] at h
    obtain ⟨⟨name, previous⟩, _, hd, -, rfl⟩ := h
    obtain ⟨hname, -, b, hext⟩ := compileDefine_gives_spec here hs hd
    exact ⟨[(name, b)], by rw [definedNames, List.filterMap_cons_some hname]; rfl, hext⟩
  · rename_i hs
    simp only [gives_bind, gives_pure] at h
    obtain ⟨node, _, hn, -, rfl⟩ := h
    refine ⟨[], ?_, ?_⟩
    · rw [definedNames, List.filterMap_cons_none (definedName?_of_not_define (by simpa using hs))]
      rfl
    · show (w.updateScope env.here.id (fun t => t)).Extends w'
      rw [updateScope_id]
      exact compile_extends hn

end

/-- **A unit binds all of its names or none, and only where it is compiled.**  The same goes for a single statement, and
an expression binds nothing. -/
theorem units_bind_all_or_nothing (registry : Registry) (n : Nat) (env : Env) (w : Workspace)
    (here : env.here.id < w.scopes.size) :
    (∀ ss w', (compileUnit registry n ss env).Fails w w' → w.SameScopes w') ∧
    (∀ ss main w', (compileUnit registry n ss env).Gives w main w' → w.Binds env.here.id (definedNames ss) w') ∧
    (∀ s w', (statement registry n s env).Fails w w' → w.SameScopes w') ∧
    (∀ s st w', (statement registry n s env).Gives w st w' → w.Binds env.here.id (definedNames [s]) w') ∧
    (∀ e r w', (compile registry n e env).run w = some (r, w') → w.SameScopes w') := by
  refine ⟨fun ss w' h => ?_, fun ss main w' h => ?_, fun s w' h => ?_, fun s st w' h => ?_, fun e r w' h => ?_⟩
  · exact (compileUnit_fails here h).scope
  · obtain ⟨bs, hbs, hext⟩ := compileUnit_gives here h
    exact hbs ▸ Workspace.binds_of_extends here hext
  · exact (statement_fails here h).scope
  · obtain ⟨bs, hbs, hext⟩ := statement_gives here h
    exact hbs ▸ Workspace.binds_of_extends here hext
  · exact (compile_extends h).scope

/-- A scope inside another one, both with a binding of `x`, which two units define once more; the first of them goes on to a
name that nothing is bound to. -/
theorem units_bind_all_or_nothing_redefined :
    let outer := (Workspace.newEnv {}).1
    let w₀ := ((Workspace.newEnv {}).2.define outer "x" (.value (.constant (.int 0)))).2
    let env := (w₀.childEnv outer).1
    let w := ((w₀.childEnv outer).2.define env "x" (.value (.constant (.int 1)))).2
    let again : Expr := .call "define" [.ident "x", .lit (.int 2)]
    let double : Expr := .call "define" [.call "double" [.ident "y"], (Expr.ident "y").andThen .add (.ident "y")]
    env.here.id < w.scopes.size ∧
      (∃ w', (compileUnit .standard 20 [again, double, .ident "missing"] env).Fails w w' ∧ w.SameScopes w') ∧
      ∃ main w', (compileUnit .standard 20 [again, double] env).Gives w main w' ∧
        w.Binds env.here.id ["x", "double"] w' := by
  intro outer w₀ env w again double
  have here : env.here.id < w.scopes.size := by decide
  have refused : ((compileUnit .standard 20 [again, double, .ident "missing"] env).run w).any
      (fun (r, _) => !r.toOption.isSome) = true := by decide +kernel
  have compiled : ((compileUnit .standard 20 [again, double] env).run w).any
      (fun (r, _) => r.toOption.isSome) = true := by decide +kernel
  obtain ⟨⟨r, w₁⟩, refused, failed⟩ := (Option.any_eq_true _ _).1 refused
  obtain ⟨⟨r', w₂⟩, compiled, ended⟩ := (Option.any_eq_true _ _).1 compiled
  cases r with
  | ok _ => cases failed
  | error error =>
    cases r' with
    | error _ => cases ended
    | ok main =>
      obtain ⟨fails, gives, -⟩ := units_bind_all_or_nothing .standard 20 env w here
      exact ⟨here, ⟨w₁, ⟨error, refused⟩, fails _ w₁ ⟨error, refused⟩⟩, main, w₂, compiled, gives _ main w₂ compiled⟩

end ChainCalc
