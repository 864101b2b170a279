import ChainCalc.Proofs.Addressing.History
import ChainCalc.Proofs.Compile.Upholds
/-!
# Sessions — histories in which everything from outside is as agreed

Terms say what is agreed about sources, about values that are defined from outside, and about stores.  A history in which
they are kept is orderly.  A discipline that the terms live up to holds of the workspace after every orderly history
(`Orderly.holds`).
-/
namespace ChainCalc

open CompileM

/-- What is agreed about everything that comes from outside; values may have been handed out before. -/
structure Terms where
  source : String → Prop
  host : List Value → String → Value → Prop
  store : List Value → Option Store → Prop

def Terms.any : Terms where
  source _ := True
  host vs _ v := Given vs v
  store vs store := ∀ s, store = some s → ∀ key v, s.get? key = some v → Given vs v

/-- **A history in which the terms are kept**: the workspace, the engines and the values handed out.  What a failed call
leaves behind is what was there before it. -/
inductive Orderly (T : Terms) : Workspace → List Engine → List Value → Prop
  | start : Orderly T {} [] []
  | engine {w : Workspace} {es : List Engine} {vs : List Value} (past : Orderly T w es vs) (settings : Settings) :
      Orderly T (Engine.new .standard settings w).2 ((Engine.new .standard settings w).1 :: es) vs
  | session {w : Workspace} {es : List Engine} {vs : List Value} (past : Orderly T w es vs) {e : Engine} (mem : e ∈ es) :
      Orderly T (e.session w).2 ((e.session w).1 :: es) vs
  | define {w : Workspace} {es : List Engine} {vs : List Value} (past : Orderly T w es vs) {e : Engine} (mem : e ∈ es)
      {name : String} {v : Value} (agreed : T.host vs name v) : Orderly T (e.defineValue name v w) es vs
  | store {w : Workspace} {es : List Engine} {vs : List Value} (past : Orderly T w es vs) {store : Option Store}
      (agreed : T.store vs store) : Orderly T { w with store } es vs
  | refused {w w' : Workspace} {es : List Engine} {vs : List Value} (past : Orderly T w es vs) {e : Engine} (mem : e ∈ es)
      {n : Nat} {source : String} {failure : Failure} (agreed : T.source source)
      (outcome : (e.compile n source).run w = some (.error failure, w')) : Orderly T w' es vs
  | compile {w w' : Workspace} {es : List Engine} {vs : List Value} (past : Orderly T w es vs) {e : Engine} (mem : e ∈ es)
      {n : Nat} {source : String} {main : Closure} (agreed : T.source source)
      (outcome : (e.compile n source).run w = some (.ok main, w')) : Orderly T w' es (.function main :: vs)
  | call {w w' : Workspace} {es : List Engine} {vs : List Value} (past : Orderly T w es vs) {e : Engine} (mem : e ∈ es) {n : Nat}
      {f : Closure} {args : List Value} {site : String} {v : Value} (known : .function f ∈ vs) (given : ∀ a ∈ args, Given vs a)
      (outcome : (e.callAt n f args site).run w = some (.ok v, w')) : Orderly T w' es (v :: vs)

theorem History.orderly {w : Workspace} {es : List Engine} {vs : List Value} {log : List Event} (past : History w es vs log) :
    Orderly .any w es vs := by
  induction past with
  | start => exact .start
  | engine _ settings ih => exact .engine ih settings
  | session _ mem ih => exact .session ih mem
  | define _ mem name given ih => exact .define ih mem given
  | store _ store given ih => exact .store ih given
  | refused _ mem outcome ih => exact .refused ih mem trivial outcome
  | compile _ mem _ outcome ih => exact .compile ih mem trivial outcome
  | failed _ mem outcome ih =>
    obtain ⟨rfl, -⟩ := Engine.run_of_callAt outcome
    exact ih
  | call _ mem known given outcome ih => exact .call ih mem known given outcome

theorem Orderly.history {T : Terms} (host : ∀ {vs name v}, T.host vs name v → Given vs v)
    (store : ∀ {vs s}, T.store vs (some s) → ∀ key v, s.get? key = some v → Given vs v) {w : Workspace} {es : List Engine}
    {vs : List Value} (past : Orderly T w es vs) : ∃ log, History w es vs log := by
  induction past with
  | start => exact ⟨_, .start⟩
  | engine _ settings ih =>
    obtain ⟨log, ih⟩ := ih
    exact ⟨log, .engine ih settings⟩
  | session _ mem ih =>
    obtain ⟨log, ih⟩ := ih
    exact ⟨log, .session ih mem⟩
  | define _ mem agreed ih =>
    obtain ⟨log, ih⟩ := ih
    exact ⟨_, .define ih mem _ (host agreed)⟩
  | store _ agreed ih =>
    obtain ⟨log, ih⟩ := ih
    exact ⟨log, .store ih _ (fun s hs => store (hs ▸ agreed))⟩
  | refused _ mem _ outcome ih =>
    obtain ⟨log, ih⟩ := ih
    exact ⟨log, .refused ih mem outcome⟩
  | compile _ mem _ outcome ih =>
    obtain ⟨log, ih⟩ := ih
    obtain ⟨statements, read⟩ := Engine.parse_of_compile outcome
    exact ⟨_, .compile ih mem read outcome⟩
  | call _ mem known given outcome ih =>
    obtain ⟨log, ih⟩ := ih
    exact ⟨log, .call ih mem known given outcome⟩

/-! ### What holds after an orderly history -/

def SourceHeeds (R : Rules) (source : String) : Prop := ∀ ss, Program.parse source = .ok ss → ∀ s ∈ ss, s.Heeds R

def Engine.Placed (e : Engine) (w : Workspace) : Prop := e.registry = .standard ∧ e.globals.Below w.scopes.size

theorem Engine.Placed.grow {e : Engine} {w w' : Workspace} (placed : e.Placed w) (h : w.scopes.size ≤ w'.scopes.size) :
    e.Placed w' := ⟨placed.1, placed.2.mono h⟩

theorem Engine.compile_of_le {e : Engine} {n m : Nat} (h : n ≤ m) {source : String} {w w' : Workspace} {main : Closure}
    (hn : (e.compile n source).run w = some (.ok main, w')) : (e.compile m source).run w = some (.ok main, w') := by
  obtain ⟨ss, read⟩ := parse_of_compile hn
  have gives := compileUnit_gives_of_le h (gives_of_compile read hn)
  rw [run_compile read, show (compileUnit e.registry m ss e.globals).run w = some (.ok main, w') from gives]

theorem Discipline.Lawful.upholds_source {D : Discipline} (lawful : D.Lawful) {e : Engine} {n : Nat} {source : String}
    {w w' : Workspace} {r : Except Failure Closure} (hw : D.Holds w) (placed : e.Placed w) (heeds : SourceHeeds D.rules source)
    (outcome : (e.compile n source).run w = some (r, w')) :
    D.Holds w' ∧ w.scopes.size ≤ w'.scopes.size ∧
      (∀ main, r = .ok main → main.definition.params = [] ∧ main.captured = [] ∧ main.applied = []) ∧
      ∀ error, r = .error (.compile error) → D.error error := by
  cases read : Program.parse source with
  | error error =>
    unfold Engine.compile at outcome
    rw [read] at outcome
    cases outcome
    exact ⟨hw, Nat.le_refl _, (fun _ h => by cases h), fun _ h => by cases h⟩
  | ok statements =>
    have upheld := lawful.upholds_compileUnit n placed.2 (heeds statements read)
    rw [Engine.run_compile read, placed.1] at outcome
    split at outcome
    · cases outcome
    · rename_i error w₁ hr
      cases outcome
      obtain ⟨hw', grows, -, error'⟩ := upheld _ _ _ hw (Nat.le_refl _) hr
      exact ⟨hw', grows, (fun _ h => by cases h), fun _ h => by cases h; exact error' _ rfl⟩
    · rename_i main w₁ hr
      cases outcome
      obtain ⟨hw', grows, ok, -⟩ := upheld _ _ _ hw (Nat.le_refl _) hr
      exact ⟨hw', grows, (fun _ h => by cases h; exact ok _ rfl), fun _ h => by cases h⟩

/-- **The discipline holds after every orderly history.** -/
theorem Orderly.holds {D : Discipline} (lawful : D.Lawful) {T : Terms} (source : ∀ {s}, T.source s → SourceHeeds D.rules s)
    (host : ∀ {vs name v}, T.host vs name v → D.value name ∧ D.node (.constant v)) {w : Workspace} {es : List Engine}
    {vs : List Value} (past : Orderly T w es vs) : D.Holds w ∧ ∀ e ∈ es, e.Placed w := by
  induction past with
  | start => exact ⟨⟨fun h => by simp [Workspace.scope, Table.empty] at h, fun h => by simp at h⟩, fun _ h => by cases h⟩
  | @engine w _ _ _ settings ih =>
    have grows := (w.extends_addScope .empty).scopes
    refine ⟨ih.1.addScope (fun h => by cases h), List.forall_mem_cons.2 ⟨⟨rfl, ?_⟩, fun e he => (ih.2 e he).grow grows⟩⟩
    intro s hs
    cases List.mem_singleton.1 hs
    simp [Engine.new, Workspace.newEnv, Workspace.addScope]
  | @session w _ _ _ e mem ih =>
    have grows := (w.extends_addScope .empty).scopes
    have placed := ih.2 e mem
    exact ⟨ih.1.addScope (fun h => by cases h),
      List.forall_mem_cons.2 ⟨⟨placed.1, placed.2.childEnv⟩, fun e he => (ih.2 e he).grow grows⟩⟩
  | @define w _ _ _ e mem name v agreed ih =>
    obtain ⟨variable', constant⟩ := host agreed
    refine ⟨ih.1.define _ ⟨variable', .mk ⟨constant, trivial⟩ (fun x hx => by cases hx)⟩, fun e he => (ih.2 e he).grow ?_⟩
    exact (w.size_scopes_define _ _ _).ge
  | store _ _ ih => exact ⟨⟨ih.1.binding, ih.1.body⟩, ih.2⟩
  | refused _ mem agreed outcome ih | compile _ mem agreed outcome ih =>
    obtain ⟨hw', grows, -⟩ := lawful.upholds_source ih.1 (ih.2 _ mem) (source agreed) outcome
    exact ⟨hw', fun e he => (ih.2 e he).grow grows⟩
  | call _ mem _ _ outcome ih =>
    obtain ⟨rfl, -⟩ := Engine.run_of_callAt outcome
    exact ih

end ChainCalc
