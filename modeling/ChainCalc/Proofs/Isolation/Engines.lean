import ChainCalc.Proofs.Evaluation.Schedules
import ChainCalc.Proofs.Isolation.Compile
import ChainCalc.Proofs.Isolation.Evaluation
import ChainCalc.Proofs.Standard.Uniform
import ChainCalc.Server
/-!
# Engines in paired workspaces

Paired engines give the same reply to every message, under every schedule (`Engine.Paired.handleText`).  On one side
alone, a message changes no scope but the session's own (`Engine.touches_of_handleText`), and none at all unless the session
takes it up, that is, unless it asks for a source that compiles (`Engine.extends_of_not_takesUp`).

After every history the workspace is paired with itself: whatever is referred to is there (`History.rooted`).
-/
namespace ChainCalc

structure Engine.Paired (ρ : Pairing) (e e' : Engine) : Prop where
  registry : e'.registry = e.registry
  settings : e'.settings = e.settings
  globals : e.globals.Paired ρ e'.globals
  uniform : e.registry.Uniform

theorem Engine.Paired.mono {ρ ρ' : Pairing} (le : ρ.Le ρ') {e e' : Engine} (h : e.Paired ρ e') : e.Paired ρ' e' :=
  ⟨h.registry, h.settings, h.globals.mono le, h.uniform⟩

namespace Engine

variable {ρ : Pairing} {e e' : Engine} {n : Nat} {w w' : Workspace}

/-! ### The same done on both sides -/

namespace Paired

theorem context (h : e.Paired ρ e') (hw : w.Paired ρ w') : (e.context w).Paired ρ (e'.context w') := by
  refine ⟨hw.store, ?_⟩
  unfold Engine.context
  rw [h.settings]

theorem session (h : e.Paired ρ e') (hw : w.Paired ρ w') :
    ∃ ρ₁ : Pairing, ρ.Le ρ₁ ∧ (e.session w).1.Paired ρ₁ (e'.session w').1 ∧ (e.session w).2.Paired ρ₁ (e'.session w').2 := by
  obtain ⟨ρ₁, le, hw₁, hglobals⟩ := hw.childEnv h.globals
  exact ⟨ρ₁, le, ⟨h.registry, h.settings, hglobals, h.uniform⟩, hw₁⟩

theorem compile (h : e.Paired ρ e') (hw : w.Paired ρ w') (n : Nat) (source : String) :
    Option.Rel (Ended (fun ρ f f' => (Value.function f).Paired ρ (.function f')) ρ) ((e.compile n source).run w)
      ((e'.compile n source).run w') := by
  cases read : Program.parse source with
  | error error =>
    unfold Engine.compile
    rw [read]
    exact .some ⟨ρ, .refl ρ, hw, .error _⟩
  | ok statements =>
    have hrun := hw.compileUnit h.uniform n statements h.globals
    rw [run_compile read, run_compile read, h.registry]
    generalize (compileUnit e.registry n statements e.globals).run w = p at hrun ⊢
    generalize (compileUnit e.registry n statements e'.globals).run w' = q at hrun ⊢
    cases hrun with
    | none => exact .none
    | @some p q hpq =>
      obtain ⟨r, w₁⟩ := p
      obtain ⟨s, w₁'⟩ := q
      obtain ⟨ρ₁, le, hw₁, hrs⟩ := hpq
      cases hrs with
      | ok hmain => exact .some ⟨ρ₁, le, hw₁, .ok hmain⟩
      | error error => exact .some ⟨ρ₁, le, hw₁, .error _⟩

theorem callUnder (h : e.Paired ρ e') (hw : w.Paired ρ w') (s : Schedule) (n : Nat) {f f' : Closure}
    (hf : (Value.function f).Paired ρ (.function f')) {args args' : List Value}
    (hargs : List.Forall₂ (Value.Paired ρ) args args') (site : String) :
    Option.Rel (Ended Value.Paired ρ) ((e.callUnder s n f args site).run w) ((e'.callUnder s n f' args' site).run w') := by
  have hcall : Option.Rel (Concur (Value.Paired ρ)) (s.call w n f args (e.context w) site).run
      (s.call w' n f' args' (e'.context w') site).run := (hw.lawful.underSchedule n).call s hf hargs (h.context hw) rfl
  rw [run_callUnder, run_callUnder]
  generalize (s.call w n f args (e.context w) site).run = p at hcall ⊢
  generalize (s.call w' n f' args' (e'.context w') site).run = q at hcall ⊢
  cases hcall with
  | none => exact .none
  | some hpq =>
    cases hpq with
    | ok hv => exact .some ⟨ρ, .refl ρ, hw, .ok hv⟩
    | error err => exact .some ⟨ρ, .refl ρ, hw, .error _⟩

theorem callAt (h : e.Paired ρ e') (hw : w.Paired ρ w') (n : Nat) {f f' : Closure}
    (hf : (Value.function f).Paired ρ (.function f')) {args args' : List Value}
    (hargs : List.Forall₂ (Value.Paired ρ) args args') (site : String) :
    Option.Rel (Ended Value.Paired ρ) ((e.callAt n f args site).run w) ((e'.callAt n f' args' site).run w') := by
  rw [← callUnder_inOrder, ← callUnder_inOrder]
  exact h.callUnder hw .inOrder n hf hargs site

/-- **Paired engines run a source alike**, under every schedule. -/
theorem runUnder (h : e.Paired ρ e') (hw : w.Paired ρ w') (s : Schedule) (n : Nat) (source : String) :
    Option.Rel (Ended Value.Paired ρ) ((e.runUnder s n source).run w) ((e'.runUnder s n source).run w') := by
  have hcompile := h.compile hw n source
  rw [run_runUnder, run_runUnder]
  generalize (e.compile n source).run w = p at hcompile ⊢
  generalize (e'.compile n source).run w' = q at hcompile ⊢
  cases hcompile with
  | none => exact .none
  | @some p q hpq =>
    obtain ⟨r, w₁⟩ := p
    obtain ⟨r', w₁'⟩ := q
    obtain ⟨ρ₁, le, hw₁, hrs⟩ := hpq
    cases hrs with
    | error failure => exact .some ⟨ρ₁, le, hw₁, .error failure⟩
    | @ok main main' hmain =>
      have hname : main'.definition.name = main.definition.name := by
        cases hmain with
        | plain hplain => cases hplain
        | function hd _ _ => exact hd.name
      have hcall := (h.mono le).callUnder hw₁ s n hmain .nil main.definition.name
      show Option.Rel _ ((e.callUnder s n main [] main.definition.name).run w₁)
        ((e'.callUnder s n main' [] main'.definition.name).run w₁')
      rw [hname]
      exact optionRel_imp (fun _ _ ⟨ρ₂, le₂, hend⟩ => ⟨ρ₂, le.trans le₂, hend⟩) hcall

/-- **Paired engines give the same reply to every message**, and leave paired workspaces. -/
theorem handleText (h : e.Paired ρ e') (hw : w.Paired ρ w') (refusal : String → String) (s : Schedule) (n : Nat)
    (message : String) :
    Option.Rel (fun p q => q.1 = p.1 ∧ ∃ ρ₁ : Pairing, ρ.Le ρ₁ ∧ p.2.Paired ρ₁ q.2)
      (e.handleText refusal s n message w) (e'.handleText refusal s n message w') := by
  have hrun := fun source => h.runUnder hw s n source
  unfold Engine.handleText
  cases Request.parse? message with
  | none => exact .some ⟨rfl, ρ, .refl ρ, hw⟩
  | some request =>
    unfold Engine.handle
    cases request with
    | help name =>
      dsimp only
      rw [h.registry]
      exact .some ⟨rfl, ρ, .refl ρ, hw⟩
    | locality =>
      dsimp only
      rw [h.settings]
      exact .some ⟨rfl, ρ, .refl ρ, hw⟩
    | run id source =>
      have hrun := hrun source
      dsimp only
      generalize (e.runUnder s n source).run w = p at hrun ⊢
      generalize (e'.runUnder s n source).run w' = q at hrun ⊢
      cases hrun with
      | none => exact .none
      | @some p q hpq =>
        obtain ⟨r, w₁⟩ := p
        obtain ⟨r', w₁'⟩ := q
        obtain ⟨ρ₁, le, hw₁, hrs⟩ := hpq
        cases hrs with
        | error failure => exact .some ⟨rfl, ρ₁, le, hw₁⟩
        | ok hv =>
          dsimp only
          rw [hv.payload]
          exact .some ⟨rfl, ρ₁, le, hw₁⟩
    | define name source =>
      have hrun := hrun source
      dsimp only
      generalize (e.runUnder s n source).run w = p at hrun ⊢
      generalize (e'.runUnder s n source).run w' = q at hrun ⊢
      cases hrun with
      | none => exact .none
      | @some p q hpq =>
        obtain ⟨r, w₁⟩ := p
        obtain ⟨r', w₁'⟩ := q
        obtain ⟨ρ₁, le, hw₁, hrs⟩ := hpq
        cases hrs with
        | error failure => exact .some ⟨rfl, ρ₁, le, hw₁⟩
        | ok hv =>
          have hdefined := hw₁.define (h.globals.mono le) name (.value (.constant hv))
          exact .some ⟨rfl, ρ₁, le, hdefined.1⟩

end Paired

/-! ### Something done on one side -/

/-- What is done in a session changes its own scope, and adds. -/
def Touches (e : Engine) (w w' : Workspace) : Prop := ∃ f, (w.updateScope e.globals.here.id f).Extends w'

theorem touches_of_extends (h : w.Extends w') : e.Touches w w' := by
  refine ⟨fun s => s, ?_⟩
  rw [Workspace.updateScope_id]
  exact h

theorem touches_of_compile {source : String} {r : Except Failure Closure} (here : e.globals.here.id < w.scopes.size)
    (h : (e.compile n source).run w = some (r, w')) : e.Touches w w' := by
  cases r with
  | error failure => exact touches_of_extends (extends_of_refused here h)
  | ok main =>
    obtain ⟨statements, read⟩ := parse_of_compile h
    obtain ⟨bs, -, hext⟩ := compileUnit_gives here (gives_of_compile read h)
    exact ⟨_, hext⟩

theorem touches_of_runUnder {s : Schedule} {source : String} {r : Except Failure Value}
    (here : e.globals.here.id < w.scopes.size) (h : (e.runUnder s n source).run w = some (r, w')) : e.Touches w w' := by
  rw [run_runUnder] at h
  split at h
  · cases h
  · rename_i hc
    cases h
    exact touches_of_compile here hc
  · rename_i hc
    obtain rfl := eq_of_callUnder h
    exact touches_of_compile here hc

theorem touches_defineValue (name : String) (v : Value) (h : e.Touches w w') : e.Touches w (e.defineValue name v w') := by
  obtain ⟨f, hext⟩ := h
  refine ⟨(fun s => s.insert name (.value (.constant v))) ∘ f, ?_⟩
  rw [← Workspace.updateScope_updateScope]
  exact (hext.updateBoth _ _).trans (Workspace.extends_define _ _ _ _)

/-- **A message changes no scope but the session's own.** -/
theorem touches_of_handleText {refusal : String → String} {s : Schedule} {message : String} {reply : Reply}
    (here : e.globals.here.id < w.scopes.size) (h : e.handleText refusal s n message w = some (reply, w')) :
    e.Touches w w' := by
  unfold Engine.handleText at h
  split at h
  · unfold Engine.handle at h
    split at h
    · split at h
      · cases h
      · rename_i hr
        cases h
        exact touches_of_runUnder here hr
      · rename_i hr
        cases h
        exact touches_of_runUnder here hr
    · split at h
      · cases h
      · rename_i hr
        cases h
        exact touches_defineValue _ _ (touches_of_runUnder here hr)
      · rename_i hr
        cases h
        exact touches_of_runUnder here hr
    · cases h
      exact touches_of_extends (.refl w)
    · cases h
      exact touches_of_extends (.refl w)
  · cases h
    exact touches_of_extends (.refl w)

end Engine

def Request.source? : Request → Option String
  | .run _ source => some source
  | .define _ source => some source
  | .help _ => none
  | .locality => none

/-- **The session takes a message up**: it is a request to run a source, and the source compiles. -/
def Engine.takesUp (session : Engine) (n : Nat) (message : String) (w : Workspace) : Bool :=
  match (Request.parse? message).bind Request.source? with
  | none => false
  | some source =>
    match (session.compile n source).run w with
    | some (.ok _, _) => true
    | _ => false

namespace Engine

variable {e : Engine} {n : Nat} {w w' : Workspace}

/-- **A message that is not taken up leaves no trace.** -/
theorem extends_of_not_takesUp {refusal : String → String} {s : Schedule} {message : String} {reply : Reply}
    (here : e.globals.here.id < w.scopes.size) (not : e.takesUp n message w = false)
    (h : e.handleText refusal s n message w = some (reply, w')) : w.Extends w' := by
  have refused : ∀ source, (Request.parse? message).bind Request.source? = some source → ∀ r w₁,
      (e.runUnder s n source).run w = some (r, w₁) → w.Extends w₁ ∧ ∃ failure, r = .error failure := by
    intro source hsource r w₁ hr
    unfold Engine.takesUp at not
    rw [hsource] at not
    dsimp only at not
    rw [run_runUnder] at hr
    cases hc : (e.compile n source).run w with
    | none =>
      rw [hc] at hr
      cases hr
    | some p =>
      obtain ⟨r', w₂⟩ := p
      rw [hc] at not hr
      cases r' with
      | ok main => cases not
      | error failure =>
        cases hr
        exact ⟨extends_of_refused here hc, failure, rfl⟩
  unfold Engine.handleText at h
  cases hm : Request.parse? message with
  | none =>
    rw [hm] at h
    cases h
    exact .refl w
  | some request =>
    rw [hm] at h refused
    dsimp only at h
    unfold Engine.handle at h
    cases request with
    | help name =>
      cases h
      exact .refl w
    | locality =>
      cases h
      exact .refl w
    | run id source =>
      dsimp only at h
      split at h
      · cases h
      · rename_i hr
        obtain ⟨-, failure, hf⟩ := refused source rfl _ _ hr
        cases hf
      · rename_i hr
        cases h
        exact (refused source rfl _ _ hr).1
    | define name source =>
      dsimp only at h
      split at h
      · cases h
      · rename_i hr
        obtain ⟨-, failure, hf⟩ := refused source rfl _ _ hr
        cases hf
      · rename_i hr
        cases h
        exact (refused source rfl _ _ hr).1

end Engine

/-! ### Histories -/

def Pairing.none : Pairing :=
  ⟨fun _ _ => False, fun _ _ => False, fun _ => False, fun h => h.elim, fun h => h.elim, fun h => h.elim⟩

theorem Value.Paired.of_given {ρ : Pairing} {vs : List Value} (h : ∀ v ∈ vs, v.Paired ρ v) {v : Value} (given : Given vs v) :
    v.Paired ρ v := given.elim .plain (h v)

/-- **After every history the workspace is paired with itself**, and with it the engines and the values handed out: the
two sides of the pairing are the same run. -/
theorem History.rooted {w : Workspace} {es : List Engine} {vs : List Value} {log : List Event} (past : History w es vs log) :
    ∃ ρ : Pairing, w.Paired ρ w ∧ (∀ e ∈ es, e.Paired ρ e) ∧ ∀ v ∈ vs, v.Paired ρ v := by
  induction past with
  | start =>
    refine ⟨.none, ⟨fun h => h.elim, fun h => h.elim, fun h => h.elim, fun h => h.elim, fun h => h.elim, .none⟩,
      fun _ h => ?_, fun _ h => ?_⟩
    · cases h
    · cases h
  | engine past settings ih =>
    obtain ⟨ρ, hw, hes, hvs⟩ := ih
    have hempty : ∀ ρ₁ : Pairing, ρ.Le ρ₁ → (Table.empty : Scope).Parallel (Binding.Paired ρ₁) .empty := fun _ _ => .nil
    obtain ⟨ρ₁, le, hnew, hw₁⟩ := hw.addScope hempty
    refine ⟨ρ₁, hw₁, List.forall_mem_cons.2 ⟨?_, fun e he => (hes e he).mono le⟩, fun v hv => (hvs v hv).mono le⟩
    exact ⟨rfl, rfl, .cons ⟨hnew, rfl⟩ .nil, Registry.uniform_standard⟩
  | session past mem ih =>
    obtain ⟨ρ, hw, hes, hvs⟩ := ih
    obtain ⟨ρ₁, le, hsession, hw₁⟩ := (hes _ mem).session hw
    exact ⟨ρ₁, hw₁, List.forall_mem_cons.2 ⟨hsession, fun e he => (hes e he).mono le⟩, fun v hv => (hvs v hv).mono le⟩
  | define past mem name given ih =>
    obtain ⟨ρ, hw, hes, hvs⟩ := ih
    have hv := Value.Paired.of_given hvs given
    exact ⟨ρ, (hw.define (hes _ mem).globals name (.value (.constant hv))).1, hes, hvs⟩
  | store past store given ih =>
    obtain ⟨ρ, hw, hes, hvs⟩ := ih
    refine ⟨ρ, ⟨hw.scopes, hw.scope, hw.bodies, hw.body, hw.foreign, ?_⟩, hes, hvs⟩
    cases store with
    | none => exact .none
    | some s =>
      refine .some (fun key => ?_)
      cases hv : s.get? key with
      | none => exact .none
      | some v => exact .some (Value.Paired.of_given hvs (given s rfl key v hv))
  | @refused _ _ _ _ _ past e mem n source failure outcome ih =>
    obtain ⟨ρ, hw, hes, hvs⟩ := ih
    have hend := (hes e mem).compile hw n source
    rw [outcome] at hend
    obtain ⟨ρ₁, le, hw₁, -⟩ := Option.rel_some_some.1 hend
    exact ⟨ρ₁, hw₁, fun e he => (hes e he).mono le, fun v hv => (hvs v hv).mono le⟩
  | @compile _ _ _ _ _ past e mem n source statements main read outcome ih =>
    obtain ⟨ρ, hw, hes, hvs⟩ := ih
    have hend := (hes e mem).compile hw n source
    rw [outcome] at hend
    obtain ⟨ρ₁, le, hw₁, ⟨hmain⟩⟩ := Option.rel_some_some.1 hend
    exact ⟨ρ₁, hw₁, fun e he => (hes e he).mono le, List.forall_mem_cons.2 ⟨hmain, fun v hv => (hvs v hv).mono le⟩⟩
  | failed past mem outcome ih =>
    obtain ⟨rfl, -⟩ := Engine.run_of_callAt outcome
    exact ih
  | @call _ _ _ _ _ past e mem n f args site v known given outcome ih =>
    obtain ⟨ρ, hw, hes, hvs⟩ := ih
    have hargs := List.forall₂_same.2 (fun a ha => Value.Paired.of_given hvs (given a ha))
    have hend := (hes e mem).callAt hw n (hvs _ known) hargs site
    rw [outcome] at hend
    obtain ⟨ρ₁, le, hw₁, ⟨hv⟩⟩ := Option.rel_some_some.1 hend
    exact ⟨ρ₁, hw₁, fun e he => (hes e he).mono le, List.forall_mem_cons.2 ⟨hv, fun v hv => (hvs v hv).mono le⟩⟩

end ChainCalc
