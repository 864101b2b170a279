import ChainCalc.Proofs.Addressing.Layout
import ChainCalc.Proofs.Evaluation.Steps
import ChainCalc.Proofs.Isolation.Workspaces
/-!
# Evaluation in paired workspaces

Paired nodes are evaluated alike in paired workspaces: both run out of steps, or both meet the same error, or their
values are paired (`Workspace.Paired.lawful`).
-/
namespace ChainCalc

/-! ### Frames and contexts -/

structure Context.Paired (ρ : Pairing) (c c' : Context) : Prop where
  store : Option.Rel (Store.Paired ρ) c.store c'.store
  rest : c' = { c with store := c'.store }

section

variable {ρ : Pairing} {frame frame' : Frame} {ctx ctx' : Context}

theorem Activation.Paired.same {a a' : Activation} (h : a.Paired ρ a') :
    a'.depth = a.depth ∧ List.Forall₂ (Value.Paired ρ) a.args a'.args := by
  cases h with
  | mk depth given => exact ⟨rfl, given⟩

theorem paired_close (hframe : List.Forall₂ (Activation.Paired ρ) frame frame') {d d' : Definition} (hd : d.Paired ρ d') :
    (close d frame).Paired ρ (close d' frame') := by
  unfold close
  rw [hd.depth]
  exact .function hd (Frame.truncate_forall₂ (fun h => h.same.1) hframe _) .nil

namespace Context.Paired

variable (hctx : ctx.Paired ρ ctx')

include hctx

theorem error (primitive : String) (fault : Fault) : ctx'.error primitive fault = ctx.error primitive fault := by
  rw [hctx.rest]
  rfl

theorem fail {α β : Type} {R : α → β → Prop} (primitive : String) (fault : Fault) :
    Run.Agrees R (Run.fail ctx primitive fault) (Run.fail ctx' primitive fault) := by
  unfold Run.fail
  rw [hctx.error]
  exact Run.agrees_ofExcept (.error _)

theorem push (name site : String) : Concur (Context.Paired ρ) (ctx.push name site) (ctx'.push name site) := by
  have hmax : ctx'.maxCallDepth = ctx.maxCallDepth := by rw [hctx.rest]
  have hdepth : ctx'.depth = ctx.depth := by rw [hctx.rest]; rfl
  have hstack : ctx'.stack = ctx.stack := by rw [hctx.rest]
  unfold Context.push
  rw [hctx.error, hmax, hdepth, hstack]
  split
  · exact .error _
  · refine .ok ⟨hctx.store, ?_⟩
    conv_lhs => rw [hctx.rest]

theorem locality : ctx'.locality = ctx.locality := by rw [hctx.rest]

end Context.Paired

end

/-! ### Nodes, applications and calls -/

def Pairing.tandem (ρ : Pairing) : Tandem where
  value := Value.Paired ρ
  context := Context.Paired ρ
  node x frame ctx x' frame' ctx' := x.Paired ρ x' ∧ List.Forall₂ (Activation.Paired ρ) frame frame' ∧ ctx.Paired ρ ctx'
  text := Eq

namespace Workspace.Paired

variable {ρ : Pairing} {w w' : Workspace} (hw : w.Paired ρ w')

include hw

/-- **Paired nodes go abreast.** -/
theorem abreast {frame frame' : Frame} {ctx ctx' : Context} (hframe : List.Forall₂ (Activation.Paired ρ) frame frame')
    (hctx : ctx.Paired ρ ctx') {x x' : Node} (hx : x.Paired ρ x') :
    ρ.tandem.Abreast .agrees w w' frame ctx frame' ctx' x x' := by
  have all : ∀ {xs xs' : List Node}, List.Forall₂ (Node.Paired ρ) xs xs' →
      List.Forall₂ (fun x x' => ρ.tandem.node x frame ctx x' frame' ctx') xs xs' :=
    fun h => h.imp (fun _ _ hx => ⟨hx, hframe, hctx⟩)
  have argument : ∀ name depth index, Run.Agrees (Value.Paired ρ) (argument name depth index frame ctx)
      (argument name depth index frame' ctx') := fun name depth index =>
    Tandem.argument_holds (T := ρ.tandem) (C := .agrees) (hctx.fail name)
      (Frame.arg?_forall₂ Activation.Paired.same hframe depth index)
  have bound : ∀ name {env env' : Env}, env.Paired ρ env' →
      Option.Rel (ρ.tandem.Bound .agrees w' frame ctx frame' ctx' name) (w.lookup env name) (w'.lookup env' name) := by
    refine fun name env env' henv => optionRel_imp (fun b b' hb => ?_) (hw.lookup henv name)
    cases hb with
    | value hx => exact .value ⟨hx, hframe, hctx⟩
    | function hd => exact .function (paired_close hframe hd)
    | param depth index => exact .param (argument name depth index)
  cases hx with
  | constant value => exact .leaf (fun _ _ => Run.agrees_pure value)
  | param name depth index => exact .leaf (fun _ _ => argument name depth index)
  | kernel name label uniform operands => exact .kernel (all operands) rfl (fun vs vs' hvs => uniform ρ vs vs' hvs)
  | conditional label condition yes no =>
    exact .conditional ⟨condition, hframe, hctx⟩ ⟨yes, hframe, hctx⟩ ⟨no, hframe, hctx⟩
  | sequence label items => exact .sequence (all items)
  | lambda body body' definition => exact .leaf (fun _ _ => Run.agrees_pure (paired_close hframe definition))
  | functionRef name henv => exact .functionRef (bound name henv)
  | invoke name site henv args => exact .invoke (bound name henv) (all args) rfl
  | apply site callee args => exact .apply ⟨callee, hframe, hctx⟩ callee.name.symm (all args) rfl
  | worker query label => exact .worker
  | fetch label key => exact .fetch ⟨key, hframe, hctx⟩ hctx.store

/-- **Paired functions are entered alike.** -/
theorem entered {f f' : Closure} (hf : (Value.function f).Paired ρ (.function f')) : ρ.tandem.Entered w w' f f' := by
  cases hf with
  | plain h => cases h
  | function hd captures given =>
    refine ⟨hd.name.symm, by rw [hd.params], given, fun vs vs' hvs => .function hd captures hvs, fun vs vs' hvs => ?_⟩
    refine optionRel_imp (fun x x' hx inner inner' hinner => ⟨hx, ?_, hinner⟩) (hw.body hd.id)
    rw [hd.depth]
    exact .cons (.mk _ hvs) captures

/-- **In paired workspaces what is paired goes in step.** -/
theorem lawful : ρ.tandem.Lawful .agrees w w' where
  shape h := by
    cases h with
    | plain plain => exact .inl ⟨rfl, plain⟩
    | function _ _ _ => exact .inr ⟨_, _, rfl, rfl⟩
  plain := .plain
  text _ := rfl
  fail hctx text fault := by
    cases text
    exact hctx.fail _ fault
  push hctx named called := by
    cases named
    cases called
    exact Run.agrees_ofExcept (hctx.push _ _)
  locality hctx := Context.Paired.locality hctx
  context h := h.2.2
  node h := hw.abreast h.2.1 h.2.2 h.1
  call hf := hw.entered hf

end Workspace.Paired

end ChainCalc
