import ChainCalc.Proofs.Addressing.Evaluation
import ChainCalc.Proofs.Compile.Acceptance
import ChainCalc.Proofs.Inlining.Relation
/-!
# Evaluation of inlined code

Inlined nodes in inlined frames come to the same end: to inlined values, or to errors with the same fault
(`Workspace.Inlined.lawful`).  The first side has one call more under way, so it may be stopped where the second is not.

Where a name has come to stand for a parameter of the body, the first side looks up an argument, and the second evaluates a
constant, which takes a step.  So what the second side gives in as many steps the first gives too, and what the first side
gives the second gives in one step more.
-/
namespace ChainCalc

/-! ### Runs side by side -/

def Fault.isOverflow : Fault → Bool
  | .stackOverflow _ => true
  | _ => false

def EvalError.Stops (e : EvalError) : Prop := e.fault.isOverflow = true ∨ e.fault.isAddressing = true

/-- **Two ends that tell the same**: related results, or errors with the same fault.  Nothing is said if the first
evaluation was stopped. -/
inductive Tallies {α β : Type} (R : α → β → Prop) : Except EvalError α → Except EvalError β → Prop
  | ok {a : α} {b : β} (h : R a b) : Tallies R (.ok a) (.ok b)
  | error {e e' : EvalError} (fault : e'.fault = e.fault) : Tallies R (.error e) (.error e')
  | stopped {e : EvalError} (stops : e.Stops) (s : Except EvalError β) : Tallies R (.error e) s

/-- **The first run ends like the second**: whenever the second one does, and as the third one does if it was not stopped. -/
structure Run.Inlines {α β : Type} (R : α → β → Prop) (x : Run α) (y y' : Run β) : Prop where
  back : ∀ s, y.run = some s → ∃ r, x.run = some r ∧ Tallies R r s
  forth : ∀ r, x.run = some r → (∃ e, r = .error e ∧ e.Stops) ∨ ∃ s, y'.run = some s ∧ Tallies R r s

namespace Run

variable {α β γ δ : Type} {R : α → β → Prop} {S : γ → δ → Prop}

theorem inlines_outOfSteps (y' : Run β) : Inlines R (outOfSteps : Run α) outOfSteps y' :=
  ⟨(fun _ h => by cases h), fun _ h => by cases h⟩

theorem inlines_ofExcept {r : Except EvalError α} {s : Except EvalError β} (h : Tallies R r s) :
    Inlines R (ofExcept r) (ofExcept s) (ofExcept s) := by
  constructor
  · intro s' hs
    cases hs
    exact ⟨r, rfl, h⟩
  · intro r' hr
    cases hr
    exact .inr ⟨s, rfl, h⟩

theorem inlines_pure {a : α} {b : β} (h : R a b) : Inlines R (pure a) (pure b) (pure b) := inlines_ofExcept (.ok h)

theorem inlines_fail (ctx ctx' : Context) (primitive primitive' : String) (fault : Fault) :
    Inlines R (fail ctx primitive fault : Run α) (fail ctx' primitive' fault) (fail ctx' primitive' fault) :=
  inlines_ofExcept (.error rfl)

theorem inlines_stopped (ctx : Context) (primitive : String) {fault : Fault} (h : fault.isAddressing = true) (y y' : Run β) :
    Inlines R (fail ctx primitive fault : Run α) y y' := by
  constructor
  · exact fun s _ => ⟨_, rfl, .stopped (.inr h) s⟩
  · intro r hr
    cases hr
    exact .inl ⟨_, rfl, .inr h⟩

theorem Inlines.bind {x : Run α} {y y' : Run β} {f : α → Run γ} {g g' : β → Run δ} (hxy : Inlines R x y y')
    (hfg : ∀ a b, R a b → Inlines S (f a) (g b) (g' b)) : Inlines S (x >>= f) (y >>= g) (y' >>= g') := by
  constructor
  · intro s hs
    -- the second run has ended, so its first half has, and the first half of the first run with it
    have half : ∃ s₁, y.run = some s₁ := by
      cases hy : y.run with
      | none => rw [run_bind, hy] at hs; cases hs
      | some s₁ => exact ⟨s₁, rfl⟩
    obtain ⟨s₁, hy⟩ := half
    obtain ⟨r₁, hx, tallies⟩ := hxy.back s₁ hy
    rw [run_bind, hy] at hs
    rw [run_bind, hx]
    cases tallies with
    | ok hab => exact (hfg _ _ hab).back s hs
    | error fault =>
      cases hs
      exact ⟨_, rfl, .error fault⟩
    | stopped stops => exact ⟨_, rfl, .stopped stops s⟩
  · intro r hr
    have half : ∃ r₁, x.run = some r₁ := by
      cases hx : x.run with
      | none => rw [run_bind, hx] at hr; cases hr
      | some r₁ => exact ⟨r₁, rfl⟩
    obtain ⟨r₁, hx⟩ := half
    rw [run_bind, hx] at hr
    rcases hxy.forth r₁ hx with ⟨e, rfl, stops⟩ | ⟨s₁, hy, tallies⟩
    · cases hr
      exact .inl ⟨e, rfl, stops⟩
    · rw [run_bind, hy]
      cases tallies with
      | ok hab => exact (hfg _ _ hab).forth r hr
      | error fault =>
        cases hr
        exact .inr ⟨_, rfl, .error fault⟩
      | stopped stops =>
        cases hr
        exact .inl ⟨_, rfl, stops⟩

def Comparison.inlines : Comparison where
  Holds R x y := Inlines R x (y 0) (y 1)
  stopped h := by
    rw [h]
    exact inlines_outOfSteps _
  result := inlines_pure
  bind := Inlines.bind

end Run

/-! ### Workspaces and contexts -/

section

variable (ι : Inlining)

/-- **Two workspaces that were reached by compiling inlined code**: what was there before is there on both sides, and what
is new is inlined under the same numbers. -/
structure Workspace.Inlined (w w' : Workspace) : Prop where
  left : ι.workspace.Extends w
  right : ι.workspace.Extends w'
  scopes : w'.scopes.size = w.scopes.size
  bodies : w'.bodies.size = w.bodies.size
  scope : ∀ i, ι.workspace.scopes.size ≤ i → (w.scope i).Parallel (Binding.Inlined ι true) (w'.scope i)
  body : ∀ i, ι.workspace.bodies.size ≤ i → Option.Rel (Node.Inlined ι true) (w.bodies[i]?).join (w'.bodies[i]?).join

structure Context.Inlined (ctx ctx' : Context) : Prop where
  fits : ctx.Fits ι.world ι.workspace
  store : ctx'.store = ctx.store
  locality : ctx'.locality = ctx.locality
  limit : ctx'.maxCallDepth = ctx.maxCallDepth
  depth : ctx'.depth ≤ ctx.depth

end

open Run

section

variable {ι : Inlining} {w w' : Workspace} {inside : Bool} {ctx ctx' : Context} {frame frame' : Frame}

namespace Workspace.Inlined

variable (hw : w.Inlined ι w')

include hw

theorem lookup_inside {env env' : Env} (henv : env.Inlined ι env') (name : String) :
    Option.Rel (Binding.Inlined ι true) (w.lookup env name) (w'.lookup env' name) := by
  have old : Option.Rel (Binding.Inlined ι true) (w.lookup ι.env name) (w'.lookup ι.env name) := by
    have within : ι.env.Within ι.workspace := ι.ok.placed ι.env ι.live
    rw [hw.left.lookup within, hw.right.lookup within]
    exact ι.lookup_old ι.live (fun _ => Nat.le_refl _) name
  -- from the inside out: a scope of the body, or else what is around it
  have step : ∀ {env env' : Env} {s s' : ScopeRef}, s'.id = s.id → ι.workspace.scopes.size ≤ s.id →
      Option.Rel (Binding.Inlined ι true) (w.lookup env name) (w'.lookup env' name) →
      Option.Rel (Binding.Inlined ι true) (w.lookup ⟨s, env.path⟩ name) (w'.lookup ⟨s', env'.path⟩ name) := by
    intro env env' s s' same new around
    rw [lookup_inner, lookup_inner, same]
    have found := (hw.scope s.id new).get? name
    generalize (w.scope s.id).get? name = b at found ⊢
    generalize (w'.scope s.id).get? name = b' at found ⊢
    cases found with
    | some hb => exact .some hb
    | none => exact around
  induction henv with
  | body => exact step rfl (Nat.le_refl _) old
  | inner new _ _ ih => exact step rfl new ih

/-- **A name stands for inlined things.** -/
theorem lookup {env env' : Env} (reached : env.Reached ι inside env') (name : String) :
    Option.Rel (Binding.Inlined ι inside) (w.lookup env name) (w'.lookup env' name) := by
  cases reached with
  | outside live shallow =>
    have within : env.Within ι.workspace := ι.ok.placed env live
    rw [hw.left.lookup within, hw.right.lookup within]
    exact ι.lookup_old live shallow name
  | inside here inlined =>
    subst here
    exact hw.lookup_inside inlined name

/-- **The bodies of inlined functions are inlined.** -/
theorem body? {d d' : Definition} (hd : d.Inlined ι inside d') :
    Option.Rel (Node.Inlined ι inside) (w.body? d) (w'.body? d') := by
  cases hd with
  | outside home =>
    obtain ⟨body, known, inlined⟩ := ι.body_old home
    have there := (ι.ok.homes _ _ home).2.2
    unfold Workspace.body? at known ⊢
    rw [hw.left.body _ there, hw.right.body _ there, known]
    exact .some inlined
  | inside new _ => exact hw.body _ new

end Workspace.Inlined

namespace Context.Inlined

variable (hctx : ctx.Inlined ι ctx')

include hctx

theorem push (name name' site site' : String) : Tallies (Context.Inlined ι) (ctx.push name site) (ctx'.push name' site') := by
  have depth := hctx.depth
  unfold Context.push
  rw [hctx.limit]
  by_cases full : ctx.maxCallDepth < ctx.depth + 1
  · rw [if_pos full]
    exact .stopped (.inl rfl) _
  · rw [if_neg full, if_neg (by omega)]
    refine .ok ⟨hctx.fits, hctx.store, hctx.locality, rfl, ?_⟩
    show ctx'.depth + 1 ≤ ctx.depth + 1
    omega

theorem stored : Option.Rel (fun s s' : Store => ∀ key, Option.Rel (Value.Inlined ι) (s.get? key) (s'.get? key)) ctx.store
    ctx'.store := by
  rw [hctx.store]
  cases stored : ctx.store with
  | none => exact .none
  | some s =>
    refine .some (fun key => ?_)
    cases found : s.get? key with
    | none => exact .none
    | some u => exact .some (hctx.fits s stored key u found).inlined

end Context.Inlined

theorem inlines_argument (hframe : Frame.Inlined ι inside frame frame') (name : String) {depth : Nat} (index : Nat)
    (shallow : inside = true → depth ≤ ι.depth) :
    Inlines (Value.Inlined ι) (argument name depth index frame ctx) (argument name depth index frame' ctx')
      (argument name depth index frame' ctx') := by
  have found : Option.Rel (Value.Inlined ι) (frame.arg? depth index) (frame'.arg? depth index) := by
    cases inside with
    | false =>
      obtain ⟨pointwise⟩ := hframe
      exact Frame.arg?_forall₂ Activation.Inlined.same pointwise depth index
    | true => exact Frame.arg?_shallow (shallow rfl) index hframe
  unfold argument
  generalize frame.arg? depth index = v at found ⊢
  generalize frame'.arg? depth index = v' at found ⊢
  cases found with
  | some hv => exact inlines_pure hv
  | none => exact inlines_fail _ _ _ _ _

theorem inlines_argument_deeper (hframe : Frame.Inlined ι true frame frame') (name : String) {depth : Nat} (index : Nat)
    (deep : ι.depth < depth) :
    Inlines (Value.Inlined ι) (argument name (depth + 1) index frame ctx) (argument name depth index frame' ctx')
      (argument name depth index frame' ctx') := by
  have found := Frame.arg?_deep deep index hframe
  unfold argument
  cases hv : frame.arg? (depth + 1) index with
  | none => exact inlines_stopped _ _ rfl _ _
  | some v =>
    obtain ⟨v', hv', inlined⟩ := found v hv
    rw [hv']
    exact inlines_pure inlined

theorem argument_own (hframe : Frame.Inlined ι true frame frame') (name : String) {index : Nat} {v : Value}
    (given : ι.args[index]? = some v) (ctx : Context) : argument name (ι.depth + 1) index frame ctx = pure v := by
  unfold argument
  rw [Frame.arg?_own index hframe, given]

theorem Inlining.arg_inlined {index : Nat} {v : Value} (given : ι.args[index]? = some v) : v.Inlined ι v :=
  (ι.sound v (List.mem_of_getElem? given)).inlined

/-! ### Nodes, applications and calls -/

def Inlining.tandem (ι : Inlining) : Tandem where
  value := Value.Inlined ι
  context := Context.Inlined ι
  node x frame ctx x' frame' ctx' :=
    ∃ inside, x.Inlined ι inside x' ∧ Frame.Inlined ι inside frame frame' ∧ ctx.Inlined ι ctx'
  text _ _ := True

theorem inlines_constant {v : Value} (hv : v.Inlined ι v) (s : Schedule) (n : Nat) :
    Inlines (Value.Inlined ι) (pure v) (s.eval w' n (.constant v) frame' ctx') (s.eval w' (n + 1) (.constant v) frame' ctx') := by
  cases n with
  | zero => exact ⟨(fun _ h => by cases h), (inlines_pure hv).forth⟩
  | succ n => exact inlines_pure hv

namespace Workspace.Inlined

variable (hw : w.Inlined ι w')

include hw

/-- **What a name has come to stand for.** -/
theorem bound (hframe : Frame.Inlined ι inside frame frame') (hctx : ctx.Inlined ι ctx') (name : String) {env env' : Env}
    (reached : env.Reached ι inside env') :
    Option.Rel (ι.tandem.Bound .inlines w' frame ctx frame' ctx' name) (w.lookup env name) (w'.lookup env' name) := by
  refine optionRel_imp (fun b b' hb => ?_) (hw.lookup reached name)
  cases hb with
  | value node => exact .value ⟨inside, node, hframe, hctx⟩
  | function definition => exact .function (inlined_close definition hframe)
  | param index shallow => exact .param (inlines_argument hframe name index shallow)
  | deeper index here deep =>
    subst here
    exact .param (inlines_argument_deeper hframe name index deep)
  | own here given =>
    subst here
    refine .become (fun s n => ?_)
    rw [argument_own hframe name given ctx]
    exact inlines_constant (ι.arg_inlined given) s n

/-- **Inlined nodes go abreast.** -/
theorem abreast {x x' : Node} (hx : x.Inlined ι inside x') (hframe : Frame.Inlined ι inside frame frame')
    (hctx : ctx.Inlined ι ctx') : ι.tandem.Abreast .inlines w w' frame ctx frame' ctx' x x' := by
  have here : ∀ {y y' : Node}, y.Inlined ι inside y' → ι.tandem.node y frame ctx y' frame' ctx' :=
    fun hy => ⟨inside, hy, hframe, hctx⟩
  have all : ∀ {xs xs' : List Node}, List.Forall₂ (Node.Inlined ι inside) xs xs' →
      List.Forall₂ (fun y y' => ι.tandem.node y frame ctx y' frame' ctx') xs xs' := fun h => h.imp (fun _ _ => here)
  cases hx with
  | constant value => exact .leaf (fun _ _ => inlines_pure value)
  | param name index shallow => exact .leaf (fun _ _ => inlines_argument hframe name index shallow)
  | deeper name index inner deep =>
    subst inner
    exact .leaf (fun _ _ => inlines_argument_deeper hframe name index deep)
  | own name inner given =>
    subst inner
    refine .leaf (fun _ _ => ?_)
    show Inlines _ (argument name (ι.depth + 1) _ frame ctx) _ _
    rw [argument_own hframe name given ctx]
    exact inlines_pure (ι.arg_inlined given)
  | @kernel name label _ _ compute known operands =>
    refine .kernel (all operands) trivial (fun vs vs' hvs => ?_)
    rw [Standard.same_of_isKernel (Value.counterparts_inlined ι).unseen known hvs]
    cases hc : compute vs with
    | ok v => exact .ok (.plain ((Standard.plain_of_isKernel known vs).1 v hc))
    | error fault => exact .error fault
  | conditional label condition yes no => exact .conditional (here condition) (here yes) (here no)
  | sequence label items => exact .sequence (all items)
  | lambda body body' definition => exact .leaf (fun _ _ => inlines_pure (inlined_close definition hframe))
  | functionRef name reached => exact .functionRef (hw.bound hframe hctx name reached)
  | invoke name site reached args => exact .invoke (hw.bound hframe hctx name reached) (all args) trivial
  | apply site callee args => exact .apply (here callee) trivial (all args) trivial
  | worker query label => exact .worker
  | fetch label key => exact .fetch (here key) hctx.stored

/-- **Inlined functions are entered alike.** -/
theorem entered {f f' : Closure} (hf : (Value.function f).Inlined ι (.function f')) : ι.tandem.Entered w w' f f' := by
  cases hf with
  | plain h => cases h
  | @function inside _ _ _ _ _ _ hd hcaptured happlied =>
    refine ⟨trivial, by rw [hd.params], happlied, fun vs vs' hvs => .function hd hcaptured hvs, fun vs vs' hvs => ?_⟩
    refine optionRel_imp (fun x x' hx inner inner' hinner => ⟨inside, hx, ?_, hinner⟩) (hw.body? hd)
    cases hd with
    | outside home =>
      obtain ⟨pointwise⟩ := hcaptured
      exact .outside (.cons (.mk _ hvs) pointwise)
    | inside new deep => exact .enter deep hvs hcaptured

/-- **Inlined code goes in step** with what it was made from. -/
theorem lawful : ι.tandem.Lawful .inlines w w' where
  shape h := ((Value.counterparts_inlined ι).shape h).imp_right (fun ⟨f, f', hv, hv', _⟩ => ⟨f, f', hv, hv'⟩)
  plain := .plain
  text _ := trivial
  fail _ _ := inlines_fail _ _ _ _
  push hctx _ _ := inlines_ofExcept (Context.Inlined.push hctx _ _ _ _)
  locality hctx := Context.Inlined.locality hctx
  context h := by
    obtain ⟨_, -, -, hctx⟩ := h
    exact hctx
  node h := by
    obtain ⟨inside, hx, hframe, hctx⟩ := h
    exact hw.abreast hx hframe hctx
  call := hw.entered

end Workspace.Inlined

end

end ChainCalc
