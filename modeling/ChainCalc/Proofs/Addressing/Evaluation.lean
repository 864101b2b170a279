import ChainCalc.Proofs.Addressing.Growth
import ChainCalc.Proofs.Evaluation.Steps
/-!
# Evaluation stays inside its layouts

An addressed node evaluated among activations that cover its layout gives a sound value, or an error that is none of
addressing (`World.Ok.sound`); the proof counts the steps of evaluation down and treats nodes, applications and calls at once.
`Visits` relates a node to every node that is evaluated on its behalf, in the frame it is evaluated in; each of those
frames covers what its node was compiled for (`Visits.placed`).
-/
namespace ChainCalc

/-! ### Outcomes -/

namespace Run

variable {α β : Type} {E : Fault → Prop}

def Ends (E : Fault → Prop) (x : Run α) (P : α → Prop) : Prop :=
  (∀ a, x.run = some (.ok a) → P a) ∧ ∀ e, x.run = some (.error e) → E e.fault

abbrev Sound (x : Run α) (P : α → Prop) : Prop := x.Ends (fun f => f.isAddressing = false) P

theorem ends_outOfSteps {P : α → Prop} : (outOfSteps : Run α).Ends E P := by
  constructor
  · intro a h
    cases h
  · intro e h
    cases h

theorem ends_pure {P : α → Prop} {a : α} (h : P a) : (pure a : Run α).Ends E P := by
  constructor
  · intro b hb
    cases hb
    exact h
  · intro e he
    cases he

theorem ends_fail {P : α → Prop} (ctx : Context) (primitive : String) {fault : Fault} (h : E fault) :
    (fail ctx primitive fault : Run α).Ends E P := by
  constructor
  · intro a ha
    cases ha
  · intro e he
    cases he
    exact h

theorem Ends.imp {x : Run α} {P Q : α → Prop} (h : x.Ends E P) (hPQ : ∀ a, P a → Q a) : x.Ends E Q :=
  ⟨fun a ha => hPQ a (h.1 a ha), h.2⟩

theorem Ends.bind {x : Run α} {f : α → Run β} {P : α → Prop} {R : β → Prop} (hx : x.Ends E P)
    (hf : ∀ a, P a → (f a).Ends E R) : (x >>= f).Ends E R := by
  constructor
  · intro b h
    rw [bind_eq_ok] at h
    obtain ⟨a, ha, hb⟩ := h
    exact (hf a (hx.1 a ha)).1 b hb
  · intro e h
    rw [bind_eq_error] at h
    rcases h with h | ⟨a, ha, he⟩
    · exact hx.2 e h
    · exact (hf a (hx.1 a ha)).2 e he

theorem ends_mapM {f : α → Run β} {P : β → Prop} : ∀ {l : List α}, (∀ a ∈ l, (f a).Ends E P) →
    (l.mapM f).Ends E (fun bs => bs.length = l.length ∧ ∀ b ∈ bs, P b)
  | [], _ => by
    rw [List.mapM_nil]
    exact ends_pure ⟨rfl, fun b hb => by cases hb⟩
  | a :: l, h => by
    rw [List.mapM_cons]
    refine (h a List.mem_cons_self).bind (fun b hb => ?_)
    refine (ends_mapM (fun a' ha' => h a' (List.mem_cons_of_mem _ ha'))).bind (fun bs hbs => ends_pure ?_)
    exact ⟨by simp [hbs.1], List.forall_mem_cons.2 ⟨hb, hbs.2⟩⟩

theorem ends_foldlM {f : β → α → Run β} {P : β → Prop} : ∀ {l : List α} {b : β}, P b →
    (∀ a ∈ l, ∀ b, (f b a).Ends E P) → (l.foldlM f b).Ends E P
  | [], b, hb, _ => by
    rw [List.foldlM_nil]
    exact ends_pure hb
  | a :: l, b, hb, h => by
    rw [List.foldlM_cons]
    exact (h a List.mem_cons_self b).bind
      (fun b' hb' => ends_foldlM hb' (fun a' ha' => h a' (List.mem_cons_of_mem _ ha')))

section

variable (faults : ∀ {f : Fault}, f.isInternal = false → f.isAddressing = false → E f)

include faults

theorem ends_fetchFrom {ctx : Context} {P : Value → Prop}
    (stored : ∀ s, ctx.store = some s → ∀ key v, s.get? key = some v → P v) (v : Value) : (fetchFrom ctx v).Ends E P := by
  unfold fetchFrom
  split
  · split
    · exact ends_fail _ _ (faults rfl rfl)
    · rename_i store hstore
      split
      · rename_i v hv
        exact ends_pure (stored store hstore _ v hv)
      · exact ends_fail _ _ (faults rfl rfl)
  · exact ends_fail _ _ (faults rfl rfl)

theorem ends_push (ctx : Context) (name site : String) :
    (Run.ofExcept (ctx.push name site)).Ends E (fun inner => inner.store = ctx.store) := by
  constructor
  · intro inner h
    exact Context.store_of_push (Option.some.inj h)
  · intro e h
    obtain ⟨-, rfl⟩ := Context.push_eq_error.1 (Option.some.inj h)
    exact faults rfl rfl

end

end Run

open Run

/-! ### Frames and contexts -/

section

variable (G : World) (w : Workspace)

structure Frame.Fits (frame : Frame) (L : Layout) : Prop where
  covers : frame.Covers L
  values : ∀ a ∈ frame, ∀ v ∈ a.args, v.Sound G w

def Context.Fits (ctx : Context) : Prop := ∀ s, ctx.store = some s → ∀ key v, s.get? key = some v → v.Sound G w

end

namespace World

variable {Q : Env → Node → Prop} {G : World} {w : Workspace}

section

variable (ok : G.Ok Q (fun _ => False) w)

include ok

/-- **A function made where it is mentioned** captures what its body needs. -/
theorem Ok.close {d : Definition} {env : Env} (home : G.home d env) {L : Layout} (layout : w.layout env.path <+: L)
    {frame : Frame} (fits : frame.Fits G w L) : (close d frame).Sound G w := by
  obtain ⟨live, depth, -⟩ := ok.homes d env home
  have hcut : d.depth - 1 = (w.layout env.path).length := by rw [ok.depth env live, depth, Nat.add_sub_cancel]
  unfold ChainCalc.close
  rw [hcut]
  refine .function home live (fits.covers.truncate layout) (fun a ha => ?_)
    (fun a ha => fits.values a (Frame.mem_truncate ha)) (fun v hv => by cases hv)
  rw [← ok.depth env live]
  exact Frame.depth_le_of_mem_truncate fits.covers.decreasing a ha

/-- A function called with an argument for each parameter: its body, and the frame that it is evaluated in. -/
theorem Ok.enter {f : Closure} (hf : (Value.function f).Sound G w) {args : List Value} (hargs : ∀ v ∈ args, v.Sound G w)
    (full : args.length = f.definition.params.length) :
    ∃ L body, w.body? f.definition = some body ∧ body.Addressed G w Q L ∧
      (Frame.enter f.captured f.definition.depth args).Fits G w L := by
  cases hf with
  | plain h => cases h
  | function home live covers shallow inside given =>
    rename_i d captured applied env
    obtain ⟨body, hbody, addressed⟩ := ok.bodies d env home (fun h => h)
    obtain ⟨-, depth, -⟩ := ok.homes d env home
    refine ⟨_, body, hbody, addressed, ?_, ?_⟩
    · rw [← full]
      show (Frame.enter captured d.depth args).Covers _
      rw [depth, ← ok.depth env live]
      exact covers.enter (fun a ha => by rw [ok.depth env live]; exact shallow a ha) args
    · intro a ha v hv
      rcases List.mem_cons.1 ha with rfl | ha
      · exact hargs v hv
      · exact inside a ha v hv

omit ok in
theorem sound_argument {L : Layout} {frame : Frame} (fits : frame.Fits G w L) {depth index : Nat} (has : L.Has depth index)
    (name : String) (ctx : Context) : (argument name depth index frame ctx).Sound (Value.Sound G w) := by
  obtain ⟨v, hv, a, ha, hmem⟩ := fits.covers.arg? has
  unfold argument
  rw [hv]
  exact ends_pure (fits.values a ha v hmem)

/-- **A name looked up now** is bound to something that can be used. -/
theorem Ok.resolve {L : Layout} {name : String} {env : Env} (names : G.Names w L name env) {frame : Frame}
    (fits : frame.Fits G w L) (ctx : Context) {evaluate : Node → Run Value}
    (sound : ∀ x, x.Addressed G w Q L → (evaluate x).Sound (Value.Sound G w)) :
    (resolve w evaluate name env frame ctx).Sound (Value.Sound G w) := by
  obtain ⟨live, layout, bound⟩ := names
  obtain ⟨b, hb⟩ := Option.isSome_iff_exists.1 bound
  obtain ⟨env₀, live₀, layout₀, hsound⟩ := ok.lookup live hb
  unfold ChainCalc.resolve
  rw [hb]
  cases b with
  | function d => exact ends_pure (ok.close hsound (layout₀.trans layout) fits)
  | value node => exact sound node ((Le.refl G w).addressed (layout₀.trans layout) hsound)
  | param depth index => exact sound_argument fits (Layout.Has.mono (layout₀.trans layout) hsound) name ctx

end

/-! ### The evaluator -/

/-- **Evaluation stays inside its layouts**: nodes, applications and calls, each with one step less than the last. -/
theorem Ok.sound (ok : G.Ok Q (fun _ => False) w) : ∀ n : Nat,
    (∀ {L node frame ctx}, node.Addressed G w Q L → frame.Fits G w L → ctx.Fits G w →
      (eval w n node frame ctx).Sound (Value.Sound G w)) ∧
    (∀ {name callee args ctx site}, callee.Sound G w → (∀ v ∈ args, v.Sound G w) → ctx.Fits G w →
      (applyTo w n name callee args ctx site).Sound (Value.Sound G w)) ∧
    (∀ {f args ctx site}, (Value.function f).Sound G w → (∀ v ∈ args, v.Sound G w) → ctx.Fits G w →
      (call w n f args ctx site).Sound (Value.Sound G w))
  | 0 => by
    refine ⟨fun _ _ _ => ?_, fun _ _ _ => ?_, fun _ _ _ => ?_⟩
    · rw [eval]
      exact ends_outOfSteps
    · rw [applyTo]
      exact ends_outOfSteps
    · rw [call]
      exact ends_outOfSteps
  | n + 1 => by
    obtain ⟨heval, happly, hcall⟩ := ok.sound n
    refine ⟨?_, ?_, ?_⟩
    · rintro L node frame ctx ⟨-, refers, children⟩ fits hctx
      have all : ∀ xs : List Node, (∀ x ∈ xs, x.Addressed G w Q L) →
          (xs.mapM (fun x => eval w n x frame ctx)).Sound (fun vs => ∀ v ∈ vs, v.Sound G w) :=
        fun xs hxs => (ends_mapM (fun x hx => heval (hxs x hx) fits hctx)).imp (fun _ h => h.2)
      rw [eval.eq_def]
      cases node with
      | constant v => exact ends_pure refers
      | param name depth index => exact sound_argument fits refers name ctx
      | kernel name label operands compute =>
        refine (all operands children).bind (fun vs _ => ?_)
        cases hc : compute vs with
        | ok v => exact ends_pure (.plain ((refers vs).1 v hc))
        | error fault => exact ends_fail _ _ ((refers vs).2 fault hc)
      | conditional label condition yes no =>
        refine (heval (children condition (by simp [Node.children])) fits hctx).bind (fun v _ => ?_)
        split
        · exact heval (children yes (by simp [Node.children])) fits hctx
        · exact heval (children no (by simp [Node.children])) fits hctx
        · exact ends_fail _ _ rfl
      | sequence label items =>
        exact ends_foldlM (.plain rfl) (fun x hx _ => heval (children x hx) fits hctx)
      | lambda d body =>
        obtain ⟨env, home, -, layout⟩ := refers
        exact ends_pure (ok.close home layout fits)
      | functionRef name env => exact ok.resolve refers fits ctx (fun x hx => heval hx fits hctx)
      | invoke name site env args =>
        refine (ok.resolve refers fits ctx (fun x hx => heval hx fits hctx)).bind (fun callee hcallee => ?_)
        exact (all args children).bind (fun vs hvs => happly hcallee hvs hctx)
      | apply site callee args =>
        refine (heval (children callee List.mem_cons_self) fits hctx).bind (fun f hf => ?_)
        exact (all args (fun x hx => children x (List.mem_cons_of_mem _ hx))).bind (fun vs hvs => happly hf hvs hctx)
      | worker query label =>
        refine ends_pure (.plain ?_)
        cases query <;> rfl
      | fetch label key =>
        exact (heval (children key List.mem_cons_self) fits hctx).bind (fun v _ => ends_fetchFrom (fun _ addressed => addressed) hctx v)
    · intro name callee args ctx site hcallee hargs hctx
      rw [applyTo.eq_def]
      cases callee with
      | function f => exact hcall hcallee hargs hctx
      | _ => exact ends_fail _ _ rfl
    · intro f args ctx site hf hargs hctx
      have given : ∀ v ∈ f.applied, v.Sound G w := by
        cases hf with
        | plain h => cases h
        | function _ _ _ _ _ given => exact given
      have hall : ∀ v ∈ f.applied ++ args, v.Sound G w := fun v hv => (List.mem_append.1 hv).elim (given v) (hargs v)
      rw [call]
      split
      · refine ends_pure ?_
        cases hf with
        | plain h => cases h
        | function home live covers shallow inside _ => exact .function home live covers shallow inside hall
      · rename_i hfull
        obtain ⟨L, body, hbody, addressed, fits⟩ := ok.enter hf
          (fun v hv => hall v (List.mem_of_mem_take hv)) (List.length_take_of_le (Nat.le_of_not_lt hfull))
        rw [hbody]
        refine (ends_push (fun _ addressed => addressed) ctx _ _).bind (fun inner hinner => ?_)
        have hinner : inner.Fits G w := fun s hs => hctx s (hinner ▸ hs)
        refine (heval addressed fits hinner).bind (fun result hresult => ?_)
        split
        · exact ends_pure hresult
        · exact happly hresult (fun v hv => hall v (List.mem_of_mem_drop hv)) hctx

end World

/-! ### Everything that is evaluated -/

section

variable (w : Workspace)

/-- **A call comes to evaluate a body**: that of the function called, or that of a function it returns, which is given the
arguments that are left. -/
inductive Enters : Closure → List Value → Context → String → Node → Frame → Context → Prop
  | body {f : Closure} {args : List Value} {ctx inner : Context} {site : String} {body : Node}
      (full : f.definition.params.length ≤ (f.applied ++ args).length) (known : w.body? f.definition = some body)
      (pushed : ctx.push f.definition.name site = .ok inner) :
      Enters f args ctx site body
        (Frame.enter f.captured f.definition.depth ((f.applied ++ args).take f.definition.params.length)) inner
  | rest {f g : Closure} {args : List Value} {ctx inner ctx' : Context} {site : String} {body node : Node} {frame : Frame}
      (full : f.definition.params.length ≤ (f.applied ++ args).length) (known : w.body? f.definition = some body)
      (pushed : ctx.push f.definition.name site = .ok inner)
      (result : Evaluates w body
        (Frame.enter f.captured f.definition.depth ((f.applied ++ args).take f.definition.params.length)) inner
        (.ok (.function g)))
      (more : Enters g ((f.applied ++ args).drop f.definition.params.length) ctx site node frame ctx') :
      Enters f args ctx site node frame ctx'

/-- **Everything that is evaluated on behalf of a node**, with its frame and context: the nodes inside it, what the names
in it stand for, and the bodies of the functions that it calls. -/
inductive Visits : Node → Frame → Context → Node → Frame → Context → Prop
  | here (node : Node) (frame : Frame) (ctx : Context) : Visits node frame ctx node frame ctx
  | child {node x node' : Node} {frame frame' : Frame} {ctx ctx' : Context} (mem : x ∈ node.children)
      (more : Visits x frame ctx node' frame' ctx') : Visits node frame ctx node' frame' ctx'
  | mention {name : String} {env : Env} {x node' : Node} {frame frame' : Frame} {ctx ctx' : Context}
      (bound : w.lookup env name = some (.value x)) (more : Visits x frame ctx node' frame' ctx') :
      Visits (.functionRef name env) frame ctx node' frame' ctx'
  | callee {name site : String} {env : Env} {args : List Node} {x node' : Node} {frame frame' : Frame} {ctx ctx' : Context}
      (bound : w.lookup env name = some (.value x)) (more : Visits x frame ctx node' frame' ctx') :
      Visits (.invoke name site env args) frame ctx node' frame' ctx'
  | invoke {name site : String} {env : Env} {args : List Node} {body node' : Node} {frame inner frame' : Frame}
      {ctx ctx₁ ctx' : Context} {f : Closure} {values : List Value} {n : Nat}
      (resolved : (resolve w (fun x => eval w n x frame ctx) name env frame ctx).run = some (.ok (.function f)))
      (given : EvaluatesAll w args frame ctx (.ok values)) (enters : Enters w f values ctx site body inner ctx₁)
      (more : Visits body inner ctx₁ node' frame' ctx') : Visits (.invoke name site env args) frame ctx node' frame' ctx'
  | apply {site : String} {callee : Node} {args : List Node} {body node' : Node} {frame inner frame' : Frame}
      {ctx ctx₁ ctx' : Context} {f : Closure} {values : List Value} (evaluated : Evaluates w callee frame ctx (.ok (.function f)))
      (given : EvaluatesAll w args frame ctx (.ok values)) (enters : Enters w f values ctx site body inner ctx₁)
      (more : Visits body inner ctx₁ node' frame' ctx') : Visits (.apply site callee args) frame ctx node' frame' ctx'

end

namespace World

variable {Q : Env → Node → Prop} {G : World} {w : Workspace}

theorem Ok.evaluates_sound (ok : G.Ok Q (fun _ => False) w) {L : Layout} {node : Node} {frame : Frame} {ctx : Context}
    {v : Value} (addressed : node.Addressed G w Q L) (fits : frame.Fits G w L) (hctx : ctx.Fits G w)
    (h : Evaluates w node frame ctx (.ok v)) : v.Sound G w := by
  obtain ⟨n, hn⟩ := h
  exact ((ok.sound n).1 addressed fits hctx).1 v hn

theorem Ok.evaluatesAll_sound (ok : G.Ok Q (fun _ => False) w) {L : Layout} {nodes : List Node} {frame : Frame} {ctx : Context}
    {vs : List Value} (addressed : ∀ x ∈ nodes, x.Addressed G w Q L) (fits : frame.Fits G w L) (hctx : ctx.Fits G w)
    (h : EvaluatesAll w nodes frame ctx (.ok vs)) : ∀ v ∈ vs, v.Sound G w := by
  obtain ⟨n, hn⟩ := h
  exact ((ends_mapM (fun x hx => (ok.sound n).1 (addressed x hx) fits hctx)).1 vs hn).2

theorem Ok.enters (ok : G.Ok Q (fun _ => False) w) {f : Closure} {args : List Value} {ctx ctx' : Context} {site : String}
    {node : Node} {frame : Frame} (h : Enters w f args ctx site node frame ctx') :
    (Value.function f).Sound G w → (∀ v ∈ args, v.Sound G w) → ctx.Fits G w →
      ∃ L, node.Addressed G w Q L ∧ frame.Fits G w L ∧ ctx'.Fits G w := by
  -- the body of the function called itself, which both cases come by
  have entered : ∀ {f : Closure} {args : List Value} {ctx inner : Context} {site : String} {body : Node},
      f.definition.params.length ≤ (f.applied ++ args).length → w.body? f.definition = some body →
      ctx.push f.definition.name site = .ok inner → (Value.function f).Sound G w → (∀ v ∈ args, v.Sound G w) →
      ctx.Fits G w → (∀ v ∈ f.applied ++ args, v.Sound G w) ∧ inner.Fits G w ∧ ∃ L, body.Addressed G w Q L ∧
        (Frame.enter f.captured f.definition.depth ((f.applied ++ args).take f.definition.params.length)).Fits G w L := by
    intro f args ctx inner site body full known pushed hf hargs hctx
    have given : ∀ v ∈ f.applied, v.Sound G w := by
      cases hf with
      | plain h => cases h
      | function _ _ _ _ _ given => exact given
    have hall : ∀ v ∈ f.applied ++ args, v.Sound G w := fun v hv => (List.mem_append.1 hv).elim (given v) (hargs v)
    obtain ⟨L, body', hbody, addressed, fits⟩ := ok.enter hf
      (fun v hv => hall v (List.mem_of_mem_take hv)) (List.length_take_of_le full)
    cases hbody.symm.trans known
    exact ⟨hall, fun s hs => hctx s (Context.store_of_push pushed ▸ hs), L, addressed, fits⟩
  induction h with
  | body full known pushed =>
    intro hf hargs hctx
    obtain ⟨-, hinner, L, addressed, fits⟩ := entered full known pushed hf hargs hctx
    exact ⟨L, addressed, fits, hinner⟩
  | rest full known pushed result _ ih =>
    intro hf hargs hctx
    obtain ⟨hall, hinner, L, addressed, fits⟩ := entered full known pushed hf hargs hctx
    exact ih (ok.evaluates_sound addressed fits hinner result) (fun v hv => hall v (List.mem_of_mem_drop hv)) hctx

/-- **Every node that is evaluated** is addressed for a layout that its frame covers. -/
theorem Ok.visits (ok : G.Ok Q (fun _ => False) w) {node node' : Node} {frame frame' : Frame} {ctx ctx' : Context}
    (h : Visits w node frame ctx node' frame' ctx') :
    ∀ {L : Layout}, node.Addressed G w Q L → frame.Fits G w L → ctx.Fits G w →
      ∃ L', node'.Addressed G w Q L' ∧ frame'.Fits G w L' := by
  induction h with
  | here node frame ctx => exact fun addressed fits _ => ⟨_, addressed, fits⟩
  | child mem _ ih =>
    rintro L ⟨-, -, children⟩ fits hctx
    exact ih (children _ mem) fits hctx
  | mention bound _ ih =>
    rintro L ⟨-, ⟨live, layout, -⟩, -⟩ fits hctx
    obtain ⟨env₀, -, layout₀, addressed⟩ := ok.lookup live bound
    exact ih ((Le.refl G w).addressed (layout₀.trans layout) addressed) fits hctx
  | callee bound _ ih =>
    rintro L ⟨-, ⟨live, layout, -⟩, -⟩ fits hctx
    obtain ⟨env₀, -, layout₀, addressed⟩ := ok.lookup live bound
    exact ih ((Le.refl G w).addressed (layout₀.trans layout) addressed) fits hctx
  | invoke resolved given enters more ih =>
    rename_i n
    rintro L ⟨-, refers, children⟩ fits hctx
    have hf := (ok.resolve refers fits _ (fun x hx => (ok.sound n).1 hx fits hctx)).1 _ resolved
    have hargs := ok.evaluatesAll_sound children fits hctx given
    obtain ⟨L', addressed, fits', hctx'⟩ := ok.enters enters hf hargs hctx
    exact ih addressed fits' hctx'
  | apply evaluated given enters _ ih =>
    rintro L ⟨-, refers, children⟩ fits hctx
    have hf := ok.evaluates_sound (children _ List.mem_cons_self) fits hctx evaluated
    have hargs := ok.evaluatesAll_sound (fun x hx => children x (List.mem_cons_of_mem _ hx)) fits hctx given
    obtain ⟨L', addressed, fits', hctx'⟩ := ok.enters enters hf hargs hctx
    exact ih addressed fits' hctx'

end World

end ChainCalc
