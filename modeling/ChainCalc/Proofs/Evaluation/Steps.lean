import ChainCalc.Proofs.Evaluation.Lockstep
/-!
# Evaluation in any number of steps

Two runs are compared by what the first one answers (`Run.Leads`) or by how both end (`Run.Agrees`), and code goes in step
with itself wherever its surroundings look alike (`Tandem.lawful_same`).

More steps therefore never change an answer (`eval_le_of_le`), and what a node evaluates to does not depend on the steps that
were allowed: `Evaluates` is evaluation in enough of them, and it has at most one outcome (`Evaluates.unique`).  For a node
that computes on its operands the outcome is said in terms of the outcomes of the operands (`evaluates_kernel_ok`,
`evaluates_kernel_error`).
-/
namespace ChainCalc

namespace Run

variable {α β : Type}

/-- Whatever the first one answers, the second one answers too. -/
def Le (x y : Run α) : Prop := ∀ r, x.run = some r → y.run = some r

theorem Le.refl (x : Run α) : Le x x := fun _ h => h

theorem Le.trans {x y z : Run α} (h : Le x y) (h' : Le y z) : Le x z := fun r hr => h' r (h r hr)

theorem run_bind (x : Run α) (f : α → Run β) :
    (x >>= f).run = match x.run with
      | none => none
      | some (.error e) => some (.error e)
      | some (.ok a) => (f a).run := by
  rw [ExceptT.run_bind]
  cases x.run with
  | none => rfl
  | some r => cases r <;> rfl

theorem bind_eq_ok {x : Run α} {f : α → Run β} {b : β} :
    (x >>= f).run = some (.ok b) ↔ ∃ a, x.run = some (.ok a) ∧ (f a).run = some (.ok b) := by
  rw [run_bind]
  constructor
  · intro h
    split at h
    · cases h
    · cases h
    · exact ⟨_, ‹_›, h⟩
  · rintro ⟨a, hx, hf⟩
    rw [hx]
    exact hf

theorem bind_eq_error {x : Run α} {f : α → Run β} {e : EvalError} :
    (x >>= f).run = some (.error e) ↔ x.run = some (.error e) ∨ ∃ a, x.run = some (.ok a) ∧ (f a).run = some (.error e) := by
  rw [run_bind]
  constructor
  · intro h
    split at h
    · cases h
    · cases h
      exact .inl ‹_›
    · exact .inr ⟨_, ‹_›, h⟩
  · rintro (hx | ⟨a, hx, hf⟩)
    · rw [hx]
    · rw [hx]
      exact hf

/-! ### Two runs compared -/

/-- What the first run answers, the second one answers too: the same error, or a related result.  Of errors only those count
of which `P` holds. -/
def Leads (P : EvalError → Prop) {β : Type} (R : α → β → Prop) (x : Run α) (y : Run β) : Prop :=
  ∀ r, x.run = some r → (∀ e, r = .error e → P e) → ∃ s, y.run = some s ∧ Concur R r s

section

variable {P : EvalError → Prop} {γ δ : Type} {R : α → β → Prop} {S : γ → δ → Prop}

theorem leads_ofExcept {r : Except EvalError α} {s : Except EvalError β} (h : (∀ e, r = .error e → P e) → Concur R r s) :
    Leads P R (ofExcept r) (ofExcept s) := by
  intro r' hr count
  cases hr
  exact ⟨s, rfl, h count⟩

theorem leads_pure {a : α} {b : β} (h : R a b) : Leads P R (pure a) (pure b) := leads_ofExcept (fun _ => .ok h)

theorem Leads.bind {x : Run α} {y : Run β} {f : α → Run γ} {g : β → Run δ} (hxy : Leads P R x y)
    (hfg : ∀ a b, R a b → Leads P S (f a) (g b)) : Leads P S (x >>= f) (y >>= g) := by
  intro r h count
  rw [run_bind] at h ⊢
  cases hx : x.run with
  | none => rw [hx] at h; cases h
  | some o =>
    rw [hx] at h
    cases o with
    | error e =>
      cases h
      obtain ⟨s, hy, concur⟩ := hxy _ hx (fun e' he => count e' (by cases he; rfl))
      cases concur
      exact ⟨.error e, by rw [hy], .error e⟩
    | ok a =>
      obtain ⟨s, hy, concur⟩ := hxy _ hx (fun e he => by cases he)
      cases concur with
      | ok hab =>
        rw [hy]
        exact hfg _ _ hab r h count

theorem Leads.result {x : Run α} {y : Run β} (h : Leads P R x y) {a : α} (hx : x.run = some (.ok a)) :
    ∃ b, y.run = some (.ok b) ∧ R a b := by
  obtain ⟨s, hs, concur⟩ := h _ hx (fun e he => by cases he)
  cases concur with
  | ok hab => exact ⟨_, hs, hab⟩

def Comparison.leads (P : EvalError → Prop) (spare : Nat) : Comparison where
  Holds R x y := Leads P R x (y spare)
  stopped _ _ h := by cases h
  result := leads_pure
  bind := Leads.bind

end

/-- Both runs are out of steps, or they end in the same error or in related results. -/
def Agrees {α β : Type} (R : α → β → Prop) (x : Run α) (y : Run β) : Prop := Option.Rel (Concur R) x.run y.run

section

variable {γ δ : Type}

theorem agrees_outOfSteps {R : α → β → Prop} : Agrees R (outOfSteps : Run α) (outOfSteps : Run β) := .none

theorem agrees_ofExcept {R : α → β → Prop} {r : Except EvalError α} {s : Except EvalError β} (h : Concur R r s) :
    Agrees R (ofExcept r) (ofExcept s) := .some h

theorem agrees_pure {R : α → β → Prop} {a : α} {b : β} (h : R a b) : Agrees R (pure a) (pure b) := .some (.ok h)

theorem agrees_fail {R : α → β → Prop} (ctx : Context) (primitive : String) (fault : Fault) :
    Agrees R (fail ctx primitive fault) (fail ctx primitive fault) := agrees_ofExcept (.error _)

theorem agrees_refl {R : α → α → Prop} (refl : ∀ a, R a a) (x : Run α) : Agrees R x x := optionRel_refl (.refl refl) _

/-- Nothing but the same result is related to a result: the two runs are one. -/
theorem Agrees.eq {R : α → α → Prop} {x y : Run α} (h : Agrees R x y) (same : ∀ a b, R a b → b = a) : y = x := by
  apply ExceptT.ext
  unfold Agrees at h
  generalize x.run = r at h ⊢
  generalize y.run = s at h ⊢
  cases h with
  | none => rfl
  | some concur =>
    cases concur with
    | ok hab => rw [same _ _ hab]
    | error e => rfl

theorem Agrees.bind {R : α → β → Prop} {S : γ → δ → Prop} {x : Run α} {y : Run β} {f : α → Run γ} {g : β → Run δ}
    (hxy : Agrees R x y) (hfg : ∀ a b, R a b → Agrees S (f a) (g b)) : Agrees S (x >>= f) (y >>= g) := by
  unfold Agrees at hxy ⊢
  rw [run_bind, run_bind]
  generalize x.run = r at hxy ⊢
  generalize y.run = s at hxy ⊢
  cases hxy with
  | none => exact .none
  | some h =>
    cases h with
    | ok hab => exact hfg _ _ hab
    | error e => exact .some (.error e)

def Comparison.agrees : Comparison where
  Holds R x y := Agrees R x (y 0)
  stopped h := by
    rw [h]
    exact agrees_outOfSteps
  result := agrees_pure
  bind := Agrees.bind

end

theorem le_iff_leads {x y : Run α} : Le x y ↔ Leads (fun _ => True) Eq x y := by
  constructor
  · intro h r hr _
    exact ⟨r, h r hr, .refl (fun _ => rfl) r⟩
  · intro h r hr
    obtain ⟨s, hs, concur⟩ := h r hr (fun _ _ => trivial)
    rw [hs, concur.eq]

theorem Le.bind {x y : Run α} {f g : α → Run β} (hx : Le x y) (hf : ∀ a, Le (f a) (g a)) : Le (x >>= f) (y >>= g) :=
  le_iff_leads.2 ((le_iff_leads.1 hx).bind (fun a _ h => h ▸ le_iff_leads.1 (hf a)))

theorem Le.mapM {f g : α → Run β} (h : ∀ a, Le (f a) (g a)) : ∀ l : List α, Le (l.mapM f) (l.mapM g)
  | [] => by
    rw [List.mapM_nil, List.mapM_nil]
    exact Le.refl _
  | a :: l => by
    rw [List.mapM_cons, List.mapM_cons]
    exact (h a).bind (fun _ => (Le.mapM h l).bind (fun _ => Le.refl _))

end Run

open Run (Le Leads)

/-! ### A call entered -/

namespace Context

variable {ctx inner : Context} {name site : String}

theorem push_eq_ok : ctx.push name site = .ok inner ↔
    ctx.depth < ctx.maxCallDepth ∧ inner = { ctx with stack := ctx.stack.push ⟨name, site⟩ } := by
  unfold push
  split
  · rename_i full
    constructor
    · intro h
      cases h
    · rintro ⟨room, -⟩
      omega
  · rename_i room
    rw [Except.ok.injEq, eq_comm]
    exact (and_iff_right (by omega)).symm

theorem push_eq_error {e : EvalError} : ctx.push name site = .error e ↔
    ctx.maxCallDepth ≤ ctx.depth ∧ e = ctx.error name (.stackOverflow ctx.maxCallDepth) := by
  unfold push
  split
  · rename_i full
    rw [Except.error.injEq, eq_comm]
    exact (and_iff_right (by omega)).symm
  · rename_i room
    constructor
    · intro h
      cases h
    · rintro ⟨full, -⟩
      omega

theorem store_of_push (pushed : ctx.push name site = .ok inner) : inner.store = ctx.store := by
  obtain ⟨-, rfl⟩ := push_eq_ok.1 pushed
  rfl

theorem depth_of_push (pushed : ctx.push name site = .ok inner) :
    ctx.depth < ctx.maxCallDepth ∧ inner.depth = ctx.depth + 1 ∧ inner.maxCallDepth = ctx.maxCallDepth := by
  obtain ⟨room, rfl⟩ := push_eq_ok.1 pushed
  exact ⟨room, rfl, rfl⟩

end Context

/-! ### More steps never change an answer -/

def Tandem.same (K : Context → Context → Prop) : Tandem where
  value := Eq
  context := K
  node x frame ctx x' frame' ctx' := x' = x ∧ frame' = frame ∧ K ctx ctx'
  text := Eq

/-- **Contexts that look alike** to everything but a call that is about to be entered: the same calls are under way, with the
same store and the same place among workers. -/
structure Context.LooksLike (ctx ctx' : Context) : Prop where
  error : ctx'.error = ctx.error
  store : ctx'.store = ctx.store
  locality : ctx'.locality = ctx.locality

theorem Context.LooksLike.fail {ctx ctx' : Context} (alike : ctx.LooksLike ctx') {P : EvalError → Prop} (p : String)
    (fault : Fault) : Leads P Eq (Run.fail ctx p fault : Run Value) (Run.fail ctx' p fault) := by
  unfold Run.fail
  rw [alike.error]
  exact Run.leads_ofExcept (fun _ => .error _)

section

variable {K : Context → Context → Prop} {P : EvalError → Prop} {spare : Nat}

theorem Tandem.abreast_same (w : Workspace) (x : Node) (frame : Frame) {ctx ctx' : Context} (hctx : K ctx ctx')
    (alike : ctx.LooksLike ctx') : (Tandem.same K).Abreast (.leads P spare) w w frame ctx frame ctx' x x := by
  have all : ∀ xs : List Node, List.Forall₂ (fun x x' => (Tandem.same K).node x frame ctx x' frame ctx') xs xs :=
    fun xs => List.forall₂_same.2 (fun _ _ => ⟨rfl, rfl, hctx⟩)
  have argument : ∀ name depth index, Leads P Eq (argument name depth index frame ctx) (argument name depth index frame ctx') :=
    fun name depth index =>
      argument_holds (T := .same K) (C := .leads P spare) (alike.fail name) (optionRel_refl (fun _ => rfl) _)
  have bound : ∀ name env, Option.Rel ((Tandem.same K).Bound (.leads P spare) w frame ctx frame ctx' name)
      (w.lookup env name) (w.lookup env name) := by
    refine fun name env => optionRel_refl (fun b => ?_) _
    cases b with
    | value x => exact .value ⟨rfl, rfl, hctx⟩
    | function d => exact .function rfl
    | param depth index => exact .param (argument name depth index)
  cases x with
  | constant v => exact .leaf (fun _ _ => Run.leads_pure rfl)
  | param name depth index => exact .leaf (fun _ _ => argument name depth index)
  | kernel name label xs compute =>
    refine .kernel (all xs) rfl (fun vs vs' h => ?_)
    obtain rfl : vs = vs' := by rwa [← List.forall₂_eq_eq_eq]
    exact .refl (fun _ => rfl) _
  | conditional label c y n => exact .conditional ⟨rfl, rfl, hctx⟩ ⟨rfl, rfl, hctx⟩ ⟨rfl, rfl, hctx⟩
  | sequence label xs => exact .sequence (all xs)
  | lambda d body => exact .leaf (fun _ _ => Run.leads_pure rfl)
  | functionRef name env => exact .functionRef (bound name env)
  | invoke name site env xs => exact .invoke (bound name env) (all xs) rfl
  | apply site x xs => exact .apply ⟨rfl, rfl, hctx⟩ rfl (all xs) rfl
  | worker query label => exact .worker
  | fetch label x =>
    refine .fetch ⟨rfl, rfl, hctx⟩ ?_
    rw [alike.store]
    exact optionRel_refl (fun _ _ => optionRel_refl (fun _ => rfl) _) _

/-- **The same code goes in step with itself** in contexts that look alike, if calls that are entered do. -/
theorem Tandem.lawful_same (alike : ∀ {ctx ctx'}, K ctx ctx' → ctx.LooksLike ctx')
    (push : ∀ {ctx ctx'}, K ctx ctx' → ∀ name site,
      Leads P K (Run.ofExcept (ctx.push name site)) (Run.ofExcept (ctx'.push name site))) (w : Workspace) :
    (Tandem.same K).Lawful (.leads P spare) w w where
  shape {v _} h := by
    cases (h : v = _)
    exact shape_refl v
  plain _ := rfl
  text _ := rfl
  fail hctx text fault := by
    cases text
    exact (alike hctx).fail _ fault
  push hctx named called := by
    cases named
    cases called
    exact push hctx _ _
  locality h := (alike h).locality
  context h := h.2.2
  node := by
    rintro _ _ ctx x frame ctx' ⟨rfl, rfl, hctx⟩
    exact abreast_same w x frame hctx (alike hctx)
  call {f _} h := by
    cases (h : Value.function f = _)
    refine ⟨rfl, rfl, List.forall₂_same.2 (fun _ _ => rfl), fun vs vs' h => ?_, fun vs vs' h => ?_⟩
    · obtain rfl : vs = vs' := by rwa [← List.forall₂_eq_eq_eq]
      rfl
    · obtain rfl : vs = vs' := by rwa [← List.forall₂_eq_eq_eq]
      exact optionRel_refl (fun _ _ _ hinner => ⟨rfl, rfl, hinner⟩) _

end

theorem le_succ (w : Workspace) (n : Nat) :
    (∀ node frame ctx, Le (eval w n node frame ctx) (eval w (n + 1) node frame ctx)) ∧
    (∀ name callee args ctx site, Le (applyTo w n name callee args ctx site) (applyTo w (n + 1) name callee args ctx site)) ∧
    (∀ f args ctx site, Le (call w n f args ctx site) (call w (n + 1) f args ctx site)) := by
  have laws : (Tandem.same Eq).Lawful (.leads (fun _ => True) 1) w w := by
    refine Tandem.lawful_same ?_ ?_ w
    · rintro ctx _ rfl
      exact ⟨rfl, rfl, rfl⟩
    · rintro ctx _ rfl name site
      exact Run.le_iff_leads.1 (Le.refl _)
  have step := laws.inStep n
  refine ⟨fun node frame ctx => ?_, fun name callee args ctx site => ?_, fun f args ctx site => ?_⟩
  · exact Run.le_iff_leads.2 (step.node ⟨rfl, rfl, rfl⟩)
  · exact Run.le_iff_leads.2 (step.apply rfl (List.forall₂_same.2 (fun _ _ => rfl)) rfl rfl rfl)
  · exact Run.le_iff_leads.2 (step.call rfl (List.forall₂_same.2 (fun _ _ => rfl)) rfl rfl)

theorem le_add (w : Workspace) (n : Nat) : ∀ k : Nat,
    (∀ node frame ctx, Le (eval w n node frame ctx) (eval w (n + k) node frame ctx)) ∧
    (∀ name callee args ctx site, Le (applyTo w n name callee args ctx site) (applyTo w (n + k) name callee args ctx site)) ∧
    (∀ f args ctx site, Le (call w n f args ctx site) (call w (n + k) f args ctx site))
  | 0 => ⟨fun _ _ _ => Le.refl _, fun _ _ _ _ _ => Le.refl _, fun _ _ _ _ => Le.refl _⟩
  | k + 1 => by
    obtain ⟨he, ha, hc⟩ := le_add w n k
    obtain ⟨he', ha', hc'⟩ := le_succ w (n + k)
    exact ⟨fun _ _ _ => (he _ _ _).trans (he' _ _ _), fun _ _ _ _ _ => (ha _ _ _ _ _).trans (ha' _ _ _ _ _),
      fun _ _ _ _ => (hc _ _ _ _).trans (hc' _ _ _ _)⟩

/-- **More steps never change an answer.** -/
theorem eval_le_of_le (w : Workspace) {n m : Nat} (h : n ≤ m) (node : Node) (frame : Frame) (ctx : Context) :
    Le (eval w n node frame ctx) (eval w m node frame ctx) := by
  obtain ⟨k, rfl⟩ := Nat.exists_eq_add_of_le h
  exact (le_add w n k).1 node frame ctx

/-! ### Outcomes -/

/-- **The outcome of a node**, in enough steps. -/
def Evaluates (w : Workspace) (node : Node) (frame : Frame) (ctx : Context) (r : Except EvalError Value) : Prop :=
  ∃ n, (eval w n node frame ctx).run = some r

theorem Evaluates.unique {w : Workspace} {node : Node} {frame : Frame} {ctx : Context} {r r' : Except EvalError Value}
    (h : Evaluates w node frame ctx r) (h' : Evaluates w node frame ctx r') : r = r' := by
  obtain ⟨n, hn⟩ := h
  obtain ⟨m, hm⟩ := h'
  have hn' := eval_le_of_le w (Nat.le_max_left n m) node frame ctx r hn
  have hm' := eval_le_of_le w (Nat.le_max_right n m) node frame ctx r' hm
  exact Option.some.inj (hn'.symm.trans hm')

def EvaluatesAll (w : Workspace) (nodes : List Node) (frame : Frame) (ctx : Context) (r : Except EvalError (List Value)) : Prop :=
  ∃ n, (nodes.mapM (fun x => eval w n x frame ctx)).run = some r

section

variable {w : Workspace} {frame : Frame} {ctx : Context}

theorem evaluatesAll_nil {r : Except EvalError (List Value)} : EvaluatesAll w [] frame ctx r ↔ r = .ok [] := by
  constructor
  · rintro ⟨n, h⟩
    rw [List.mapM_nil] at h
    exact (Option.some.inj h).symm
  · rintro rfl
    exact ⟨0, rfl⟩

theorem evaluatesAll_cons_ok {node : Node} {nodes : List Node} {vs : List Value} :
    EvaluatesAll w (node :: nodes) frame ctx (.ok vs) ↔
      ∃ v vs', Evaluates w node frame ctx (.ok v) ∧ EvaluatesAll w nodes frame ctx (.ok vs') ∧ vs = v :: vs' := by
  constructor
  · rintro ⟨n, h⟩
    rw [List.mapM_cons, Run.bind_eq_ok] at h
    obtain ⟨v, hv, h⟩ := h
    rw [Run.bind_eq_ok] at h
    obtain ⟨vs', hvs, h⟩ := h
    cases h
    exact ⟨v, vs', ⟨n, hv⟩, ⟨n, hvs⟩, rfl⟩
  · rintro ⟨v, vs', ⟨n, hn⟩, ⟨m, hm⟩, rfl⟩
    refine ⟨max n m, ?_⟩
    rw [List.mapM_cons, Run.bind_eq_ok]
    refine ⟨v, eval_le_of_le w (Nat.le_max_left n m) _ _ _ _ hn, ?_⟩
    rw [Run.bind_eq_ok]
    exact ⟨vs', Le.mapM (fun x => eval_le_of_le w (Nat.le_max_right n m) x frame ctx) nodes _ hm, rfl⟩

theorem evaluatesAll_cons_error {node : Node} {nodes : List Node} {e : EvalError} :
    EvaluatesAll w (node :: nodes) frame ctx (.error e) ↔
      Evaluates w node frame ctx (.error e) ∨
        ∃ v, Evaluates w node frame ctx (.ok v) ∧ EvaluatesAll w nodes frame ctx (.error e) := by
  constructor
  · rintro ⟨n, h⟩
    rw [List.mapM_cons, Run.bind_eq_error] at h
    rcases h with h | ⟨v, hv, h⟩
    · exact .inl ⟨n, h⟩
    · rw [Run.bind_eq_error] at h
      rcases h with h | ⟨vs, -, h⟩
      · exact .inr ⟨v, ⟨n, hv⟩, n, h⟩
      · cases h
  · rintro (⟨n, h⟩ | ⟨v, ⟨n, hn⟩, m, hm⟩)
    · refine ⟨n, ?_⟩
      rw [List.mapM_cons, Run.bind_eq_error]
      exact .inl h
    · refine ⟨max n m, ?_⟩
      rw [List.mapM_cons, Run.bind_eq_error]
      refine .inr ⟨v, eval_le_of_le w (Nat.le_max_left n m) _ _ _ _ hn, ?_⟩
      rw [Run.bind_eq_error]
      exact .inl (Le.mapM (fun x => eval_le_of_le w (Nat.le_max_right n m) x frame ctx) nodes _ hm)

theorem ofKernel_run (ctx : Context) (primitive : String) (r : Except Fault Value) :
    (Run.ofKernel ctx primitive r).run = some (match r with
      | .ok a => .ok a
      | .error fault => .error (ctx.error primitive fault)) := by
  cases r <;> rfl

theorem evaluates_kernel_ok {name label : String} {operands : List Node} {compute : Kernel} {v : Value} :
    Evaluates w (.kernel name label operands compute) frame ctx (.ok v) ↔
      ∃ vs, EvaluatesAll w operands frame ctx (.ok vs) ∧ compute vs = .ok v := by
  constructor
  · rintro ⟨n, h⟩
    cases n with
    | zero => rw [eval] at h; cases h
    | succ n =>
      rw [eval, Run.bind_eq_ok] at h
      obtain ⟨vs, hvs, h⟩ := h
      rw [ofKernel_run] at h
      refine ⟨vs, ⟨n, hvs⟩, ?_⟩
      cases hc : compute vs with
      | ok a => rw [hc] at h; cases h; rfl
      | error fault => rw [hc] at h; cases h
  · rintro ⟨vs, ⟨n, hn⟩, hc⟩
    refine ⟨n + 1, ?_⟩
    rw [eval, Run.bind_eq_ok]
    refine ⟨vs, hn, ?_⟩
    rw [ofKernel_run, hc]

theorem evaluates_kernel_error {name label : String} {operands : List Node} {compute : Kernel} {e : EvalError} :
    Evaluates w (.kernel name label operands compute) frame ctx (.error e) ↔
      EvaluatesAll w operands frame ctx (.error e) ∨
        ∃ vs fault, EvaluatesAll w operands frame ctx (.ok vs) ∧ compute vs = .error fault ∧ e = ctx.error name fault := by
  constructor
  · rintro ⟨n, h⟩
    cases n with
    | zero => rw [eval] at h; cases h
    | succ n =>
      rw [eval, Run.bind_eq_error] at h
      rcases h with h | ⟨vs, hvs, h⟩
      · exact .inl ⟨n, h⟩
      · rw [ofKernel_run] at h
        cases hc : compute vs with
        | ok a => rw [hc] at h; cases h
        | error fault =>
          rw [hc] at h
          cases h
          exact .inr ⟨vs, fault, ⟨n, hvs⟩, hc, rfl⟩
  · rintro (⟨n, hn⟩ | ⟨vs, fault, ⟨n, hn⟩, hc, rfl⟩)
    · refine ⟨n + 1, ?_⟩
      rw [eval, Run.bind_eq_error]
      exact .inl hn
    · refine ⟨n + 1, ?_⟩
      rw [eval, Run.bind_eq_error]
      refine .inr ⟨vs, hn, ?_⟩
      rw [ofKernel_run, hc]

end

end ChainCalc
