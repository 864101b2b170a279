import ChainCalc.Proofs.Compile.Sessions
import ChainCalc.Proofs.Expr.Equality
/-!
# A bound on calls bounds the run

Evaluation without end takes calls without end, and a context has room for so many only.  Three things could go around that:
what a function returns is called with the arguments that are left, in the same context; a name that was a function when it
was compiled may be a variable now, which is evaluated without a call; and a function without parameters leaves as many
arguments as there were.  The first one ends, since a function misses at least one argument (`Value.Waiting`) and so less
are left each time.  The other two are what sources are asked to do without (`Rules.applicative`).

The induction is on the room that is left, then on the number of arguments (`halts_call`) and on the node (`halts_eval`).
`Halts` speaks of all numbers of steps at once, so no step is counted.
-/
namespace ChainCalc

/-! ### Runs that end -/

namespace Run

variable {α β : Type}

/-- **With enough steps there is one outcome**, and a result satisfies `P`. -/
def Halts (x : Nat → Run α) (P : α → Prop) : Prop := ∃ n r, (∀ m, n ≤ m → (x m).run = some r) ∧ ∀ a, r = .ok a → P a

theorem halts_ofExcept {r : Except EvalError α} {P : α → Prop} (h : ∀ a, r = .ok a → P a) : Halts (fun _ => ofExcept r) P :=
  ⟨0, r, fun _ _ => rfl, h⟩

theorem halts_pure {a : α} {P : α → Prop} (h : P a) : Halts (fun _ => pure a) P := halts_ofExcept (fun _ ha => by cases ha; exact h)

theorem halts_fail {P : α → Prop} (ctx : Context) (primitive : String) (fault : Fault) :
    Halts (fun _ => (fail ctx primitive fault : Run α)) P := halts_ofExcept (fun _ h => by cases h)

theorem Halts.later {x : Nat → Run α} {P : α → Prop} (h : Halts (fun n => x (n + 1)) P) : Halts x P := by
  obtain ⟨n, r, hr, hP⟩ := h
  refine ⟨n + 1, r, fun m hm => ?_, hP⟩
  obtain ⟨k, rfl⟩ := Nat.exists_eq_add_of_le' hm
  exact hr (k + n) (Nat.le_add_left n k)

theorem Halts.bind {x : Nat → Run α} {f : Nat → α → Run β} {P : α → Prop} {Q : β → Prop} (hx : Halts x P)
    (hf : ∀ a, P a → Halts (fun n => f n a) Q) : Halts (fun n => x n >>= f n) Q := by
  obtain ⟨n, r, hr, hP⟩ := hx
  cases r with
  | error e =>
    refine ⟨n, .error e, fun m hm => ?_, fun a h => by cases h⟩
    rw [run_bind, hr m hm]
  | ok a =>
    obtain ⟨n', r', hr', hQ⟩ := hf a (hP a rfl)
    refine ⟨max n n', r', fun m hm => ?_, hQ⟩
    rw [run_bind, hr m (Nat.le_trans (Nat.le_max_left n n') hm)]
    exact hr' m (Nat.le_trans (Nat.le_max_right n n') hm)

theorem halts_mapM {f : Nat → α → Run β} {P : β → Prop} {l : List α} (h : ∀ a ∈ l, Halts (fun n => f n a) P) :
    Halts (fun n => l.mapM (f n)) (fun bs => ∀ b ∈ bs, P b) := by
  induction l with
  | nil => exact halts_pure (fun b hb => by cases hb)
  | cons a l ih =>
    simp only [List.mapM_cons]
    refine (h a List.mem_cons_self).bind (fun b hb => ?_)
    refine (ih (fun a' ha' => h a' (List.mem_cons_of_mem _ ha'))).bind (fun bs hbs => halts_pure ?_)
    exact List.forall_mem_cons.2 ⟨hb, hbs⟩

theorem halts_foldlM {f : Nat → β → α → Run β} {P : β → Prop} {l : List α} (h : ∀ a ∈ l, ∀ b, Halts (fun n => f n b a) P)
    {b : β} (hb : P b) : Halts (fun n => l.foldlM (f n) b) P := by
  induction l generalizing b with
  | nil => exact halts_pure hb
  | cons a l ih =>
    simp only [List.foldlM_cons]
    exact (h a List.mem_cons_self b).bind (fun b' hb' => ih (fun a' ha' => h a' (List.mem_cons_of_mem _ ha')) hb')

end Run

open Run

/-! ### Functions that miss an argument -/

/-- **Every function in the value misses an argument**, those among its arguments and captures included. -/
inductive Value.Waiting : Value → Prop
  | plain {v : Value} (h : v.asFunction? = none) : Waiting v
  | function {f : Closure} (missing : f.applied.length < f.definition.params.length)
      (captured : ∀ a ∈ f.captured, ∀ v ∈ a.args, Waiting v) (applied : ∀ v ∈ f.applied, Waiting v) : Waiting (.function f)

def Frame.Waiting (frame : Frame) : Prop := ∀ a ∈ frame, ∀ v ∈ a.args, v.Waiting

theorem Frame.Waiting.arg? {frame : Frame} (h : frame.Waiting) {depth index : Nat} {v : Value}
    (found : frame.arg? depth index = some v) : v.Waiting := by
  induction frame with
  | nil => cases found
  | cons a outer ih =>
    obtain ⟨here, outer'⟩ := List.forall_mem_cons.1 h
    obtain ⟨d, args⟩ := a
    rw [Frame.arg?] at found
    split at found
    · exact here v (List.mem_of_getElem? found)
    · split at found
      · cases found
      · exact ih outer' found

theorem waiting_close {d : Definition} (missing : d.params ≠ []) {frame : Frame} (h : frame.Waiting) : (close d frame).Waiting :=
  .function (List.length_pos_of_ne_nil missing) (fun a ha => h a (Frame.mem_truncate ha)) (fun v hv => by cases hv)

theorem halts_argument {frame : Frame} (h : frame.Waiting) (name : String) (depth index : Nat) (ctx : Context) :
    Halts (fun _ => argument name depth index frame ctx) Value.Waiting := by
  unfold argument
  split
  · exact halts_pure (h.arg? ‹_›)
  · exact halts_fail _ _ _

/-! ### Sources in which functions are applied to something -/

def Expr.Sorted (F : String → Prop) (target : Expr) : Prop :=
  (∀ x, target.asIdent? = some x → ¬ F x) ∧ ∀ g names, target.asCall? = some (g, names) → F g ∧ names ≠ []

theorem Expr.sorted_call {F : String → Prop} {g : String} {names : List Expr} :
    (Expr.call g names).Sorted F ↔ F g ∧ names ≠ [] := by
  constructor
  · intro h
    exact h.2 g names rfl
  · intro h
    exact ⟨fun x hx => (by cases hx), fun g' names' hcall => by cases hcall; exact h⟩

/-- No function goes without parameters, and functions are defined under the names in `F` only, variables under others. -/
def Rules.applicative (F : String → Prop) : Rules where
  call f args := (f = "define" → 2 ≤ args.length → ∀ target ∈ args.head?, target.Sorted F) ∧ (f = "lambda" → 2 ≤ args.length)
  beside _ _ := True

/-- What such sources are compiled to: names that are looked up when they are evaluated are those of functions. -/
def Discipline.applicative (F : String → Prop) : Discipline where
  rules := .applicative F
  node
    | .constant v => v.asFunction? = none
    | .kernel _ _ _ compute => compute.Plain
    | .lambda d _ => d.params ≠ []
    | .functionRef name _ => F name
    | .invoke name _ _ _ => F name
    | _ => True
  value x := ¬ F x
  function f params := F f ∧ params ≠ []
  error _ := True

theorem ne_nil_of_mapM {es : List Expr} {names : List String} (h : es.mapM Expr.asIdent? = some names) (ne : es ≠ []) :
    names ≠ [] := by
  cases es with
  | nil => exact absurd rfl ne
  | cons e es =>
    simp only [List.mapM_cons, Option.bind_eq_bind, Option.bind_eq_some_iff] at h
    obtain ⟨x, -, xs, -, h⟩ := h
    cases h
    exact List.cons_ne_nil x xs

theorem Discipline.lawful_applicative (F : String → Prop) : (Discipline.applicative F).Lawful where
  mild := by
    refine ⟨fun {f} hf args => ⟨?_, ?_⟩, fun _ _ _ => trivial, fun _ _ => trivial⟩
    · rintro rfl
      exact absurd hf (by decide +kernel)
    · rintro rfl
      exact absurd hf (by decide +kernel)
  literal l := by cases l <;> rfl
  param _ _ _ := trivial
  reference known _ := known.1
  invocation known _ _ _ := known.1
  application _ _ _ := trivial
  sequence _ _ := trivial
  lambda {args params} heeds names d hd _ := by
    have two := heeds.2 rfl
    show d.params ≠ []
    rw [hd]
    refine ne_nil_of_mapM names (List.ne_nil_of_length_pos ?_)
    rw [List.length_dropLast, List.length_map]
    omega
  value heeds hx := (heeds.1 rfl (by simp) _ rfl).1 _ hx
  function heeds hcall names := by
    obtain ⟨hF, ne⟩ := (heeds.1 rfl (by simp) _ rfl).2 _ _ hcall
    exact ⟨hF, ne_nil_of_mapM names ne⟩
  built _ _ found _ _ made := by
    cases Standard.product_of_find? found made with
    | kernel known => exact Standard.plain_of_isKernel known
    | constant x => rfl
    | _ => trivial
  unbuilt _ _ _ _ _ _ := trivial
  unnamed _ _ _ _ := trivial
  refusal _ := trivial

/-! ### Room for calls -/

def Context.room (ctx : Context) : Nat := ctx.maxCallDepth - ctx.depth

theorem Context.room_of_push {ctx inner : Context} {name site : String} (h : ctx.push name site = .ok inner) :
    inner.room + 1 = ctx.room := by
  obtain ⟨free, depth, limit⟩ := Context.depth_of_push h
  unfold Context.room
  omega

section

variable {F : String → Prop} {w : Workspace} (holds : (Discipline.applicative F).Holds w)

def EvalHalts (F : String → Prop) (w : Workspace) (k : Nat) : Prop :=
  ∀ {node : Node} {frame : Frame} {ctx : Context}, (Discipline.applicative F).Fits w.scopes.size node → frame.Waiting →
    ctx.store = none → ctx.room = k → Halts (fun n => eval w n node frame ctx) Value.Waiting

def CallHalts (w : Workspace) (k : Nat) (args : List Value) : Prop :=
  ∀ (f : Closure) (ctx : Context) (site : String), (Value.function f).Waiting → ctx.store = none → ctx.room = k →
    Halts (fun n => call w n f args ctx site) Value.Waiting

theorem CallHalts.apply {k : Nat} {args : List Value} (calls : CallHalts w k args) {callee : Value} {ctx : Context}
    (hcallee : callee.Waiting) (store : ctx.store = none) (room : ctx.room = k) (name site : String) :
    Halts (fun n => applyTo w n name callee args ctx site) Value.Waiting := by
  refine Halts.later ?_
  simp only [applyTo.eq_def]
  cases callee with
  | function f => exact calls f ctx site hcallee store room
  | _ => exact halts_fail _ _ _

include holds

theorem halts_resolve {name : String} (hname : F name) (env : Env) {frame : Frame} (hframe : frame.Waiting) (ctx : Context)
    (evaluate : Nat → Node → Run Value) :
    Halts (fun n => resolve w (evaluate n) name env frame ctx) Value.Waiting := by
  unfold resolve
  cases hb : w.lookup env name with
  | none => exact halts_fail _ _ _
  | some b =>
    cases b with
    | function d => exact halts_pure (waiting_close (holds.lookup_function hb).2 hframe)
    | value node => exact absurd hname (holds.lookup hb).1
    | param depth index => exact halts_argument hframe name depth index ctx

/-- **Nodes**, if calls have an outcome: one case for each node, from the inside out. -/
theorem halts_eval {k : Nat} (calls : ∀ {args : List Value}, (∀ v ∈ args, v.Waiting) → CallHalts w k args) : EvalHalts F w k := by
  intro node frame ctx fits hframe store room
  induction fits with
  | @mk node here _ ih =>
    have all : ∀ {xs : List Node}, (∀ x ∈ xs, x ∈ node.children) →
        Halts (fun n => xs.mapM (fun x => eval w n x frame ctx)) (fun vs => ∀ v ∈ vs, v.Waiting) :=
      fun sub => halts_mapM (fun x hx => ih x (sub x hx))
    refine Halts.later ?_
    cases node with
    | constant v => exact halts_pure (.plain here.1)
    | param name depth index => exact halts_argument hframe name depth index ctx
    | kernel name label operands compute =>
      simp only [eval]
      refine (all (fun _ hx => hx)).bind (fun vs _ => ?_)
      cases hc : compute vs with
      | ok v => exact halts_pure (.plain ((here.1 vs).1 v hc))
      | error fault => exact halts_fail _ _ _
    | conditional label condition yes no =>
      simp only [eval]
      refine (ih condition (by simp [Node.children])).bind (fun v _ => ?_)
      split
      · exact ih yes (by simp [Node.children])
      · exact ih no (by simp [Node.children])
      · exact halts_fail _ _ _
    | sequence label items => exact halts_foldlM (fun x hx _ => ih x hx) (.plain rfl)
    | lambda d body => exact halts_pure (waiting_close here.1 hframe)
    | functionRef name env =>
      simp only [eval]
      exact halts_resolve holds here.1 env hframe ctx _
    | invoke name site env args =>
      simp only [eval]
      refine (halts_resolve holds here.1 env hframe ctx _).bind (fun callee hcallee => ?_)
      exact (all (fun _ hx => hx)).bind (fun vs hvs => (calls hvs).apply hcallee store room name site)
    | apply site callee args =>
      simp only [eval]
      refine (ih callee List.mem_cons_self).bind (fun f hf => ?_)
      refine (all (fun x hx => List.mem_cons_of_mem _ hx)).bind (fun vs hvs => ?_)
      exact (calls hvs).apply hf store room callee.name site
    | worker query label =>
      refine halts_pure (.plain ?_)
      cases query <;> rfl
    | fetch label key =>
      simp only [eval]
      refine (ih key List.mem_cons_self).bind (fun v _ => ?_)
      unfold fetchFrom
      rw [store]
      split <;> exact halts_fail _ _ _

/-- **Calls**, if nodes have an outcome with room for one call less.  The arguments that are left for what a function
returns are less than those it was given, since it missed one. -/
theorem halts_call {k : Nat} (nodes : ∀ k', k' + 1 = k → EvalHalts F w k') {args : List Value} (hargs : ∀ v ∈ args, v.Waiting) :
    CallHalts w k args := by
  induction hlen : args.length using Nat.strong_induction_on generalizing args with
  | _ len ih =>
    intro f ctx site hf store room
    cases hf with
    | plain h => cases h
    | function missing captured applied =>
      have hall : ∀ v ∈ f.applied ++ args, v.Waiting := fun v hv => (List.mem_append.1 hv).elim (applied v) (hargs v)
      refine Halts.later ?_
      simp only [call.eq_def]
      split
      · exact halts_pure (.function ‹_› captured hall)
      · rename_i hfull
        split
        · exact halts_fail _ _ _
        · rename_i body hbody
          have entered : (Frame.enter f.captured f.definition.depth
              ((f.applied ++ args).take f.definition.params.length)).Waiting :=
            List.forall_mem_cons.2 ⟨fun v hv => hall v (List.mem_of_mem_take hv), captured⟩
          refine (halts_ofExcept (fun inner h => h)).bind (fun inner pushed => ?_)
          have outcome := nodes inner.room ((Context.room_of_push pushed).trans room) (holds.body hbody) entered
            ((Context.store_of_push pushed).trans store) rfl
          refine outcome.bind (fun result hresult => ?_)
          split
          · exact halts_pure hresult
          · have less : ((f.applied ++ args).drop f.definition.params.length).length < len := by
              rw [List.length_append] at hfull
              rw [List.length_drop, List.length_append]
              omega
            exact (ih _ less (fun v hv => hall v (List.mem_of_mem_drop hv)) rfl).apply hresult store room _ site

/-- **Everything has an outcome**, however much room is left. -/
theorem evalHalts : ∀ k, EvalHalts F w k
  | 0 => halts_eval holds (halts_call holds (fun _ h => by cases h))
  | k + 1 => halts_eval holds (halts_call holds (fun k' h => by cases h; exact evalHalts k))

end

/-! ### Sessions -/

def Terms.applicative (F : String → Prop) : Terms where
  source := SourceHeeds (.applicative F)
  host _ name v := v.asFunction? = none ∧ ¬ F name
  store _ store := store = none

section

variable {F : String → Prop} {w : Workspace} {es : List Engine} {vs : List Value}

theorem Orderly.applicative (past : Orderly (.applicative F) w es vs) :
    (Discipline.applicative F).Holds w ∧ ∀ e ∈ es, e.Placed w :=
  Orderly.holds (T := .applicative F) (Discipline.lawful_applicative F) (fun h => h) (fun h => ⟨h.2, h.1⟩) past

theorem Engine.store_of_compile {e : Engine} (placed : e.Placed w) {n : Nat} {source : String} {r : Except Failure Closure}
    {w' : Workspace} (outcome : (e.compile n source).run w = some (r, w')) : w'.store = w.store := by
  have here := placed.2 e.globals.here List.mem_cons_self
  cases r with
  | error failure => exact (extends_of_refused here outcome).store
  | ok main =>
    obtain ⟨ss, read⟩ := parse_of_compile outcome
    obtain ⟨bs, -, hext⟩ := compileUnit_gives here (gives_of_compile read outcome)
    exact hext.store

theorem Orderly.store_eq_none (past : Orderly (.applicative F) w es vs) : w.store = none := by
  induction past with
  | start => rfl
  | engine _ _ ih | session _ _ ih => exact ih
  | @define w _ _ _ e _ name v _ ih =>
    obtain ⟨warnings, hw⟩ := w.define_snd e.globals name (.value (.constant v))
    rw [Engine.defineValue, hw]
    exact ih
  | store _ agreed _ => exact agreed
  | refused past mem _ outcome ih | compile past mem _ outcome ih =>
    exact (Engine.store_of_compile (past.applicative.2 _ mem) outcome).trans ih
  | call _ _ _ _ outcome ih =>
    obtain ⟨rfl, -⟩ := Engine.run_of_callAt outcome
    exact ih

/-- The main function of a unit is called without arguments and needs none, so its body is all there is to evaluate. -/
theorem halts_main (holds : (Discipline.applicative F).Holds w) {main : Closure}
    (h : main.definition.params = [] ∧ main.captured = [] ∧ main.applied = []) (ctx : Context) (store : ctx.store = none)
    (site : String) : Halts (fun n => call w n main [] ctx site) (fun _ => True) := by
  obtain ⟨params, captured, applied⟩ := h
  refine Halts.later ?_
  simp only [call, params, captured, applied, List.append_nil, List.length_nil, Nat.lt_irrefl, if_false, List.drop_nil,
    List.isEmpty_nil, if_true]
  split
  · exact halts_fail _ _ _
  · rename_i body hbody
    refine (halts_ofExcept (fun inner h => h)).bind (fun inner pushed => ?_)
    have entered : (Frame.enter [] main.definition.depth (List.take 0 [])).Waiting :=
      List.forall_mem_cons.2 ⟨fun v hv => (by cases hv), fun a ha => by cases ha⟩
    refine (evalHalts holds inner.room (holds.body hbody) entered ((Context.store_of_push pushed).trans store) rfl).bind ?_
    exact fun _ _ => halts_pure trivial

/-- **A bound on calls bounds the run.**  In a session of sources in which functions have parameters and their names are no
names of variables, without a store and with plain values from outside, every source that compiles comes to an end, with a
value or an error, whatever the bound on calls is. -/
theorem bounded_depth_terminates (past : Orderly (.applicative F) w es vs) {e : Engine} (mem : e ∈ es) {source : String}
    (agreed : SourceHeeds (.applicative F) source) {n : Nat} {main : Closure} {w₁ : Workspace}
    (compiles : (e.compile n source).run w = some (.ok main, w₁)) :
    ∃ (r : Except EvalError Value) (m : Nat), ∀ k, m ≤ k → (e.run k source).run w = some (r.mapError .eval, w₁) := by
  obtain ⟨holds, placed⟩ := past.applicative
  obtain ⟨holds₁, -, isMain, -⟩ := (Discipline.lawful_applicative F).upholds_source holds (placed e mem) agreed compiles
  have store : w₁.store = none := (Engine.store_of_compile (placed e mem) compiles).trans past.store_eq_none
  obtain ⟨m, r, answers, -⟩ := halts_main holds₁ (isMain main rfl) (e.context w₁) store main.definition.name
  refine ⟨r, max n m, fun k hk => ?_⟩
  rw [Engine.run_run, Engine.compile_of_le (Nat.le_trans (Nat.le_max_left n m) hk) compiles]
  show (e.callAt k main [] main.definition.name).run w₁ = _
  rw [Engine.run_callAt, answers k (Nat.le_trans (Nat.le_max_right n m) hk)]
  cases r <;> rfl

end

def compiles (r : Option (Except Failure Closure × Workspace)) : Bool := r.any (fun p => p.1.toOption.isSome)

theorem exists_of_compiles {r : Option (Except Failure Closure × Workspace)} (h : compiles r = true) :
    ∃ main w, r = some (.ok main, w) := by
  rcases r with _ | ⟨_ | main, w⟩
  · cases h
  · cases h
  · exact ⟨main, w, rfl⟩

theorem bounded_depth_terminates_loop :
    let source := "define(twice(f, x), f(f(x))); define(loop(x), loop(x + 1)); twice(loop, 0)"
    let F : String → Prop := fun name => name = "twice" ∨ name = "loop"
    let (e, w) := Engine.new .standard { maxCallDepth := 50 } {}
    Orderly (.applicative F) w [e] [] ∧ SourceHeeds (.applicative F) source ∧
      ∃ main w₁, (e.compile 20 source).run w = some (.ok main, w₁) ∧
        ∃ (r : Except EvalError Value) (m : Nat), ∀ k, m ≤ k → (e.run k source).run w = some (r.mapError .eval, w₁) := by
  intro source F
  have past : Orderly (.applicative F) (Engine.new .standard { maxCallDepth := 50 } {}).2
      [(Engine.new .standard { maxCallDepth := 50 } {}).1] [] := .engine .start _
  have read : Program.parse source = .ok
      [.call "define" [.call "twice" [.ident "f", .ident "x"], .call "f" [.call "f" [.ident "x"]]],
       .call "define" [.call "loop" [.ident "x"], .call "loop" [⟨.ident "x", [⟨.add, .lit (.int 1)⟩]⟩]],
       .call "twice" [.ident "loop", .lit (.int 0)]] := by decide +kernel
  have agreed : SourceHeeds (.applicative F) source := by
    intro ss hss
    obtain rfl := Except.ok.inj (read.symm.trans hss)
    simp [Expr.heeds_call, Expr.heeds_ident, Expr.heeds_mk, Expr.lit, Expr.heeds_ofOperand, Operand.Heeds, Link.Heed,
      Rules.applicative, Expr.sorted_call, F]
  obtain ⟨main, w₁, compiled⟩ := exists_of_compiles
    (show compiles (((Engine.new .standard { maxCallDepth := 50 } {}).1.compile 20 source).run
      (Engine.new .standard { maxCallDepth := 50 } {}).2) = true by decide +kernel)
  exact ⟨past, agreed, main, w₁, compiled, bounded_depth_terminates past List.mem_cons_self agreed compiled⟩

end ChainCalc
