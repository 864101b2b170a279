import ChainCalc.Proofs.Evaluation.Application
import ChainCalc.Proofs.Inlining.Law
/-!
# Traces — the calls under way when an error is met

An errand that fails meets a fault itself or asks for an errand that fails, and only what a call asks of the body of its
function is done in another context than its own (`Errand.FailsUnder`).  So the trace of an error is that of the context
around the errand, followed by the calls on the way from there to the fault, and it is as long as the calls were nested.
It is of full length when the limit on calls is what was met.  For that, computations have to leave it to the evaluator to
speak of the limit; those of the standard registry do, and so this holds of everything that is evaluated in a session
(`traces_are_faithful`).
-/
namespace ChainCalc

/-! ### Errors of several runs -/

namespace Run

variable {α β : Type} {e : EvalError}

theorem exists_of_mapM_error {f : α → Run β} : ∀ {l : List α}, (l.mapM f).run = some (.error e) →
    ∃ a ∈ l, (f a).run = some (.error e)
  | [], h => by
    rw [List.mapM_nil] at h
    cases h
  | a :: l, h => by
    rw [List.mapM_cons, bind_eq_error] at h
    rcases h with here | ⟨b, -, h⟩
    · exact ⟨a, List.mem_cons_self, here⟩
    · rw [bind_eq_error] at h
      rcases h with h | ⟨bs, -, h⟩
      · obtain ⟨a', mem, later⟩ := exists_of_mapM_error h
        exact ⟨a', List.mem_cons_of_mem _ mem, later⟩
      · cases h

theorem exists_of_foldlM_error {f : β → α → Run β} : ∀ {l : List α} {b : β}, (l.foldlM f b).run = some (.error e) →
    ∃ a ∈ l, ∃ b, (f b a).run = some (.error e)
  | [], b, h => by
    rw [List.foldlM_nil] at h
    cases h
  | a :: l, b, h => by
    rw [List.foldlM_cons, bind_eq_error] at h
    rcases h with here | ⟨b', -, h⟩
    · exact ⟨a, List.mem_cons_self, b, here⟩
    · obtain ⟨a', mem, later⟩ := exists_of_foldlM_error h
      exact ⟨a', List.mem_cons_of_mem _ mem, later⟩

end Run

/-! ### The trace of a context -/

namespace Context

variable {ctx inner : Context} {name site : String}

theorem length_trace (ctx : Context) : ctx.trace.length = ctx.depth := by
  unfold trace depth CallStack.trace
  rw [List.length_reverse, ctx.stack.depth_eq]

/-- **The call that was entered is the last of the trace.** -/
theorem trace_of_push (pushed : ctx.push name site = .ok inner) : inner.trace = ctx.trace ++ [⟨name, site⟩] := by
  obtain ⟨-, rfl⟩ := push_eq_ok.1 pushed
  exact List.reverse_cons

end Context

/-! ### Errands -/

/-- What is asked of an evaluation: the value of a node, or of a function or any other value applied to arguments. -/
inductive Errand where
  | node (node : Node) (frame : Frame)
  | apply (name : String) (callee : Value) (args : List Value) (site : String)
  | call (f : Closure) (args : List Value) (site : String)

namespace Errand

def run (w : Workspace) (n : Nat) : Errand → Context → Run Value
  | .node x frame, ctx => eval w n x frame ctx
  | .apply name callee args site, ctx => applyTo w n name callee args ctx site
  | .call f args site, ctx => ChainCalc.call w n f args ctx site

theorem run_zero (w : Workspace) (t : Errand) (ctx : Context) : t.run w 0 ctx = Run.outOfSteps := by
  cases t with
  | node x frame => rw [run, eval]
  | apply name callee args site => rw [run, applyTo]
  | call f args site => rw [run, ChainCalc.call]

theorem run_le_of_le (w : Workspace) {n m : Nat} (h : n ≤ m) (t : Errand) (ctx : Context) :
    Run.Le (t.run w n ctx) (t.run w m ctx) := by
  cases t with
  | node x frame => exact eval_le_of_le w h x frame ctx
  | apply name callee args site => exact applyTo_le_of_le w h name callee args ctx site
  | call f args site => exact call_le_of_le w h f args ctx site

def ofBody (f : Closure) (args : List Value) (body : Node) : Errand :=
  .node body (Frame.enter f.captured f.definition.depth ((f.applied ++ args).take f.definition.params.length))

section

variable (w : Workspace)

/-- **The outcome of an errand**, in enough steps. -/
def Ends (t : Errand) (ctx : Context) (r : Except EvalError Value) : Prop := ∃ n, (t.run w n ctx).run = some r

theorem Ends.unique {w : Workspace} {t : Errand} {ctx : Context} {r r' : Except EvalError Value} (h : t.Ends w ctx r)
    (h' : t.Ends w ctx r') : r = r' := by
  obtain ⟨n, hn⟩ := h
  obtain ⟨m, hm⟩ := h'
  have hn' := run_le_of_le w (Nat.le_max_left n m) t ctx r hn
  have hm' := run_le_of_le w (Nat.le_max_right n m) t ctx r' hm
  exact Option.some.inj (hn'.symm.trans hm')

abbrev Fails (t : Errand) (ctx : Context) (e : EvalError) : Prop := t.Ends w ctx (.error e)

/-- **What an errand asks for in its own context**: nodes inside it and what its name stands for; the application of what was
evaluated, which is a call if that is a function; and what a function returns, applied to the arguments that are left. -/
inductive Asks (ctx : Context) : Errand → Errand → Prop
  | child {x y : Node} {frame : Frame} (mem : y ∈ x.children) : Asks ctx (.node x frame) (.node y frame)
  | mention {name : String} {env : Env} {x : Node} {frame : Frame} (bound : w.lookup env name = some (.value x)) :
      Asks ctx (.node (.functionRef name env) frame) (.node x frame)
  | callee {name site : String} {env : Env} {args : List Node} {x : Node} {frame : Frame}
      (bound : w.lookup env name = some (.value x)) : Asks ctx (.node (.invoke name site env args) frame) (.node x frame)
  | invoke {name site : String} {env : Env} {args : List Node} {frame : Frame} {v : Value} {values : List Value} {n : Nat}
      (resolved : (resolve w (fun x => eval w n x frame ctx) name env frame ctx).run = some (.ok v))
      (given : EvaluatesAll w args frame ctx (.ok values)) :
      Asks ctx (.node (.invoke name site env args) frame) (.apply name v values site)
  | apply {site : String} {callee : Node} {args : List Node} {frame : Frame} {v : Value} {values : List Value}
      (evaluated : Evaluates w callee frame ctx (.ok v)) (given : EvaluatesAll w args frame ctx (.ok values)) :
      Asks ctx (.node (.apply site callee args) frame) (.apply callee.name v values site)
  | function {name site : String} {f : Closure} {args : List Value} :
      Asks ctx (.apply name (.function f) args site) (.call f args site)
  | rest {site : String} {f : Closure} {args : List Value} {v : Value} {n : Nat}
      (result : (runBody w n f (f.applied ++ args) ctx site).run = some (.ok v)) :
      Asks ctx (.call f args site) (.apply f.definition.name v ((f.applied ++ args).drop f.definition.params.length) site)

/-- **What an errand may meet itself**: the fault of a computation, the limit on calls, and other faults, which say nothing of
that limit. -/
inductive Meets (ctx : Context) : Errand → Fault → Prop
  | computed {name label : String} {operands : List Node} {compute : Kernel} {frame : Frame} {values : List Value}
      {fault : Fault} (given : EvaluatesAll w operands frame ctx (.ok values)) (refused : compute values = .error fault) :
      Meets ctx (.node (.kernel name label operands compute) frame) fault
  | full {f : Closure} {args : List Value} {site : String} (full : ctx.maxCallDepth ≤ ctx.depth) :
      Meets ctx (.call f args site) (.stackOverflow ctx.maxCallDepth)
  | other {t : Errand} {fault : Fault} (other : fault.isOverflow = false) : Meets ctx t fault

/-- **The errand fails inside the given calls**, outermost first: each step leads to an errand that fails with the same error,
and the last one meets its fault itself, in the context that the calls have led to. -/
inductive FailsUnder (e : EvalError) : Errand → Context → Trace → Prop
  | here {t : Errand} {ctx : Context} {primitive : String} {fault : Fault} (failed : t.Fails w ctx e)
      (meets : t.Meets w ctx fault) (error : e = ctx.error primitive fault) : FailsUnder e t ctx []
  | asked {t part : Errand} {ctx : Context} {calls : Trace} (failed : t.Fails w ctx e) (asks : t.Asks w ctx part)
      (inside : FailsUnder e part ctx calls) : FailsUnder e t ctx calls
  | entered {f : Closure} {args : List Value} {site : String} {ctx inner : Context} {body : Node} {calls : Trace}
      (failed : (Errand.call f args site).Fails w ctx e)
      (full : f.definition.params.length ≤ (f.applied ++ args).length) (known : w.body? f.definition = some body)
      (pushed : ctx.push f.definition.name site = .ok inner) (inside : FailsUnder e (.ofBody f args body) inner calls) :
      FailsUnder e (.call f args site) ctx (⟨f.definition.name, site⟩ :: calls)

end

end Errand

open Errand

/-! ### Every error is met somewhere -/

section

variable {w : Workspace} {ctx : Context} {e : EvalError}

theorem Run.error_of_fail {α : Type} {primitive : String} {fault : Fault}
    (h : (Run.fail ctx primitive fault : Run α).run = some (.error e)) : e = ctx.error primitive fault := by
  cases h
  rfl

theorem failsUnder_other {t : Errand} (failed : t.Fails w ctx e) {α : Type} {primitive : String} {fault : Fault}
    (other : fault.isOverflow = false) (h : (Run.fail ctx primitive fault : Run α).run = some (.error e)) :
    ∃ calls, FailsUnder w e t ctx calls := ⟨[], .here failed (.other other) (Run.error_of_fail h)⟩

theorem failsUnder_argument {t : Errand} (failed : t.Fails w ctx e) {name : String} {depth index : Nat} {frame : Frame}
    (h : (argument name depth index frame ctx).run = some (.error e)) : ∃ calls, FailsUnder w e t ctx calls := by
  unfold argument at h
  split at h
  · cases h
  · exact failsUnder_other failed rfl h

theorem failsUnder_resolve {t : Errand} (failed : t.Fails w ctx e) {evaluate : Node → Run Value} {name : String} {env : Env}
    {frame : Frame} (value : ∀ x, w.lookup env name = some (.value x) → (evaluate x).run = some (.error e) →
      ∃ calls, FailsUnder w e t ctx calls) (h : (resolve w evaluate name env frame ctx).run = some (.error e)) :
    ∃ calls, FailsUnder w e t ctx calls := by
  unfold resolve at h
  split at h
  · cases h
  · exact value _ ‹_› h
  · exact failsUnder_argument failed h
  · exact failsUnder_other failed rfl h

theorem failsUnder_fetchFrom {t : Errand} (failed : t.Fails w ctx e) {v : Value}
    (h : (fetchFrom ctx v).run = some (.error e)) : ∃ calls, FailsUnder w e t ctx calls := by
  unfold fetchFrom at h
  split at h
  · split at h
    · exact failsUnder_other failed rfl h
    · split at h
      · cases h
      · exact failsUnder_other failed rfl h
  · exact failsUnder_other failed rfl h

/-! One step of evaluation, where every error that is met in fewer steps is met somewhere. -/

section

variable {n : Nat} (ih : ∀ {t : Errand} {ctx : Context} {e : EvalError}, (t.run w n ctx).run = some (.error e) →
  ∃ calls, FailsUnder w e t ctx calls)

include ih

theorem failsUnder_asked {t part : Errand} (failed : t.Fails w ctx e) (asks : t.Asks w ctx part)
    (h : (part.run w n ctx).run = some (.error e)) : ∃ calls, FailsUnder w e t ctx calls := by
  obtain ⟨calls, inside⟩ := ih h
  exact ⟨calls, .asked failed asks inside⟩

/-- **A node** fails where a node inside it does, what its name stands for or what it applies, or in its own computation. -/
theorem failsUnder_node {x : Node} {frame : Frame} (h : ((Errand.node x frame).run w (n + 1) ctx).run = some (.error e)) :
    ∃ calls, FailsUnder w e (.node x frame) ctx calls := by
  have failed : (Errand.node x frame).Fails w ctx e := ⟨n + 1, h⟩
  have asked : ∀ {part : Errand}, (Errand.node x frame).Asks w ctx part → (part.run w n ctx).run = some (.error e) →
      ∃ calls, FailsUnder w e (.node x frame) ctx calls := failsUnder_asked ih failed
  have child : ∀ {y : Node}, y ∈ x.children → (eval w n y frame ctx).run = some (.error e) →
      ∃ calls, FailsUnder w e (.node x frame) ctx calls := fun mem => asked (.child mem)
  have children : ∀ {ys : List Node}, (∀ y ∈ ys, y ∈ x.children) →
      (ys.mapM (fun y => eval w n y frame ctx)).run = some (.error e) →
      ∃ calls, FailsUnder w e (.node x frame) ctx calls := by
    intro ys sub h
    obtain ⟨y, mem, h⟩ := Run.exists_of_mapM_error h
    exact child (sub y mem) h
  rw [Errand.run, eval.eq_def] at h
  cases x with
  | constant v => cases h
  | lambda d body => cases h
  | worker query label => cases h
  | param name depth index => exact failsUnder_argument failed h
  | kernel name label operands compute =>
    rcases Run.bind_eq_error.1 h with h | ⟨values, given, h⟩
    · exact children (fun _ mem => mem) h
    · rw [ofKernel_run] at h
      cases refused : compute values with
      | ok v => rw [refused] at h; cases h
      | error fault =>
        rw [refused] at h
        cases h
        exact ⟨[], .here failed (.computed ⟨n, given⟩ refused) rfl⟩
  | conditional label condition yes no =>
    rcases Run.bind_eq_error.1 h with h | ⟨v, -, h⟩
    · exact child (by simp [Node.children]) h
    · split at h
      · exact child (by simp [Node.children]) h
      · exact child (by simp [Node.children]) h
      · exact failsUnder_other failed rfl h
  | sequence label items =>
    obtain ⟨y, mem, -, h⟩ := Run.exists_of_foldlM_error h
    exact child mem h
  | functionRef name env => exact failsUnder_resolve failed (fun x bound h => asked (.mention bound) h) h
  | invoke name site env args =>
    rcases Run.bind_eq_error.1 h with h | ⟨callee, resolved, h⟩
    · exact failsUnder_resolve failed (fun x bound h => asked (.callee bound) h) h
    rcases Run.bind_eq_error.1 h with h | ⟨values, given, h⟩
    · exact children (fun _ mem => mem) h
    · exact asked (.invoke resolved ⟨n, given⟩) h
  | apply site callee args =>
    rcases Run.bind_eq_error.1 h with h | ⟨v, evaluated, h⟩
    · exact child List.mem_cons_self h
    rcases Run.bind_eq_error.1 h with h | ⟨values, given, h⟩
    · exact children (fun _ mem => List.mem_cons_of_mem _ mem) h
    · exact asked (.apply ⟨n, evaluated⟩ ⟨n, given⟩) h
  | fetch label key =>
    rcases Run.bind_eq_error.1 h with h | ⟨v, -, h⟩
    · exact child List.mem_cons_self h
    · exact failsUnder_fetchFrom failed h

/-- **A call** fails where there is no room for it, inside the body, or where what it returns is applied to what is left. -/
theorem failsUnder_call {f : Closure} {args : List Value} {site : String}
    (h : ((Errand.call f args site).run w (n + 1) ctx).run = some (.error e)) :
    ∃ calls, FailsUnder w e (.call f args site) ctx calls := by
  have failed : (Errand.call f args site).Fails w ctx e := ⟨n + 1, h⟩
  rcases Nat.lt_or_ge (f.applied ++ args).length f.definition.params.length with few | enough
  · rw [Errand.run, call_of_few w f ctx site n few] at h
    cases h
  rw [Errand.run, call_of_enough w f ctx site n enough] at h
  rcases Run.bind_eq_error.1 h with h | ⟨v, result, h⟩
  · unfold runBody at h
    split at h
    · exact failsUnder_other failed rfl h
    · rename_i body known
      rcases Run.bind_eq_error.1 h with h | ⟨inner, pushed, h⟩
      · obtain ⟨full, error⟩ := Context.push_eq_error.1 (Option.some.inj h)
        exact ⟨[], .here failed (.full full) error⟩
      · -- the body fails in a context of its own, one call deeper
        obtain ⟨calls, inside⟩ := ih (t := .ofBody f args body) h
        exact ⟨_, .entered failed enough known (Option.some.inj pushed) inside⟩
  · split at h
    · cases h
    · exact failsUnder_asked ih failed (.rest result) h

end

/-- **Every error is met somewhere**: one step of evaluation meets it itself or asks for what does. -/
theorem exists_failsUnder (w : Workspace) : ∀ (n : Nat) {t : Errand} {ctx : Context} {e : EvalError},
    (t.run w n ctx).run = some (.error e) → ∃ calls, FailsUnder w e t ctx calls
  | 0, t, ctx, e, h => by
    rw [Errand.run_zero] at h
    cases h
  | n + 1, t, ctx, e, h => by
    have ih := @exists_failsUnder w n
    cases t with
    | node x frame => exact failsUnder_node ih h
    | apply name callee args site =>
      have failed : (Errand.apply name callee args site).Fails w ctx e := ⟨n + 1, h⟩
      rw [Errand.run, applyTo.eq_def] at h
      cases callee with
      | function f => exact failsUnder_asked ih failed .function h
      | _ => exact failsUnder_other failed rfl h
    | call f args site => exact failsUnder_call ih h

end

/-! ### Traces -/

section

variable {w : Workspace} {e : EvalError} {t : Errand} {ctx : Context} {calls : Trace}

/-- **The trace of an error is that of the context, followed by the calls on the way to it.** -/
theorem Errand.FailsUnder.trace_eq (h : t.FailsUnder w e ctx calls) : e.trace = ctx.trace ++ calls := by
  induction h with
  | here _ _ error =>
    subst error
    exact (List.append_nil _).symm
  | asked _ _ _ ih => exact ih
  | entered _ _ _ pushed _ ih => rw [ih, Context.trace_of_push pushed, List.append_assoc, List.singleton_append]

theorem Errand.FailsUnder.depth_add_le (h : t.FailsUnder w e ctx calls) (room : ctx.depth ≤ ctx.maxCallDepth) :
    ctx.depth + calls.length ≤ ctx.maxCallDepth := by
  induction h with
  | here => exact room
  | asked _ _ _ ih => exact ih room
  | entered _ _ _ pushed _ ih =>
    obtain ⟨free, depth, limit⟩ := Context.depth_of_push pushed
    have := ih (by omega)
    rw [List.length_cons]
    omega

end

/-! ### The limit on calls -/

/-- The computation leaves it to the evaluator to say that calls are nested too deeply.  A computation handed in from outside
may fail as it likes; those of the standard registry never say so (`Standard.honest_of_isKernel`). -/
def Kernel.Honest (compute : Kernel) : Prop := ∀ values limit, compute values ≠ .error (.stackOverflow limit)

/-- No computation in the node speaks of the limit on calls. -/
def Node.Honest (node : Node) : Prop :=
  node.Every (fun
    | .kernel _ _ _ compute => compute.Honest
    | _ => True)

structure Workspace.Honest (w : Workspace) : Prop where
  value : ∀ {i name x}, (name, .value x) ∈ (w.scope i).entries → x.Honest
  body : ∀ {i : Nat} {x}, (w.bodies[i]?).join = some x → x.Honest

def Errand.Honest : Errand → Prop
  | .node x _ => x.Honest
  | _ => True

theorem Workspace.Honest.lookup {w : Workspace} (honest : w.Honest) {env : Env} {name : String} {x : Node}
    (bound : w.lookup env name = some (.value x)) : x.Honest := by
  obtain ⟨s, outer, -, found⟩ := World.lookupPath_eq_some bound
  exact honest.value (Table.mem_of_get? found)

theorem Errand.Asks.honest {w : Workspace} (honest : w.Honest) {ctx : Context} {t part : Errand} (asks : t.Asks w ctx part)
    (ht : t.Honest) : part.Honest := by
  cases asks with
  | child mem => exact Node.Every.children ht _ mem
  | mention bound => exact honest.lookup bound
  | callee bound => exact honest.lookup bound
  | _ => trivial

/-- **Only the limit on calls that is met is spoken of**: there is no room for one call more. -/
theorem Errand.FailsUnder.overflow {w : Workspace} (honest : w.Honest) {e : EvalError} {limit : Nat}
    (fault : e.fault = .stackOverflow limit) {t : Errand} {ctx : Context} {calls : Trace} (h : t.FailsUnder w e ctx calls)
    (ht : t.Honest) : limit = ctx.maxCallDepth ∧ ctx.maxCallDepth ≤ ctx.depth + calls.length := by
  induction h with
  | here _ meets error =>
    subst error
    cases meets with
    | computed _ refused =>
      obtain rfl : _ = _ := fault
      exact absurd refused (Node.Every.here ht _ _)
    | full full =>
      cases fault
      exact ⟨rfl, full⟩
    | other other =>
      obtain rfl : _ = _ := fault
      cases other
  | asked _ asks _ ih => exact ih (asks.honest honest ht)
  | entered _ _ known pushed _ ih =>
    obtain ⟨-, depth, same⟩ := Context.depth_of_push pushed
    obtain ⟨rfl, below⟩ := ih (honest.body known)
    rw [List.length_cons]
    exact ⟨same, by omega⟩

/-- If calls were nested too deeply, the error names the limit, and its trace is as long as the limit allows. -/
def EvalError.OverflowsOnlyAt (e : EvalError) (limit : Nat) : Prop :=
  ∀ named, e.fault = .stackOverflow named → named = limit ∧ e.trace.length = limit

/-- **The trace of an error that an errand ends in.** -/
theorem Errand.Fails.trace {w : Workspace} {t : Errand} {ctx : Context} {e : EvalError} (room : ctx.depth ≤ ctx.maxCallDepth)
    (failed : t.Fails w ctx e) :
    (∃ calls, t.FailsUnder w e ctx calls ∧ e.trace = ctx.trace ++ calls) ∧ e.trace.length ≤ ctx.maxCallDepth ∧
      (w.Honest → t.Honest → e.OverflowsOnlyAt ctx.maxCallDepth) := by
  obtain ⟨n, h⟩ := failed
  obtain ⟨calls, under⟩ := exists_failsUnder w n h
  have length : e.trace.length = ctx.depth + calls.length := by
    rw [under.trace_eq, List.length_append, ctx.length_trace]
  have bounded := under.depth_add_le room
  refine ⟨⟨calls, under, under.trace_eq⟩, by omega, fun honest ht limit fault => ?_⟩
  obtain ⟨same, full⟩ := under.overflow honest fault ht
  exact ⟨same, by omega⟩

/-! ### Sessions -/

theorem Standard.honest_of_isKernel {compute : Kernel} (known : IsKernel compute) : compute.Honest :=
  fun values limit => (counted_of_isKernel known values).ne_stackOverflow limit

section

variable {w : Workspace}

theorem Enters.room {f : Closure} {args : List Value} {ctx inner : Context} {site : String} {body : Node} {frame : Frame}
    (h : Enters w f args ctx site body frame inner) : inner.depth ≤ inner.maxCallDepth := by
  induction h with
  | body _ _ pushed =>
    obtain ⟨free, depth, limit⟩ := Context.depth_of_push pushed
    omega
  | rest _ _ _ _ _ ih => exact ih

theorem Enters.honest (honest : w.Honest) {f : Closure} {args : List Value} {ctx inner : Context} {site : String} {body : Node}
    {frame : Frame} (h : Enters w f args ctx site body frame inner) : body.Honest := by
  induction h with
  | body _ known _ => exact honest.body known
  | rest _ _ _ _ _ ih => exact ih

/-- What is evaluated on behalf of an honest node is honest, and the calls around it are within the limit. -/
theorem Visits.honest (honest : w.Honest) {x node : Node} {frame frame' : Frame} {ctx ctx' : Context}
    (h : Visits w x frame ctx node frame' ctx') :
    x.Honest → ctx.depth ≤ ctx.maxCallDepth → node.Honest ∧ ctx'.depth ≤ ctx'.maxCallDepth := by
  induction h with
  | here => exact fun hx room => ⟨hx, room⟩
  | child mem _ ih => exact fun hx room => ih (Node.Every.children hx _ mem) room
  | mention bound _ ih => exact fun _ room => ih (honest.lookup bound) room
  | callee bound _ ih => exact fun _ room => ih (honest.lookup bound) room
  | invoke _ _ enters _ ih => exact fun _ _ => ih (enters.honest honest) enters.room
  | apply _ _ enters _ ih => exact fun _ _ => ih (enters.honest honest) enters.room

variable {es : List Engine} {vs : List Value} {log : List Event}

/-- The computations of the standard registry never speak of the limit on calls. -/
theorem History.honest (past : History w es vs log) : w.Honest := by
  have honest : ∀ {n : Nat} {x : Node}, Discipline.standard.Fits n x → x.Honest := by
    refine fun fits => fits.imp (fun x here => ?_)
    cases x with
    | kernel name label operands compute => exact Standard.honest_of_isKernel here.1
    | _ => trivial
  exact ⟨fun mem => honest (past.standard.binding mem).2, fun known => honest (past.standard.body known)⟩

theorem trace_of_callAt (past : History w es vs log) {e : Engine} {n : Nat} {f : Closure} {args : List Value} {site : String}
    {err : EvalError} {w' : Workspace} (failed : (e.callAt n f args site).run w = some (.error (.eval err), w')) :
    err.trace.length ≤ e.settings.maxCallDepth ∧ err.OverflowsOnlyAt e.settings.maxCallDepth := by
  obtain ⟨-, ⟨v, h, -⟩ | ⟨err', h, hcall⟩⟩ := Engine.run_of_callAt failed
  · cases h
  · cases h
    have failed : (Errand.call f args site).Fails w (e.context w) err := ⟨n, hcall⟩
    obtain ⟨-, bounded, overflows⟩ := failed.trace (Nat.zero_le _)
    exact ⟨bounded, overflows past.honest trivial⟩

theorem trace_of_run (past : History w es vs log) {e : Engine} (mem : e ∈ es) {n : Nat} {source : String} {err : EvalError}
    {w' : Workspace} (failed : (e.run n source).run w = some (.error (.eval err), w')) :
    err.trace.length ≤ e.settings.maxCallDepth ∧ err.OverflowsOnlyAt e.settings.maxCallDepth := by
  obtain ⟨main, w₁, compiled, failed⟩ := Engine.call_of_run failed
  obtain ⟨statements, read⟩ := Engine.parse_of_compile compiled
  exact trace_of_callAt (past.compile mem read compiled) failed

end

/-- **Traces are faithful and bounded.**  An error that an evaluation or a call ends in carries the trace of its context,
followed by the calls that led to the fault, outermost first; there are never more of them than the limit allows, and if
that limit is what was met, the trace is as long as it allows.  The last is a matter of computations that leave it to the
evaluator to speak of the limit, and after every history it holds without a condition: of calls, of sources that are run, and
of every node that is evaluated in a call. -/
theorem traces_are_faithful :
    (∀ (w : Workspace) (t : Errand) (ctx : Context) (e : EvalError), ctx.depth ≤ ctx.maxCallDepth → t.Fails w ctx e →
      (∃ calls, t.FailsUnder w e ctx calls ∧ e.trace = ctx.trace ++ calls) ∧ e.trace.length ≤ ctx.maxCallDepth ∧
        (w.Honest → t.Honest → e.OverflowsOnlyAt ctx.maxCallDepth)) ∧
    ∀ (w : Workspace) (es : List Engine) (vs : List Value) (log : List Event), History w es vs log →
      (∀ e ∈ es, ∀ n source err w', (e.run n source).run w = some (.error (.eval err), w') →
        err.trace.length ≤ e.settings.maxCallDepth ∧ err.OverflowsOnlyAt e.settings.maxCallDepth) ∧
      (∀ e ∈ es, ∀ n f args site err w', (e.callAt n f args site).run w = some (.error (.eval err), w') →
        err.trace.length ≤ e.settings.maxCallDepth ∧ err.OverflowsOnlyAt e.settings.maxCallDepth) ∧
      ∀ f args ctx site body frame inner node frame' ctx' err, Enters w f args ctx site body frame inner →
        Visits w body frame inner node frame' ctx' → Evaluates w node frame' ctx' (.error err) →
          err.trace.length ≤ ctx'.maxCallDepth ∧ err.OverflowsOnlyAt ctx'.maxCallDepth := by
  refine ⟨fun w t ctx e room failed => failed.trace room, fun w es vs log past => ⟨?_, ?_, ?_⟩⟩
  · exact fun e mem n source err w' failed => trace_of_run past mem failed
  · exact fun e _ n f args site err w' failed => trace_of_callAt past failed
  · intro f args ctx site body frame inner node frame' ctx' err enters visits failed
    obtain ⟨honest, room⟩ := visits.honest past.honest (enters.honest past.honest) enters.room
    have failed : (Errand.node node frame').Fails w ctx' err := failed
    obtain ⟨-, bounded, overflows⟩ := failed.trace room
    exact ⟨bounded, overflows past.honest honest⟩

/-- The error of a source that fails while it is evaluated, in twenty steps, and what is left. -/
def Engine.runError? (e : Engine) (source : String) (w : Workspace) : Option (EvalError × Workspace) :=
  match (e.run 20 source).run w with
  | some (.error (.eval err), w') => some (err, w')
  | _ => none

theorem Engine.run_of_runError? {e : Engine} {source : String} {w w' : Workspace} {err : EvalError}
    (h : e.runError? source w = some (err, w')) : (e.run 20 source).run w = some (.error (.eval err), w') := by
  unfold runError? at h
  split at h
  · cases h
    assumption
  · cases h

/-- A function that calls itself without end, with an argument that is computed each time: the third call does not fit any
more, neither in a workspace made by hand nor in a session with the same limit. -/
theorem traces_are_faithful_loop :
    let env : Env := ⟨⟨0, 0⟩, []⟩
    let d : Definition := ⟨0, "loop", ["n"], 1⟩
    let next : Node := .kernel "+" "n + 1" [.param "n" 1 0, .constant (.int 1)] (Standard.binaryKernel .add)
    let w : Workspace := {
      scopes := #[⟨[("loop", .function d)]⟩]
      bodies := #[some (.invoke "loop" "loop(n + 1)" env [next])] }
    let ctx : Context := { stack := CallStack.push {} ⟨"main", "main"⟩, maxCallDepth := 3 }
    let t : Errand := .node (.invoke "loop" "loop(7)" env [.constant (.int 7)]) .root
    let e : EvalError := ⟨"loop", .stackOverflow 3, [⟨"main", "main"⟩, ⟨"loop", "loop(7)"⟩, ⟨"loop", "loop(n + 1)"⟩]⟩
    let engine := (Engine.new .standard { maxCallDepth := 3 } {}).1
    let w₀ := (Engine.new .standard { maxCallDepth := 3 } {}).2
    (ctx.depth ≤ ctx.maxCallDepth ∧ t.Fails w ctx e ∧ w.Honest ∧ t.Honest ∧
      (∃ calls, t.FailsUnder w e ctx calls ∧ e.trace = ctx.trace ++ calls) ∧ e.trace.length ≤ 3 ∧ e.trace.length = 3) ∧
    History w₀ [engine] [] [] ∧ ∃ err w', (engine.run 20 "define(loop(n), loop(n + 1)); loop(7)").run w₀ =
      some (.error (.eval err), w') ∧ err.fault = .stackOverflow 3 ∧ err.trace.length = 3 := by
  intro env d next w ctx t e engine w₀
  have room : ctx.depth ≤ ctx.maxCallDepth := by decide
  have failed : t.Fails w ctx e := ⟨20, rfl⟩
  have constant : ∀ v, (Node.constant v).Honest := fun _ => .mk trivial (fun _ h => nomatch h)
  have param : (Node.param "n" 1 0).Honest := .mk trivial (fun _ h => nomatch h)
  have computed : next.Honest := .mk (Standard.honest_of_isKernel (.binary .add))
    (List.forall_mem_cons.2 ⟨param, List.forall_mem_singleton.2 (constant _)⟩)
  have tree : t.Honest := .mk trivial (List.forall_mem_singleton.2 (constant _))
  have honest : w.Honest := by
    refine ⟨fun {i name x} mem => ?_, fun {i x} known => ?_⟩
    · match i, mem with
      | 0, mem => cases mem with
        | tail _ mem => cases mem
      | i + 1, mem => cases mem
    · match i, known with
      | 0, known =>
        obtain rfl := Option.some.inj known
        exact .mk trivial (List.forall_mem_singleton.2 computed)
      | i + 1, known => cases known
  obtain ⟨under, bounded, full⟩ := traces_are_faithful.1 w t ctx e room failed
  refine ⟨⟨room, failed, honest, tree, under, bounded, (full honest tree 3 rfl).2⟩, .engine .start _, ?_⟩
  have script : ((engine.runError? "define(loop(n), loop(n + 1)); loop(7)" w₀).any fun (err, _) =>
      err.fault == .stackOverflow 3) = true := by decide +kernel
  simp only [Option.any_eq_true, Prod.exists, beq_iff_eq] at script
  obtain ⟨err, w', ran, fault⟩ := script
  have ran := Engine.run_of_runError? ran
  obtain ⟨runs, -⟩ := traces_are_faithful.2 w₀ [engine] [] [] (.engine .start _)
  exact ⟨err, w', ran, fault, ((runs engine List.mem_cons_self 20 _ err w' ran).2 3 fault).2⟩

end ChainCalc
