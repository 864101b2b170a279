import ChainCalc.Workspace
import ChainCalc.Frame
/-!
# Evaluation — nodes to values, without a runtime

Where there is no runtime everything is evaluated inline and from left to right: operands and arguments in order, what is
called before its arguments, and the first error ends it all.  What may happen on a runtime, where operands and calls are
evaluated side by side, is in `ChainCalc.Runtime`.  `Context.parallel` and `Settings.parallelOperands` are carried along and
never read: they only bear on which of a runtime's schedules can come about, and there are none here.

Nothing but the context's call depth bounds a program, so evaluation counts its own steps down from a number given to it:
`eval w n` makes at most `n` nested steps and has no answer, rather than a wrong one, where that is too few.
-/
namespace ChainCalc

/-- An evaluation: no answer where the steps ran out, else an error or a result. -/
abbrev Run (α : Type) := ExceptT EvalError Option α

namespace Run

def outOfSteps {α : Type} : Run α := ExceptT.mk none

def ofExcept {α : Type} (r : Except EvalError α) : Run α := ExceptT.mk (some r)

def fail {α : Type} (ctx : Context) (primitive : String) (fault : Fault) : Run α := ofExcept (.error (ctx.error primitive fault))

def ofKernel {α : Type} (ctx : Context) (primitive : String) : Except Fault α → Run α
  | .ok a => ofExcept (.ok a)
  | .error fault => fail ctx primitive fault

end Run

def argument (name : String) (depth index : Nat) (frame : Frame) (ctx : Context) : Run Value :=
  match frame.arg? depth index with
  | some v => pure v
  | none => Run.fail ctx name (.internal (.noArgument index depth))

/-- A function made a value where it is mentioned: it captures the activations around its definition. -/
def close (d : Definition) (frame : Frame) : Value := .function ⟨d, frame.truncate (d.depth - 1), []⟩

/-- What a function name stands for now.  `evaluate` does the work where the name has become a variable. -/
def resolve (w : Workspace) (evaluate : Node → Run Value) (name : String) (env : Env) (frame : Frame) (ctx : Context) :
    Run Value :=
  match w.lookup env name with
  | some (.function d) => pure (close d frame)
  | some (.value node) => evaluate node
  | some (.param depth index) => argument name depth index frame ctx
  | none => Run.fail ctx name (.unbound name)

/-- What a worker query answers; alone, a worker is number zero of one. -/
def WorkerQuery.answer (query : WorkerQuery) (ctx : Context) : Value :=
  let locality := ctx.locality.getD ⟨0, 1, []⟩
  match query with
  | .id => .int (Int64.ofNat locality.worker)
  | .count => .int (Int64.ofNat locality.workers)

def fetchFrom (ctx : Context) : Value → Run Value
  | .str key =>
    match ctx.store with
    | none => Run.fail ctx "fetch" .noStore
    | some store =>
      match store.get? key with
      | some v => pure v
      | none => Run.fail ctx "fetch" (.notStored key)
  | v => Run.fail ctx "fetch" (.typeMismatch "string" v.typeName)

mutual

/-- **The value of a node**, among the activations of a frame and in a context. -/
def eval (w : Workspace) : Nat → Node → Frame → Context → Run Value
  | 0, _, _, _ => Run.outOfSteps
  | n + 1, node, frame, ctx =>
    match node with
    | .constant value => pure value
    | .param name depth index => argument name depth index frame ctx
    | .kernel name _ operands compute => do
      let values ← operands.mapM (fun x => eval w n x frame ctx)
      Run.ofKernel ctx name (compute values)
    | .conditional _ condition yes no => do
      match ← eval w n condition frame ctx with
      | .bool true => eval w n yes frame ctx
      | .bool false => eval w n no frame ctx
      | v => Run.fail ctx "if" (.typeMismatch "bool" v.typeName)
    | .sequence _ items => items.foldlM (fun _ x => eval w n x frame ctx) .nil
    | .lambda d _ => pure (close d frame)
    | .functionRef name env => resolve w (fun x => eval w n x frame ctx) name env frame ctx
    | .invoke name site env args => do
      let callee ← resolve w (fun x => eval w n x frame ctx) name env frame ctx
      let values ← args.mapM (fun x => eval w n x frame ctx)
      applyTo w n name callee values ctx site
    | .apply site callee args => do
      let f ← eval w n callee frame ctx
      let values ← args.mapM (fun x => eval w n x frame ctx)
      applyTo w n callee.name f values ctx site
    | .worker query _ => pure (query.answer ctx)
    | .fetch _ key => do
      fetchFrom ctx (← eval w n key frame ctx)

def applyTo (w : Workspace) : Nat → String → Value → List Value → Context → String → Run Value
  | 0, _, _, _, _, _ => Run.outOfSteps
  | n + 1, name, callee, args, ctx, site =>
    match callee with
    | .function f => call w n f args ctx site
    | v => Run.fail ctx name (.notCallable v.typeName)

/-- **A function called.**  With too few arguments it only remembers them; arguments beyond its parameters go to what it
returns. -/
def call (w : Workspace) : Nat → Closure → List Value → Context → String → Run Value
  | 0, _, _, _, _ => Run.outOfSteps
  | n + 1, f, args, ctx, site =>
    let all := f.applied ++ args
    let arity := f.definition.params.length
    if all.length < arity then pure (.function { f with applied := all })
    else do
      match w.body? f.definition with
      | none => Run.fail ctx f.definition.name (.internal .noBody)
      | some body =>
        let inner ← Run.ofExcept (ctx.push f.definition.name site)
        let result ← eval w n body (Frame.enter f.captured f.definition.depth (all.take arity)) inner
        if (all.drop arity).isEmpty then pure result
        else applyTo w n f.definition.name result (all.drop arity) ctx site

end

end ChainCalc
