import ChainCalc.Evaluation
/-!
# Evaluation on a runtime — parts side by side

On a runtime the operands of a node are evaluated side by side, and so are what is called and its arguments.  The values
come together in their places, in whatever order they were found.  Where several parts fail, the failure that is heard of
first ends it all, and which one that is nobody can say: it is left open, and a `Schedule` says it.

Not every schedule need come about; fewer do where `Context.parallel` is off and only calls are evaluated side by side.
What holds under all of them holds of whatever a runtime does.
-/
namespace ChainCalc

/-- Which part of a node is heard of before the others, for every place in an evaluation.  A place is known by the parts
that lead to it, from the outside. -/
def Schedule := List Nat → Nat

namespace Schedule

/-- The leftmost part is always heard of first. -/
def inOrder : Schedule := fun _ => 0

def part (s : Schedule) (i : Nat) : Schedule := fun place => s (i :: place)

def parts (s : Schedule) (run : Schedule → Node → Run Value) (first : Nat) (nodes : List Node) : List (Run Value) :=
  (nodes.zipIdx first).map (fun (x, i) => run (s.part i) x)

end Schedule

/-- One of several runs ahead of the others: if it fails, that is the failure that is heard of. -/
def Run.ahead {α : Type} (runs : List (Run α)) (i : Nat) : Run Unit :=
  match runs[i]? with
  | some run => do
    let _ ← run
    pure ()
  | none => pure ()

mutual

/-- **The value of a node under a schedule.** -/
def Schedule.eval (w : Workspace) : Nat → Schedule → Node → Frame → Context → Run Value
  | 0, _, _, _, _ => Run.outOfSteps
  | n + 1, s, node, frame, ctx =>
    match node with
    | .constant value => pure value
    | .param name depth index => argument name depth index frame ctx
    | .kernel name _ operands compute => do
      let parts := s.parts (fun s x => s.eval w n x frame ctx) 0 operands
      Run.ahead parts (s [])
      let values ← parts.mapM id
      Run.ofKernel ctx name (compute values)
    | .conditional _ condition yes no => do
      match ← (s.part 0).eval w n condition frame ctx with
      | .bool true => (s.part 1).eval w n yes frame ctx
      | .bool false => (s.part 1).eval w n no frame ctx
      | v => Run.fail ctx "if" (.typeMismatch "bool" v.typeName)
    | .sequence _ items => (s.parts (fun s x => s.eval w n x frame ctx) 0 items).foldlM (fun _ item => item) .nil
    | .lambda d _ => pure (close d frame)
    | .functionRef name env => resolve w (fun x => (s.part 0).eval w n x frame ctx) name env frame ctx
    | .invoke name site env args => do
      let callee := resolve w (fun x => (s.part 0).eval w n x frame ctx) name env frame ctx
      let parts := s.parts (fun s x => s.eval w n x frame ctx) 1 args
      Run.ahead (callee :: parts) (s [])
      let f ← callee
      let values ← parts.mapM id
      (s.part (args.length + 1)).applyTo w n name f values ctx site
    | .apply site x args => do
      let callee := (s.part 0).eval w n x frame ctx
      let parts := s.parts (fun s x => s.eval w n x frame ctx) 1 args
      Run.ahead (callee :: parts) (s [])
      let f ← callee
      let values ← parts.mapM id
      (s.part (args.length + 1)).applyTo w n x.name f values ctx site
    | .worker query _ => pure (query.answer ctx)
    | .fetch _ key => do
      fetchFrom ctx (← (s.part 0).eval w n key frame ctx)

def Schedule.applyTo (w : Workspace) : Nat → Schedule → String → Value → List Value → Context → String → Run Value
  | 0, _, _, _, _, _, _ => Run.outOfSteps
  | n + 1, s, name, callee, args, ctx, site =>
    match callee with
    | .function f => s.call w n f args ctx site
    | v => Run.fail ctx name (.notCallable v.typeName)

def Schedule.call (w : Workspace) : Nat → Schedule → Closure → List Value → Context → String → Run Value
  | 0, _, _, _, _, _ => Run.outOfSteps
  | n + 1, s, f, args, ctx, site =>
    let all := f.applied ++ args
    let arity := f.definition.params.length
    if all.length < arity then pure (.function { f with applied := all })
    else do
      match w.body? f.definition with
      | none => Run.fail ctx f.definition.name (.internal .noBody)
      | some body =>
        let inner ← Run.ofExcept (ctx.push f.definition.name site)
        let result ← (s.part 0).eval w n body (Frame.enter f.captured f.definition.depth (all.take arity)) inner
        if (all.drop arity).isEmpty then pure result
        else (s.part 1).applyTo w n f.definition.name result (all.drop arity) ctx site

end

end ChainCalc
