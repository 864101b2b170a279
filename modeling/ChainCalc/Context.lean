import ChainCalc.Fault
import ChainCalc.Table
/-!
# Contexts — what surrounds an evaluation

A context holds the calls under way, how many there may be, where this worker stands among others, and the store that
`fetch` reads.  Entering a call makes a new context; the caller's stays as it is.
-/
namespace ChainCalc

/-- Where a worker stands among the workers of a job, and the index ranges that are its own. -/
structure Locality where
  worker : Nat
  workers : Nat
  spans : List (Nat × Nat) := []
  deriving DecidableEq, Repr, Inhabited

def Locality.debug (l : Locality) : String :=
  let spans := l.spans.map (fun (a, b) => "(" ++ toString a ++ ", " ++ toString b ++ ")")
  "Locality \x7b worker: " ++ toString l.worker ++ ", workers: " ++ toString l.workers ++ ", spans: " ++
    Text.bracketed spans ++ " \x7d"

/-- Values by key, shared between workers: the table of the local store.  A host may bring an array store of its own, from
which fetching can also fail because the store is unavailable (`StoreError::Unavailable`); such a store is not modelled. -/
abbrev Store := Table Value

def defaultMaxCallDepth : Nat := 1000

structure CallStack where
  calls : List CallSite := []
  depth : Nat := 0
  depth_eq : depth = calls.length := by rfl
  deriving DecidableEq, Repr

namespace CallStack

instance : Inhabited CallStack := ⟨{}⟩

def push (s : CallStack) (call : CallSite) : CallStack :=
  ⟨call :: s.calls, s.depth + 1, by rw [s.depth_eq, List.length_cons]⟩

def trace (s : CallStack) : Trace := s.calls.reverse

end CallStack

structure Context where
  stack : CallStack := {}
  locality : Option Locality := none
  store : Option Store := none
  maxCallDepth : Nat := defaultMaxCallDepth
  parallel : Bool := true
  deriving Inhabited

namespace Context

def depth (c : Context) : Nat := c.stack.depth

def trace (c : Context) : Trace := c.stack.trace

def error (c : Context) (primitive : String) (fault : Fault) : EvalError := ⟨primitive, fault, c.trace⟩

def push (c : Context) (name site : String) : Except EvalError Context :=
  if c.maxCallDepth < c.depth + 1 then .error (c.error name (.stackOverflow c.maxCallDepth))
  else .ok { c with stack := c.stack.push ⟨name, site⟩ }

def debug (c : Context) : String :=
  let locality := match c.locality with
    | some l => "Some(" ++ l.debug ++ ")"
    | none => "None"
  "EvalContext \x7b depth: " ++ toString c.depth ++ ", locality: " ++ locality ++ ", store: " ++
    Value.boolText c.store.isSome ++ ", max_call_depth: " ++ toString c.maxCallDepth ++ ", parallel: " ++
    Value.boolText c.parallel ++ " \x7d"

end Context

end ChainCalc
