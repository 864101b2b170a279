import ChainCalc.Context
import ChainCalc.Json.Record
/-!
# Settings — how an engine runs
-/
namespace ChainCalc

structure Settings where
  workerThreads : Nat := 4
  maxCallDepth : Nat := defaultMaxCallDepth
  parallelOperands : Bool := true
  locality : Option Locality := none
  deriving DecidableEq, Repr, Inhabited

def spanOfJson? : Json → Option (Nat × Nat)
  | .arr [a, b] => do
    return (← a.asNat?, ← b.asNat?)
  | _ => none

def Locality.ofJson? (j : Json) : Option Locality := do
  match ← j.fields? ["worker", "workers", "spans"] with
  | [some worker, some workers, spans] =>
    return ⟨← worker.asNat?, ← workers.asNat?, ← Json.orDefault [] (Json.asListOf? spanOfJson?) spans⟩
  | _ => none

namespace Settings

def withWorkerThreads (s : Settings) (threads : Nat) : Settings := { s with workerThreads := max threads 1 }

def withMaxCallDepth (s : Settings) (limit : Nat) : Settings := { s with maxCallDepth := limit }

def withParallelOperands (s : Settings) (parallel : Bool) : Settings := { s with parallelOperands := parallel }

def withLocality (s : Settings) (locality : Locality) : Settings := { s with locality := some locality }

def ofJson? (j : Json) : Option Settings := do
  let defaults : Settings := {}
  match ← j.fields? ["worker_threads", "max_call_depth", "parallel_operands", "locality"] with
  | [threads, depth, parallel, locality] =>
    return {
      workerThreads := ← Json.orDefault defaults.workerThreads Json.asNat? threads
      maxCallDepth := ← Json.orDefault defaults.maxCallDepth Json.asNat? depth
      parallelOperands := ← Json.orDefault defaults.parallelOperands Json.asBool? parallel
      locality := ← Json.orDefault defaults.locality (Json.asOption? Locality.ofJson?) locality }
  | _ => none

def parse? (source : String) : Option Settings := (Json.parse? source).bind ofJson?

end Settings

end ChainCalc
