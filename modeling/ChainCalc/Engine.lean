import ChainCalc.Compile
import ChainCalc.Runtime
import ChainCalc.Settings
import ChainCalc.Standard
/-!
# Engines — source text compiled and run in an environment

An engine is a registry, settings and the environment of its global names.  Engines share a workspace: a copy of an engine
shares its globals, and a session has globals of its own inside those of the engine it was made from.
-/
namespace ChainCalc

/-- Why a source text gave no value: at which stage it failed, and how. -/
inductive Failure where
  | parse (error : SyntaxError)
  | compile (error : CompileError)
  | eval (error : EvalError)
  deriving DecidableEq, Repr, Inhabited

def Failure.text : Failure → String
  | .parse e => "Parse error: " ++ e.text
  | .compile e => "Compile error: " ++ e.text
  | .eval e => "Eval error: " ++ e.text

/-- Something done with a workspace, which it leaves behind also when it fails; it has no answer where the steps ran
out. -/
abbrev EngineM := ExceptT Failure (StateT Workspace Option)

structure Engine where
  registry : Registry
  globals : Env
  settings : Settings

namespace Engine

def new (registry : Registry) (settings : Settings) (w : Workspace) : Engine × Workspace :=
  let (env, w) := w.newEnv
  (⟨registry, env, settings⟩, w)

def session (e : Engine) (w : Workspace) : Engine × Workspace :=
  let (env, w) := w.childEnv e.globals
  ({ e with globals := env }, w)

def context (e : Engine) (w : Workspace) : Context where
  stack := default
  locality := e.settings.locality
  store := w.store
  maxCallDepth := e.settings.maxCallDepth
  parallel := e.settings.parallelOperands

def defineValue (e : Engine) (name : String) (value : Value) (w : Workspace) : Workspace :=
  (w.define e.globals name (.value (.constant value))).2

/-- **Compiles a source text** to its main function; its definitions stay if it compiles, and else none of them does. -/
def compile (e : Engine) (n : Nat) (source : String) : EngineM Closure :=
  match Program.parse source with
  | .error error => ExceptT.mk (fun w => some (.error (.parse error), w))
  | .ok statements => ExceptT.mk (fun w =>
      match (compileUnit e.registry n statements e.globals).run w with
      | none => none
      | some (.error error, w) => some (.error (.compile error), w)
      | some (.ok main, w) => some (.ok main, w))

def callAt (e : Engine) (n : Nat) (f : Closure) (args : List Value) (site : String) : EngineM Value :=
  ExceptT.mk (fun w =>
    match (ChainCalc.call w n f args (e.context w) site).run with
    | none => none
    | some (.error error) => some (.error (.eval error), w)
    | some (.ok v) => some (.ok v, w))

/-- Calls a function from outside of any source, where its name stands for the place. -/
def call (e : Engine) (n : Nat) (f : Closure) (args : List Value) : EngineM Value :=
  e.callAt n f args f.definition.name

def run (e : Engine) (n : Nat) (source : String) : EngineM Value := do
  let main ← e.compile n source
  e.call n main []

def callUnder (e : Engine) (s : Schedule) (n : Nat) (f : Closure) (args : List Value) (site : String) : EngineM Value :=
  ExceptT.mk (fun w =>
    match (s.call w n f args (e.context w) site).run with
    | none => none
    | some (.error error) => some (.error (.eval error), w)
    | some (.ok v) => some (.ok v, w))

def runUnder (e : Engine) (s : Schedule) (n : Nat) (source : String) : EngineM Value := do
  let main ← e.compile n source
  e.callUnder s n main [] main.definition.name

end Engine

def runSource (n : Nat) (source : String) : Option (Except Failure Value) :=
  let (engine, w) := Engine.new .standard {} {}
  ((engine.run n source).run w).map Prod.fst

end ChainCalc
