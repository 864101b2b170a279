import ChainCalc.Node
import ChainCalc.Context
/-!
# Workspaces — all scopes, and the bodies of all functions

Scopes and function definitions are numbered in the order in which they are made and never go away.  A scope maps names
to bindings in the order of their definition; the environment that a piece of source is compiled in is a scope with those
around it, and a name means its binding in the innermost scope that has one.
-/
namespace ChainCalc

inductive Binding where
  | value (node : Node)
  | function (definition : Definition)
  | param (depth index : Nat)
  deriving Inhabited

def Binding.debug : Binding → String
  | .value node => "Value(" ++ node.label ++ ")"
  | .function d => "Function(" ++ d.name ++ "/" ++ toString d.params.length ++ ")"
  | .param depth index => "Param(" ++ toString depth ++ ", " ++ toString index ++ ")"

abbrev Scope := Table Binding

/-- Everything that compilations and evaluations share.  Warnings are collected, oldest first. -/
structure Workspace where
  scopes : Array Scope := #[]
  bodies : Array (Option Node) := #[]
  store : Option Store := none
  warnings : List String := []
  deriving Inhabited

namespace Workspace

/-! ### Scopes -/

def addScope (w : Workspace) (scope : Scope) : Workspace := { w with scopes := w.scopes.push scope }

def newEnv (w : Workspace) : Env × Workspace := (⟨⟨w.scopes.size, 0⟩, []⟩, w.addScope .empty)

def childEnv (w : Workspace) (env : Env) : Env × Workspace :=
  (⟨⟨w.scopes.size, env.depth⟩, env.path⟩, w.addScope .empty)

/-- The scope of a function's parameters; a repeated name means the last of them. -/
def paramScope (depth : Nat) (params : List String) : Scope :=
  .ofList (params.mapIdx (fun i p => (p, .param depth i)))

/-- A new scope inside an environment for the body of a function, one deeper, with its parameters. -/
def functionEnv (w : Workspace) (env : Env) (params : List String) : Env × Workspace :=
  (⟨⟨w.scopes.size, env.depth + 1⟩, env.path⟩, w.addScope (paramScope (env.depth + 1) params))

def scope (w : Workspace) (id : Nat) : Scope := w.scopes[id]?.getD .empty

def lookupPath (w : Workspace) (name : String) : List ScopeRef → Option Binding
  | [] => none
  | s :: rest =>
    match (w.scope s.id).get? name with
    | some b => some b
    | none => w.lookupPath name rest

def lookup (w : Workspace) (env : Env) (name : String) : Option Binding := w.lookupPath name env.path

def names (w : Workspace) (env : Env) : List String := (w.scope env.here.id).keys

def updateScope (w : Workspace) (id : Nat) (f : Scope → Scope) : Workspace :=
  { w with scopes := w.scopes.modify id f }

def redefinitionWarning (name : String) : String := "redefining '" ++ name ++ "' in the same scope"

/-- Binds a name in an environment's own scope; gives what it was bound to there, with a warning if there was
something. -/
def define (w : Workspace) (env : Env) (name : String) (binding : Binding) : Option Binding × Workspace :=
  let previous := (w.scope env.here.id).get? name
  let w := w.updateScope env.here.id (fun s => s.insert name binding)
  let w := if previous.isSome then { w with warnings := w.warnings ++ [redefinitionWarning name] } else w
  (previous, w)

def restore (w : Workspace) (env : Env) (name : String) (previous : Option Binding) : Workspace :=
  w.updateScope env.here.id (fun s =>
    match previous with
    | some b => s.insert name b
    | none => s.erase name)

def takeWarnings (w : Workspace) : List String × Workspace := (w.warnings, { w with warnings := [] })

def debugPath (w : Workspace) : List ScopeRef → String
  | [] => "None"
  | s :: rest =>
    let parent := match rest with
      | [] => "None"
      | _ => "Some(" ++ w.debugPath rest ++ ")"
    "Environment \x7b depth: " ++ toString s.depth ++ ", names: " ++
      Text.bracketed ((w.scope s.id).keys.map Text.quoted) ++ ", parent: " ++ parent ++ " \x7d"

def debugEnv (w : Workspace) (env : Env) : String := w.debugPath env.path

/-! ### Functions -/

def declare (w : Workspace) (name : String) (params : List String) (depth : Nat) : Definition × Workspace :=
  (⟨w.bodies.size, name, params, depth⟩, { w with bodies := w.bodies.push none })

def setBody (w : Workspace) (d : Definition) (body : Node) : Workspace :=
  { w with bodies := w.bodies.setIfInBounds d.id (some body) }

def body? (w : Workspace) (d : Definition) : Option Node := (w.bodies[d.id]?).join

end Workspace

end ChainCalc
