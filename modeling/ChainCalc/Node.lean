import ChainCalc.Fault
/-!
# Nodes — compiled expressions

A node says what to evaluate; building one evaluates nothing.  Function names are looked up in the environment of the
node each time it is evaluated, so a node holds that environment and not the function.
-/
namespace ChainCalc

/-- A scope, known by its number, with the number of functions around it. -/
structure ScopeRef where
  id : Nat
  depth : Nat
  deriving DecidableEq, Repr, Inhabited

/-- A scope and the scopes around it, innermost first. -/
structure Env where
  here : ScopeRef
  outer : List ScopeRef
  deriving DecidableEq, Repr, Inhabited

namespace Env

def path (env : Env) : List ScopeRef := env.here :: env.outer

def depth (env : Env) : Nat := env.here.depth

def parent? (env : Env) : Option Env :=
  match env.outer with
  | [] => none
  | s :: rest => some ⟨s, rest⟩

end Env

inductive WorkerQuery where
  | id
  | count
  deriving DecidableEq, Repr, Inhabited

def WorkerQuery.name : WorkerQuery → String
  | .id => "worker_id"
  | .count => "worker_count"

abbrev Kernel := List Value → Except Fault Value

inductive Node where
  | constant (value : Value)
  | param (name : String) (depth index : Nat)
  | kernel (name label : String) (operands : List Node) (compute : Kernel)
  | conditional (label : String) (condition yes no : Node)
  | sequence (label : String) (items : List Node)
  | lambda (definition : Definition) (body : Option Node)
  | functionRef (name : String) (env : Env)
  | invoke (name site : String) (env : Env) (args : List Node)
  | apply (site : String) (callee : Node) (args : List Node)
  | worker (query : WorkerQuery) (label : String)
  | fetch (label : String) (key : Node)

instance : Inhabited Node := ⟨.constant .nil⟩

namespace Node

def name : Node → String
  | .constant _ => "constant"
  | .param name _ _ => name
  | .kernel name _ _ _ => name
  | .conditional _ _ _ _ => "if"
  | .sequence _ _ => "block"
  | .lambda d _ => d.name
  | .functionRef name _ => name
  | .invoke name _ _ _ => name
  | .apply _ callee _ => callee.name
  | .worker query _ => query.name
  | .fetch _ _ => "fetch"

def label : Node → String
  | .constant value => value.text
  | .param name _ _ => name
  | .kernel _ label _ _ => label
  | .conditional label _ _ _ => label
  | .sequence label _ => label
  | .lambda d _ => d.name
  | .functionRef name _ => name
  | .invoke _ site _ _ => site
  | .apply site _ _ => site
  | .worker _ label => label
  | .fetch label _ => label

def line (indent : Nat) (node : Node) : String :=
  String.ofList (List.replicate indent ' ') ++ node.name ++ " [" ++ node.label ++ "]\n"

mutual

def outlineAt (indent : Nat) : Node → String
  | .kernel name label operands compute =>
    line indent (.kernel name label operands compute) ++ outlines (indent + 2) operands
  | .conditional label condition yes no =>
    line indent (.conditional label condition yes no) ++ outlineAt (indent + 2) condition ++
      outlineAt (indent + 2) yes ++ outlineAt (indent + 2) no
  | .sequence label items => line indent (.sequence label items) ++ outlines (indent + 2) items
  | .lambda d (some body) => line indent (.lambda d (some body)) ++ outlineAt (indent + 2) body
  | .invoke name site env args => line indent (.invoke name site env args) ++ outlines (indent + 2) args
  | .apply site callee args =>
    line indent (.apply site callee args) ++ outlineAt (indent + 2) callee ++ outlines (indent + 2) args
  | .fetch label key => line indent (.fetch label key) ++ outlineAt (indent + 2) key
  | leaf => line indent leaf

def outlines (indent : Nat) : List Node → String
  | [] => ""
  | n :: ns => outlineAt indent n ++ outlines indent ns

end

def outline (node : Node) : String := outlineAt 0 node

end Node

end ChainCalc
