import ChainCalc.Captures
import ChainCalc.Pattern
import ChainCalc.Node
import ChainCalc.Source
import ChainCalc.Expr.Printer
import ChainCalc.Compile.Error
/-!
# Registries — patterns and what to build for them

An entry has patterns and a factory, which makes a node from what the placeholders of a pattern were bound to.  Entries
are tried in order, and within one its patterns in order; the first match wins.
-/
namespace ChainCalc

/-- Compiled captures on their way to a factory, with the name of the primitive to be built. -/
structure Bound where
  primitive : String
  nodes : Table (List Node)
  deriving Inhabited

namespace Bound

def one (b : Bound) (placeholder : String) : Except CompileError Node :=
  match (b.nodes.get? placeholder).bind List.head? with
  | some node => .ok node
  | none => .error (.missingBinding b.primitive placeholder)

def many (b : Bound) (placeholder : String) : List Node := (b.nodes.get? placeholder).getD []

def ordered (b : Bound) : List Node := b.nodes.values.flatten

end Bound

abbrev Factory := Bound → String → String → Except CompileError Node

def Factory.ofKernel (compute : Kernel) : Factory := fun bound name label =>
  .ok (.kernel name label bound.ordered compute)

structure Entry where
  name : String
  patterns : List Pattern
  factory : Factory
  help : String

structure Registry where
  entries : List Entry

namespace Pattern

/-- The captures of a candidate that matches.  A capture under a name that is not the pattern's own is refused, and so is
a capture of the whole candidate, which would have to be compiled over and over. -/
def capture? (p : Pattern) (candidate : Expr) : Option Captures :=
  let report : OnCapture Captures := fun name e c =>
    if !p.binds name || e == candidate then (false, c) else (true, Captures.push c name e)
  match matchExpr report p.expr candidate Captures.none with
  | (true, c) => some c
  | (false, _) => none

end Pattern

namespace Entry

def capture? (entry : Entry) (candidate : Expr) : Option Captures :=
  entry.patterns.findSome? (fun p => p.capture? candidate)

def helpLine (entry : Entry) : String :=
  " | ".intercalate (entry.patterns.map (fun p => p.expr.text)) ++ ": " ++ entry.help

end Entry

namespace Registry

def empty : Registry := ⟨[]⟩

def register (r : Registry) (name : String) (patterns : List String) (help : String) (factory : Factory) :
    Except SyntaxError Registry := do
  let exprs ← patterns.mapM Expr.parse
  return ⟨r.entries ++ [⟨name, exprs.map Pattern.ofExpr, factory, help⟩]⟩

def size (r : Registry) : Nat := r.entries.length

def find? (r : Registry) (candidate : Expr) : Option (Entry × Captures) :=
  r.entries.findSome? (fun entry => (entry.capture? candidate).map (fun c => (entry, c)))

def help? (r : Registry) (name : String) : Option String :=
  match (r.entries.filter (fun e => e.name == name)).map Entry.helpLine with
  | [] => none
  | lines => some ("\n".intercalate lines)

def isCallName (r : Registry) (name : String) : Bool :=
  r.entries.any (fun e => e.patterns.any (fun p => (p.expr.asCall?.map Prod.fst) == some name))

end Registry

end ChainCalc
