import ChainCalc.Value
/-!
# Faults — what can go wrong while evaluating

A `Fault` is the cause alone; an `EvalError` adds which primitive met it and the calls that were under way.
-/
namespace ChainCalc

/-- A fault of the compiled tree itself, not of the program it came from. -/
inductive Fault.Internal where
  | noArgument (index depth : Nat)
  | noBody
  | operandCount (primitive : String) (expected got : Nat)
  | oneOperand (primitive : String)
  deriving DecidableEq, Repr, Inhabited

inductive Fault where
  | dimensionMismatch (left right : Nat)
  | typeMismatch (expected got : String)
  | divisionByZero
  | notCallable (typeName : String)
  | stackOverflow (limit : Nat)
  | raised (message : String)
  | noStore
  | notStored (key : String)
  | unbound (name : String)
  | internal (cause : Fault.Internal)
  deriving DecidableEq, Repr, Inhabited

def notStoredText (key : String) : String := "no value stored under '" ++ key ++ "'"

def Fault.Internal.text : Fault.Internal → String
  | .noArgument index depth => "no argument " ++ toString index ++ " at depth " ++ toString depth
  | .noBody => "function body was never compiled"
  | .operandCount primitive expected got =>
    primitive ++ " expects " ++ toString expected ++ " operands, got " ++ toString got
  | .oneOperand primitive => primitive ++ " expects one operand"

def Fault.text : Fault → String
  | .dimensionMismatch left right => "dimension mismatch: " ++ toString left ++ " vs " ++ toString right
  | .typeMismatch expected got => "type error: expected " ++ expected ++ ", got " ++ got
  | .divisionByZero => "division by zero"
  | .notCallable typeName => "not callable: " ++ typeName
  | .stackOverflow limit => "call depth limit of " ++ toString limit ++ " exceeded"
  | .raised message => message
  | .noStore => "store: no array store configured"
  | .notStored key => "store: " ++ notStoredText key
  | .unbound name => "unbound at run time: " ++ name
  | .internal cause => "internal: " ++ cause.text

/-- A call under way: what is called, and where the call is written. -/
structure CallSite where
  name : String
  site : String
  deriving DecidableEq, Repr, Inhabited

def CallSite.line (c : CallSite) : String := "at " ++ c.name ++ " (" ++ c.site ++ ")"

abbrev Trace := List CallSite

def Trace.lines (t : Trace) : List String := t.map CallSite.line

def Trace.text (t : Trace) : String := String.join (t.map (fun c => "  " ++ c.line ++ "\n"))

structure EvalError where
  primitive : String
  fault : Fault
  trace : Trace
  deriving DecidableEq, Repr, Inhabited

def EvalError.text (e : EvalError) : String := e.primitive ++ ": " ++ e.fault.text

namespace Value

def expectFloat (v : Value) : Except Fault Float :=
  match v.asFloat? with
  | some x => .ok x
  | none => .error (.typeMismatch "number" v.typeName)

def expectBool : Value → Except Fault Bool
  | .bool b => .ok b
  | v => .error (.typeMismatch "bool" v.typeName)

def expectArray : Value → Except Fault (List Float)
  | .array items => .ok items
  | v => .error (.typeMismatch "array" v.typeName)

end Value

end ChainCalc
