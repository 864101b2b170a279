import ChainCalc.Decimal.Layout
import ChainCalc.Text.Quoted
/-!
# Values — what evaluation yields

A function value is a definition, the activations it was made in, and the arguments it has been given so far.  A
definition is known by its number; the body is kept elsewhere, so that a body may mention functions whose bodies are not
known yet.
-/
namespace ChainCalc

/-- A function as it was declared.  `depth` counts how many functions it is declared inside of, itself included. -/
structure Definition where
  id : Nat
  name : String
  params : List String
  depth : Nat
  deriving DecidableEq, Repr, Inhabited

mutual

inductive Value where
  | nil
  | bool (b : Bool)
  | int (n : Int64)
  | float (x : Float)
  | str (s : String)
  | array (items : List Float)
  | function (f : Closure)

structure Closure where
  definition : Definition
  captured : List Activation
  applied : List Value

structure Activation where
  depth : Nat
  args : List Value

end

instance : Inhabited Value := ⟨.nil⟩
instance : Inhabited Closure := ⟨⟨default, [], []⟩⟩
instance : Inhabited Activation := ⟨⟨0, []⟩⟩

def Closure.arity (f : Closure) : Nat := f.definition.params.length - f.applied.length

def beqFloats : List Float → List Float → Bool
  | [], [] => true
  | x :: xs, y :: ys => x == y && beqFloats xs ys
  | _, _ => false

mutual

/-- Values of one kind are compared by content; two functions are equal when they come from the same definition and have
been given equal arguments. -/
def Value.beq : Value → Value → Bool
  | .nil, .nil => true
  | .bool a, .bool b => a == b
  | .int a, .int b => a == b
  | .float a, .float b => a == b
  | .str a, .str b => a == b
  | .array a, .array b => beqFloats a b
  | .function ⟨d, _, xs⟩, .function ⟨e, _, ys⟩ => d.id == e.id && Value.beqList xs ys
  | _, _ => false

def Value.beqList : List Value → List Value → Bool
  | [], [] => true
  | x :: xs, y :: ys => x.beq y && Value.beqList xs ys
  | _, _ => false

end

instance : BEq Value := ⟨Value.beq⟩

namespace Value

def typeName : Value → String
  | .nil => "nil"
  | .bool _ => "bool"
  | .int _ => "int"
  | .float _ => "float"
  | .str _ => "string"
  | .array _ => "array"
  | .function _ => "function"

def asFloat? : Value → Option Float
  | .int n => some n.toFloat
  | .float x => some x
  | _ => none

def asFunction? : Value → Option Closure
  | .function f => some f
  | _ => none

def boolText (b : Bool) : String := if b then "true" else "false"

def floatText (x : Float) : String := Decimal.Layout.value.text x

def text : Value → String
  | .nil => "nil"
  | .bool b => boolText b
  | .int n => toString n.toInt
  | .float x => floatText x
  | .str s => s
  | .array items => Text.bracketed (items.map floatText)
  | .function f => "<fn " ++ f.definition.name ++ "/" ++ toString f.arity ++ ">"

def debug : Value → String
  | .nil => "Nil"
  | .bool b => "Bool(" ++ boolText b ++ ")"
  | .int n => "Int(" ++ toString n.toInt ++ ")"
  | .float x => "Float(" ++ floatText x ++ ")"
  | .str s => "Str(" ++ Text.quoted s ++ ")"
  | .array items => "Array(" ++ Text.bracketed (items.map floatText) ++ ")"
  | .function f => "Function(" ++ f.definition.name ++ "/" ++ toString f.arity ++ ")"

end Value

def Closure.debug (f : Closure) : String :=
  "CompiledFunction \x7b name: " ++ Text.quoted f.definition.name ++ ", arity: " ++ toString f.arity ++ ", applied: " ++
    toString f.applied.length ++ " \x7d"

end ChainCalc
