import ChainCalc.Registry
import ChainCalc.Arithmetic
/-!
# Arrays — making them, and asking about them
-/
namespace ChainCalc
namespace Standard

def notOne (primitive : String) : Except Fault Value := .error (.internal (.oneOperand primitive))

def arrayKernel : Kernel := fun args => do
  return .array (← args.mapM Value.expectFloat)

def arrayEntry : Entry where
  name := "array"
  patterns := [.ofExpr (.call "array" [.ident "_first", .ident "__rest"])]
  factory := .ofKernel arrayKernel
  help := "array of the given numbers"

def lengthKernel : Kernel
  | [.array items] => .ok (.int (Int64.ofNat items.length))
  | [.str s] => .ok (.int (Int64.ofNat s.length))
  | [v] => .error (.typeMismatch "array or string" v.typeName)
  | _ => notOne "len"

def lengthEntry : Entry where
  name := "len"
  patterns := [.ofExpr (.call "len" [.ident "_a"])]
  factory := .ofKernel lengthKernel
  help := "number of elements of an array, or characters of a string"

/-- The sum from left to right.  It starts from minus zero, which changes no number that is added to it. -/
def sumFloats (items : List Float) : Float := items.foldl (· + ·) (-0.0)

def sumKernel : Kernel
  | [v] => do
    return .float (sumFloats (← v.expectArray))
  | _ => notOne "sum"

def sumEntry : Entry where
  name := "sum"
  patterns := [.ofExpr (.call "sum" [.ident "_a"])]
  factory := .ofKernel sumKernel
  help := "sum of an array"

def allInts? (args : List Value) : Option (List Int) :=
  if args.isEmpty then none
  else args.mapM (fun
    | .int n => some n.toInt
    | _ => none)

def lowest : Float := Float.ofBits 0xFFF0000000000000

def maxKernel : Kernel
  | [.array []] => .error (.typeMismatch "non-empty array" "empty array")
  | [.array (x :: xs)] => .ok (.float (xs.foldl Arithmetic.maxFloat x))
  | args =>
    match allInts? args with
    | some ns => .ok (.int (Int64.ofInt (ns.foldl max (-Int.pow 2 63))))
    | none => do
      return .float (← args.foldlM (fun x v => do return Arithmetic.maxFloat x (← v.expectFloat)) lowest)

def maxEntry : Entry where
  name := "max"
  patterns := [.ofExpr (.call "max" [.ident "_first", .ident "__rest"])]
  factory := .ofKernel maxKernel
  help := "largest of the arguments, or of a single array"

def rangeKernel : Kernel
  | [.int n] =>
    if 0 ≤ n.toInt then .ok (.array ((List.range n.toInt.toNat).map (fun i => (Int64.ofNat i).toFloat)))
    else .error (.typeMismatch "non-negative int" (Value.int n).text)
  | [v] => .error (.typeMismatch "non-negative int" v.text)
  | _ => notOne "range"

def rangeEntry : Entry where
  name := "range"
  patterns := [.ofExpr (.call "range" [.ident "_n"])]
  factory := .ofKernel rangeKernel
  help := "array [0, 1, ..., _n - 1]"

def arrays : List Entry := [arrayEntry, lengthEntry, sumEntry, maxEntry, rangeEntry]

end Standard
end ChainCalc
