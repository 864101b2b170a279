import ChainCalc.Fault
import ChainCalc.Operator
import ChainCalc.Decimal.Dyadic
/-!
# Arithmetic — what the operators compute

Two integers give an integer as long as it fits in 64 bits, and a double otherwise; division always gives a double.
Arrays combine element by element with arrays of the same length and with numbers.  Comparison orders numbers by value
and strings by character; a NaN is not ordered.
-/
namespace ChainCalc
namespace Arithmetic

/-! ### Integers -/

def fits? (n : Int) : Option Int64 :=
  if -Int.pow 2 63 ≤ n ∧ n < Int.pow 2 63 then some (Int64.ofInt n) else none

/-- A power in 64 bits.  Beyond zero and one in magnitude, an exponent of 64 or more cannot fit; for those three bases
only the parity of the exponent counts. -/
def pow? (base : Int) (exponent : Nat) : Option Int64 :=
  if base.natAbs ≤ 1 then fits? (base.pow (min exponent (2 - exponent % 2)))
  else if 64 ≤ exponent then none
  else fits? (base.pow exponent)

/-- An operator on two integers, where the result is an integer of 64 bits.  The remainder has the sign of the dividend;
it is not taken of the least integer by minus one.  Exponents are natural numbers of 32 bits. -/
def onInts? (op : Operator) (a b : Int64) : Option Int64 :=
  match op with
  | .add => fits? (a.toInt + b.toInt)
  | .sub => fits? (a.toInt - b.toInt)
  | .mul => fits? (a.toInt * b.toInt)
  | .mod => if a.toInt = -Int.pow 2 63 ∧ b.toInt = -1 then none else fits? (a.toInt.tmod b.toInt)
  | .pow => if 0 ≤ b.toInt ∧ b.toInt < Int.pow 2 32 then pow? a.toInt b.toInt.toNat else none
  | _ => none

/-! ### Doubles -/

def noNumber : Float := Float.ofBits 0x7FF8000000000000

def onFloats (op : Operator) (a b : Float) : Float :=
  match op with
  | .add => a + b
  | .sub => a - b
  | .mul => a * b
  | .div => a / b
  | .mod => Dyadic.floatMod a b
  | .pow => Float.pow a b
  | _ => noNumber

/-- The larger of two doubles.  A NaN gives way, and of two zeros the second one is taken. -/
def maxFloat (a b : Float) : Float := if b < a || b.isNaN then a else b

def compareFloats (a b : Float) : Option Ordering :=
  if a < b then some .lt
  else if b < a then some .gt
  else if a == b then some .eq
  else none

/-! ### Values -/

def arithmetic (op : Operator) (left right : Value) : Except Fault Value :=
  match left, right with
  | .int a, .int b =>
    if op = .mod ∧ b = 0 then .error .divisionByZero
    else
      match onInts? op a b with
      | some n => .ok (.int n)
      | none => .ok (.float (onFloats op a.toFloat b.toFloat))
  | .array xs, .array ys =>
    if xs.length = ys.length then .ok (.array (List.zipWith (onFloats op) xs ys))
    else .error (.dimensionMismatch xs.length ys.length)
  | .array xs, v => do
    let y ← v.expectFloat
    return .array (xs.map (fun x => onFloats op x y))
  | v, .array ys => do
    let x ← v.expectFloat
    return .array (ys.map (fun y => onFloats op x y))
  | .str a, .str b =>
    if op = .add then .ok (.str (a ++ b))
    else .error (.typeMismatch "number" "string")
  | v, w => do
    let x ← v.expectFloat
    let y ← w.expectFloat
    return .float (onFloats op x y)

/-- Equality: an integer and a double compare as numbers, all else by kind and content. -/
def equal (left right : Value) : Bool :=
  match left, right with
  | .int a, .float y => a.toFloat == y
  | .float x, .int b => x == b.toFloat
  | v, w => v == w

def compareValues (left right : Value) : Except Fault (Option Ordering) :=
  match left, right with
  | .int a, .int b => .ok (some (compare a.toInt b.toInt))
  | .str a, .str b => .ok (some (compare a b))
  | v, w => do
    let x ← v.expectFloat
    let y ← w.expectFloat
    return compareFloats x y

/-- A comparison holds of an ordering; none holds where there is no order. -/
def holds (op : Operator) : Option Ordering → Bool
  | none => false
  | some o =>
    match op with
    | .lt => o == .lt
    | .le => o != .gt
    | .gt => o == .gt
    | .ge => o != .lt
    | _ => false

/-- **An operator between two values.**  The right side of `&&` and `||` is only looked at when the left one leaves the
answer open. -/
def binary (op : Operator) (left right : Value) : Except Fault Value :=
  match op with
  | .eq => .ok (.bool (equal left right))
  | .ne => .ok (.bool (!equal left right))
  | .and => do
    if ← left.expectBool then return .bool (← right.expectBool) else return .bool false
  | .or => do
    if ← left.expectBool then return .bool true else return .bool (← right.expectBool)
  | .lt | .le | .gt | .ge => do
    return .bool (holds op (← compareValues left right))
  | _ => arithmetic op left right

def negate : Value → Except Fault Value
  | .int n =>
    match fits? (-n.toInt) with
    | some m => .ok (.int m)
    | none => .ok (.float (-n.toFloat))
  | .array items => .ok (.array (items.map (fun x => -x)))
  | v => do
    return .float (-(← v.expectFloat))

def complement (v : Value) : Except Fault Value := do
  return .bool (!(← v.expectBool))

end Arithmetic
end ChainCalc
