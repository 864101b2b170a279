/-!
# Dyadic numbers — a double taken apart, and put together again

A finite double is `m * 2 ^ q` with a sign.  `Dyadic.ofFloat` reads those parts off the 64 bits; `Dyadic.nearest` goes
the other way, from an exact fraction to the double next to it, a half going to the even neighbour.
-/
namespace ChainCalc

inductive Dyadic where
  | nan
  | infinite (negative : Bool)
  /-- The number `m * 2 ^ q`, below zero when `negative`; a zero has a sign too. -/
  | finite (negative : Bool) (m : Nat) (q : Int)
  deriving DecidableEq, Repr, Inhabited

namespace Dyadic

def minExponent : Int := -1074

def ofBits (bits : Nat) : Dyadic :=
  let negative := bits / Nat.pow 2 63 % 2 == 1
  let exponent : Nat := bits / Nat.pow 2 52 % Nat.pow 2 11
  let fraction : Nat := bits % Nat.pow 2 52
  if exponent = 2047 then
    if fraction = 0 then .infinite negative else .nan
  else if exponent = 0 then
    .finite negative fraction minExponent
  else
    .finite negative (fraction + Nat.pow 2 52) ((exponent : Int) - 1075)

def ofFloat (x : Float) : Dyadic := ofBits x.toBits.toNat

def roundDiv (num den : Nat) : Nat :=
  let floor := num / den
  let twice := 2 * (num % den)
  if twice < den then floor
  else if den < twice then floor + 1
  else floor + floor % 2

/-- The bits of infinity, which are also the least bits that no finite double has. -/
def infinityBits : Nat := 2047 * Nat.pow 2 52

/-- The exponent at which the fraction `num / den` has 53 binary places, or the least one there is. -/
def exponentOf (num den : Nat) : Int :=
  let guess : Int := (num.log2 : Int) - den.log2 - 52
  let tight := if num * Nat.pow 2 (-guess).toNat < den * Nat.pow 2 (guess.toNat + 52) then guess - 1 else guess
  max tight minExponent

/-- The 63 bits, sign apart, of the double next to `num / den`.  A carry out of the 53 places moves into the exponent by
itself. -/
def nearestBits (num den : Nat) : Nat :=
  let q := exponentOf num den
  let m := roundDiv (num * Nat.pow 2 (-q).toNat) (den * Nat.pow 2 q.toNat)
  min ((q - minExponent).toNat * Nat.pow 2 52 + m) infinityBits

/-- The double next to the fraction `num / den`, with a sign; beyond the largest double it is infinite. -/
def nearest (negative : Bool) (num den : Nat) : Float :=
  let bits := if num = 0 then 0 else nearestBits num den
  Float.ofBits (UInt64.ofNat (if negative then Nat.pow 2 63 + bits else bits))

def remainder (m : Nat) (q : Int) (n : Nat) (r : Int) : Nat × Int :=
  let low := min q r
  (m * Nat.pow 2 (q - low).toNat % (n * Nat.pow 2 (r - low).toNat), low)

/-- The remainder of two doubles, exact, with the sign of the first.  There is none for an infinite first or a zero
second; an infinite second leaves the first as it is. -/
def floatMod (a b : Float) : Float :=
  match ofFloat a, ofFloat b with
  | .finite negative m q, .finite _ n r =>
    if n = 0 then Float.ofBits 0x7FF8000000000000
    else
      let (rest, low) := remainder m q n r
      nearest negative (rest * Nat.pow 2 low.toNat) (Nat.pow 2 (-low).toNat)
  | .finite _ _ _, .infinite _ => a
  | _, _ => Float.ofBits 0x7FF8000000000000

end Dyadic

end ChainCalc
