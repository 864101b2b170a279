import ChainCalc.Json.Basic
import ChainCalc.Decimal.Reading
/-!
# JSON numbers — from digits to machine numbers

Digits are gathered in a 64-bit significand; those that no longer fit only count for the power of ten.  The significand
is then made a double and scaled by that power in one step where the power is a double, so the result is exact for
numbers of few digits and may be off by the last binary place for others.
-/
namespace ChainCalc
namespace Json
namespace Number

def maxSignificand : Nat := Nat.pow 2 64 - 1

/-- Powers of ten that are doubles: up to `10 ^ 308`. -/
def maxPower : Nat := 308

/-- Digits gathered so far: a significand, the power of ten it is to be scaled by, and whether further digits are no
longer looked at. -/
structure Gathered where
  significand : Nat
  power : Int
  full : Bool
  deriving DecidableEq, Repr, Inhabited

def Gathered.whole (g : Gathered) (c : Char) : Gathered :=
  let next := g.significand * 10 + Decimal.digitValue c
  if g.full || maxSignificand < next then { g with power := g.power + 1, full := true }
  else { g with significand := next }

def Gathered.fraction (g : Gathered) (c : Char) : Gathered :=
  let next := g.significand * 10 + Decimal.digitValue c
  if g.full || maxSignificand < next then { g with full := true }
  else { g with significand := next, power := g.power - 1 }

/-- Scales by a power of ten, in steps of `10 ^ 308` while the power is below that; beyond the doubles there is
nothing. -/
def scale (f : Float) (power : Int) : Nat → Option Float
  | 0 => some f
  | steps + 1 =>
    if power.natAbs ≤ maxPower then
      let p := Decimal.toFloat false 1 power.natAbs
      if 0 ≤ power then
        let scaled := f * p
        if scaled.isInf then none else some scaled
      else some (f / p)
    else if f == 0.0 then some f
    else if 0 ≤ power then none
    else scale (f / Decimal.toFloat false 1 maxPower) (power + maxPower) steps

def ofParts? (negative : Bool) (significand : Nat) (power : Int) : Option Number :=
  (scale (Dyadic.nearest false significand 1) power 4).map (fun f => .float (if negative then -f else f))

/-- An integer: within 64 bits as it is, otherwise a double.  A negative zero is a double as well. -/
def ofInteger? (negative : Bool) (g : Gathered) : Option Number :=
  if g.full then ofParts? negative g.significand g.power
  else if !negative then some (.int g.significand)
  else if 0 < g.significand ∧ g.significand ≤ Nat.pow 2 63 then some (.int (-(g.significand : Int)))
  else some (.float (-(Dyadic.nearest false g.significand 1)))

def maxExponent : Nat := Nat.pow 2 31 - 1

/-- A number with an exponent.  One too large to look at makes a zero of a zero and of a small number. -/
def withExponent? (negative : Bool) (g : Gathered) (down : Bool) (exponent : Nat) : Option Number :=
  if maxExponent < exponent then
    if g.significand ≠ 0 ∧ !down then none else some (.float (Dyadic.nearest negative 0 1))
  else ofParts? negative g.significand (if down then g.power - exponent else g.power + exponent)

end Number
end Json
end ChainCalc
