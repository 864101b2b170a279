import ChainCalc.Decimal.Dyadic
/-!
# Reading decimals — from digits to the nearest double

`toFloat` rounds `d * 10 ^ k` once, correctly.  `ofText?` reads the forms in which a double may be given: a sign,
digits with or without a point, an exponent, and the words for infinity and for no number.
-/
namespace ChainCalc
namespace Decimal

def digitValue (c : Char) : Nat := c.toNat - 48

def natOfDigits (digits : List Char) : Nat :=
  digits.foldl (fun n c => n * 10 + digitValue c) 0

/-- The double next to `d * 10 ^ k`.  Magnitudes far beyond the range are settled without the power. -/
def toFloat (negative : Bool) (d : Nat) (k : Int) : Float :=
  let places : Int := (toString d).length + k
  if d = 0 ∨ places < -400 then Dyadic.nearest negative 0 1
  else if 400 < places then Dyadic.nearest negative (Nat.pow 2 1024) 1
  else Dyadic.nearest negative (d * Nat.pow 10 k.toNat) (Nat.pow 10 (-k).toNat)

def ofParts (negative : Bool) (whole fraction : List Char) (exponent : Int) : Float :=
  toFloat negative (natOfDigits (whole ++ fraction)) (exponent - fraction.length)

def splitSign : List Char → Bool × List Char
  | '-' :: s => (true, s)
  | '+' :: s => (false, s)
  | s => (false, s)

/-- An exponent that makes up the whole text: the letter, a sign if any, digits.  No text is the exponent zero. -/
def exponent? : List Char → Option Int
  | [] => some 0
  | c :: s =>
    let (negative, digits) := splitSign s
    if (c == 'e' || c == 'E') && !digits.isEmpty && digits.all Char.isDigit then
      some (if negative then -(natOfDigits digits : Int) else natOfDigits digits)
    else none

/-- A number without a sign: digits, perhaps a point, perhaps an exponent; there is at least one digit. -/
def unsigned? (negative : Bool) (s : List Char) : Option Float :=
  let whole := s.takeWhile Char.isDigit
  let rest := s.dropWhile Char.isDigit
  let (fraction, rest) := match rest with
    | '.' :: r => (r.takeWhile Char.isDigit, r.dropWhile Char.isDigit)
    | r => ([], r)
  if whole.isEmpty && fraction.isEmpty then none
  else (exponent? rest).map (ofParts negative whole fraction)

def ofText? (text : String) : Option Float :=
  let (negative, s) := splitSign text.toList
  let word := String.ofList (s.map Char.toLower)
  if word == "inf" || word == "infinity" then
    some (Dyadic.nearest negative (Nat.pow 2 1024) 1)
  else if word == "nan" then
    some (Float.ofBits 0x7FF8000000000000)
  else unsigned? negative s

end Decimal
end ChainCalc
