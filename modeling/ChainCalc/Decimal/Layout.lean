import ChainCalc.Decimal.Shortest
/-!
# Layout — how a double is written out

The digits are the shortest ones; a `Layout` says for which magnitudes they are written in full, with at least one digit
on either side of the point, when an exponent is used, and which of two equally near decimals is taken.
-/
namespace ChainCalc
namespace Decimal

/-- How doubles are written: in full where the point stands `lowest` to `highest` places to the right of the digits' left
end, and how a tie is settled. -/
structure Layout where
  lowest : Int
  highest : Int
  tie : Tie
  deriving DecidableEq, Repr, Inhabited

/-- Values of the language: in full from 0.0001 up to, and without, 10 ^ 16; a tie goes up. -/
def Layout.value : Layout := ⟨-3, 16, .up⟩

/-- Numbers in messages: in full from 0.00001 up to, and without, 10 ^ 16; a tie goes to the even digit. -/
def Layout.message : Layout := ⟨-4, 16, .even⟩

def positional (digits : List Char) (places : Int) : List Char :=
  if places ≤ 0 then
    ['0', '.'] ++ List.replicate (-places).toNat '0' ++ digits
  else if places.toNat < digits.length then
    digits.take places.toNat ++ ['.'] ++ digits.drop places.toNat
  else
    digits ++ List.replicate (places.toNat - digits.length) '0' ++ ['.', '0']

def scientific (digits : List Char) (places : Int) : List Char :=
  let point := match digits with
    | [] | [_] => digits
    | d :: ds => d :: '.' :: ds
  point ++ ['e'] ++ (toString (places - 1)).toList

def Layout.magnitude (layout : Layout) (m : Nat) (q : Int) : List Char :=
  if m = 0 then ['0', '.', '0']
  else
    let (d, k) := shortest layout.tie m q
    let digits := (toString d).toList
    let places := digits.length + k
    if layout.lowest ≤ places ∧ places ≤ layout.highest then positional digits places else scientific digits places

def signed (negative : Bool) (text : List Char) : List Char :=
  if negative then '-' :: text else text

/-- A double laid out; a NaN has no sign. -/
def Layout.text (layout : Layout) (x : Float) : String :=
  match Dyadic.ofFloat x with
  | .nan => "NaN"
  | .infinite negative => String.ofList (signed negative ['i', 'n', 'f'])
  | .finite negative m q => String.ofList (signed negative (layout.magnitude m q))

end Decimal
end ChainCalc
