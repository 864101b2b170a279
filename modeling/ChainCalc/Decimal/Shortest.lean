import ChainCalc.Decimal.Dyadic
/-!
# Shortest decimals — the fewest digits that read back as the same double

Every real number strictly between the two midpoints around a double reads as that double, and the midpoints do too
when its last binary place is even.  Of the decimals in that interval the one on the coarsest power-of-ten grid is
taken, the nearest to the double if the grid has two; a `Tie` chooses between two equally near ones.
-/
namespace ChainCalc
namespace Decimal

/-- Which of two equally near decimals is taken: the larger one, or the one with an even last digit. -/
inductive Tie where
  | up
  | even
  deriving DecidableEq, Repr, Inhabited

def Tie.choose : Tie → Nat → Nat
  | .up, d => d + 1
  | .even, d => d + d % 2

/-- The nearer of `d` and `d + 1` to a value that lies `rest` of a `unit` above `d`. -/
def nearer (tie : Tie) (d rest unit : Nat) : Nat :=
  if 2 * rest < unit then d
  else if unit < 2 * rest then d + 1
  else tie.choose d

/-- The point of the grid `10 ^ k` that stands for `m * 2 ^ q`, if one reads back as it.  All distances are counted in
units of a quarter of the last binary place. -/
def onGrid (tie : Tie) (m : Nat) (q k : Int) : Option Nat :=
  let scale := Nat.pow 2 (q - 2).toNat * Nat.pow 10 (-k).toNat
  let unit := Nat.pow 2 (2 - q).toNat * Nat.pow 10 k.toNat
  let value := 4 * m * scale
  let below := if m = Nat.pow 2 52 ∧ Dyadic.minExponent < q then 1 else 2
  let low := (4 * m - below) * scale
  let high := (4 * m + 2) * scale
  let inside (d : Nat) : Bool :=
    if m % 2 = 0 then low ≤ d * unit && d * unit ≤ high else low < d * unit && d * unit < high
  let d := value / unit
  match inside d, inside (d + 1) with
  | true, true => some (nearer tie d (value % unit) unit)
  | true, false => some d
  | false, true => some (d + 1)
  | false, false => none

def scan (tie : Tie) (m : Nat) (q : Int) : Nat → Int → Nat × Int
  | 0, k => (0, k)
  | steps + 1, k =>
    match onGrid tie m q k with
    | some d => (d, k)
    | none => scan tie m q steps (k - 1)

def ceiling (m : Nat) (q : Int) : Int :=
  (m.log2 + 1 + q) * 30103 / 100000 + 1

/-- The shortest decimal `d * 10 ^ k` that reads back as `m * 2 ^ q`, for `m` not zero. -/
def shortest (tie : Tie) (m : Nat) (q : Int) : Nat × Int :=
  scan tie m q 24 (ceiling m q)

end Decimal
end ChainCalc
