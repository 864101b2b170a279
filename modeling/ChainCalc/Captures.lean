import ChainCalc.Match
import ChainCalc.Table
/-!
# Captures — what a match found for each placeholder

Captures are grouped by placeholder, groups in the order of their first capture.  `Expr.captures?` gives them for a match
that goes through, `Expr.matchLog` the plain sequence of reports, however the match ended.
-/
namespace ChainCalc

abbrev Captures := Table (List Expr)

namespace Captures

def none : Captures := Table.empty

def push (c : Captures) (name : String) (e : Expr) : Captures :=
  c.insert name ((c.get? name).getD [] ++ [e])

def of (c : Captures) (name : String) : List Expr := (c.get? name).getD []

end Captures

namespace Expr

def captures? (pattern candidate : Expr) : Option Captures :=
  match matchExpr (fun name e c => (true, Captures.push c name e)) pattern candidate Captures.none with
  | (true, c) => some c
  | (false, _) => Option.none

/-- Whether a match goes through, and every capture reported on the way; captures that are not accepted end it. -/
def matchLog (accept : String → Expr → Bool) (pattern candidate : Expr) : Bool × List (String × Expr) :=
  matchExpr (fun name e log => (accept name e, log ++ [(name, e)])) pattern candidate []

end Expr

end ChainCalc
