/-!
# Operators — the signs that join operands, and how tightly each binds

Fourteen operators stand between two operands; `!` stands only in front of one and has the lowest precedence.
-/
namespace ChainCalc

/-- An operator of the language, in the order in which the table of operators lists them. -/
inductive Operator where
  | or | and | eq | ne | lt | le | gt | ge | add | sub | mul | div | mod | pow | not
  deriving DecidableEq, Repr, Inhabited

namespace Operator

def all : List Operator :=
  [.or, .and, .eq, .ne, .lt, .le, .gt, .ge, .add, .sub, .mul, .div, .mod, .pow, .not]

def binary : List Operator :=
  [.or, .and, .eq, .ne, .lt, .le, .gt, .ge, .add, .sub, .mul, .div, .mod, .pow]

/-- How tightly an operator binds; equal precedence groups to the left. -/
def precedence : Operator → Nat
  | .not => 0
  | .or => 1
  | .and => 2
  | .eq | .ne | .lt | .le | .gt | .ge => 3
  | .add | .sub => 4
  | .mul | .div | .mod => 5
  | .pow => 6

def symbol : Operator → String
  | .or => "||"
  | .and => "&&"
  | .eq => "=="
  | .ne => "!="
  | .lt => "<"
  | .le => "<="
  | .gt => ">"
  | .ge => ">="
  | .add => "+"
  | .sub => "-"
  | .mul => "*"
  | .div => "/"
  | .mod => "%"
  | .pow => "^"
  | .not => "!"

def ofSymbol? (text : String) : Option Operator :=
  all.find? (fun op => op.symbol == text)

/-- **Spellings tell operators apart.** -/
theorem ofSymbol?_symbol (op : Operator) : ofSymbol? op.symbol = some op := by
  cases op <;> decide

theorem mem_all (op : Operator) : op ∈ all := by
  cases op <;> decide

theorem precedence_pos_iff (op : Operator) : 0 < op.precedence ↔ op ∈ binary := by
  cases op <;> decide

end Operator

end ChainCalc
