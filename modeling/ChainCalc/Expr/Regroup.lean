import ChainCalc.Expr.Basic
/-!
# Regrouping — a chain split at the operator that binds loosest

A chain of three or more operands becomes two sides joined by its last operator of lowest precedence, which is the root
of the tree that groups equal precedence to the left.
-/
namespace ChainCalc

/-- The last of the loosest links, with the links before and after it. -/
def Link.splitLoosest : List Link → Option (List Link × Link × List Link)
  | [] => none
  | l :: ls =>
    match Link.splitLoosest ls with
    | none => some ([], l, ls)
    | some (before, loosest, after) =>
      if loosest.op.precedence ≤ l.op.precedence then some (l :: before, loosest, after) else some ([], l, ls)

/-- The chain as two sides and one operator; a chain of at most two operands is not regrouped. -/
def Expr.regroup? (e : Expr) : Option Expr :=
  match e.bare with
  | ⟨first, rest⟩ =>
    if rest.length < 2 then none
    else
      match Link.splitLoosest rest with
      | none => none
      | some (before, loosest, after) => some (.binary ⟨first, before⟩ loosest.op ⟨loosest.operand, after⟩)

end ChainCalc
