import ChainCalc.Operator
import ChainCalc.Placeholder
/-!
# Expressions — flat chains of operands

An expression is one operand followed by links, each an operator with its operand: `a + b * c` is `a` with the links
`+ b` and `* c`.  No precedence is applied here; a tree of operators exists only where parentheses were written.

Parentheses around a single operand, or around a whole expression that stands alone, carry no meaning; `Operand.bare`
and `Expr.bare` take them off, at the top only.
-/
namespace ChainCalc

inductive Literal where
  | bool (b : Bool)
  | int (n : Int64)
  | float (x : Float)
  | str (s : String)
  deriving Inhabited

/-- Literals are compared by kind and value; floats as numbers, so that a NaN differs from itself. -/
def Literal.beq : Literal → Literal → Bool
  | .bool a, .bool b => a == b
  | .int a, .int b => a == b
  | .float a, .float b => a == b
  | .str a, .str b => a == b
  | _, _ => false

instance : BEq Literal := ⟨Literal.beq⟩

mutual

inductive Operand where
  | lit (value : Literal)
  | ident (name : String)
  | call (name : String) (args : List Expr)
  | paren (inner : Expr)
  | unary (op : Operator) (operand : Operand)

structure Link where
  op : Operator
  operand : Operand

/-- A chain: the first operand and the links after it. -/
structure Expr where
  first : Operand
  rest : List Link

end

instance : Inhabited Operand := ⟨.ident ""⟩
instance : Inhabited Link := ⟨⟨default, default⟩⟩
instance : Inhabited Expr := ⟨⟨default, []⟩⟩

/-! ### Equality -/

mutual

def Operand.beq : Operand → Operand → Bool
  | .lit a, .lit b => a == b
  | .ident a, .ident b => a == b
  | .call f xs, .call g ys => f == g && Expr.beqList xs ys
  | .paren a, .paren b => a.beq b
  | .unary f x, .unary g y => f == g && x.beq y
  | _, _ => false

def Expr.beq : Expr → Expr → Bool
  | ⟨x, xs⟩, ⟨y, ys⟩ => x.beq y && Link.beqList xs ys

def Link.beqList : List Link → List Link → Bool
  | [], [] => true
  | ⟨f, x⟩ :: xs, ⟨g, y⟩ :: ys => f == g && x.beq y && Link.beqList xs ys
  | _, _ => false

def Expr.beqList : List Expr → List Expr → Bool
  | [], [] => true
  | x :: xs, y :: ys => x.beq y && Expr.beqList xs ys
  | _, _ => false

end

instance : BEq Operand := ⟨Operand.beq⟩
instance : BEq Expr := ⟨Expr.beq⟩

/-! ### Building -/

namespace Expr

def ofOperand (x : Operand) : Expr := ⟨x, []⟩

def ident (name : String) : Expr := ofOperand (.ident name)

def lit (value : Literal) : Expr := ofOperand (.lit value)

def call (name : String) (args : List Expr) : Expr := ofOperand (.call name args)

end Expr

/-- An expression made an operand: a chain goes in parentheses, a single operand is taken as it is. -/
def Operand.group (e : Expr) : Operand :=
  if e.rest.isEmpty then e.first else .paren e

namespace Expr

def unary (op : Operator) (e : Expr) : Expr := ofOperand (.unary op (.group e))

def andThen (e : Expr) (op : Operator) (right : Expr) : Expr :=
  ⟨e.first, e.rest ++ [⟨op, .group right⟩]⟩

def binary (left : Expr) (op : Operator) (right : Expr) : Expr :=
  (ofOperand (.group left)).andThen op right

def length (e : Expr) : Nat := e.rest.length + 1

def isChain (e : Expr) : Bool := !e.rest.isEmpty

end Expr

/-! ### Redundant parentheses -/

def Operand.bare : Operand → Operand
  | .paren ⟨x, []⟩ => x.bare
  | x => x

/-- The expression without parentheses around the whole of it. -/
def Expr.bare : Expr → Expr
  | ⟨.paren e, []⟩ => e.bare
  | e => e

/-! ### Views -/

def Operand.placeholder? (x : Operand) : Option Placeholder :=
  match x.bare with
  | .ident name => Placeholder.classify name
  | _ => none

def Operand.isEllipsis (x : Operand) : Bool :=
  x.placeholder?.any Placeholder.isEllipsis

namespace Expr

def placeholder? (e : Expr) : Option Placeholder :=
  match e.bare with
  | ⟨x, []⟩ => x.placeholder?
  | _ => none

def ellipsis? (e : Expr) : Option Placeholder :=
  e.placeholder?.filter Placeholder.isEllipsis

def asIdent? (e : Expr) : Option String :=
  match e.bare with
  | ⟨.ident name, []⟩ => some name
  | _ => none

def asCall? (e : Expr) : Option (String × List Expr) :=
  match e.bare with
  | ⟨.call name args, []⟩ => some (name, args)
  | _ => none

end Expr

end ChainCalc
