import ChainCalc.Expr.Basic
/-!
# Patterns — expressions whose placeholders are to be bound
-/
namespace ChainCalc

mutual

def Operand.holes : Operand → List String
  | .lit _ => []
  | .ident name => if (Placeholder.classify name).isSome then [name] else []
  | .call name args => (if (Placeholder.classify name).isSome then [name] else []) ++ Expr.holesAll args
  | .paren inner => inner.holes
  | .unary _ operand => operand.holes

def Expr.holes : Expr → List String
  | ⟨first, rest⟩ => first.holes ++ Link.holesAll rest

def Link.holesAll : List Link → List String
  | [] => []
  | ⟨_, operand⟩ :: rest => operand.holes ++ Link.holesAll rest

def Expr.holesAll : List Expr → List String
  | [] => []
  | e :: es => e.holes ++ Expr.holesAll es

end

/-- An expression to be matched against, with the names it binds. -/
structure Pattern where
  expr : Expr
  holes : List String
  deriving Inhabited

namespace Pattern

def ofExpr (e : Expr) : Pattern := ⟨e, e.holes⟩

def binds (p : Pattern) (name : String) : Bool := p.holes.contains name

end Pattern

end ChainCalc
