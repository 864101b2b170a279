import ChainCalc.Expr.Basic
import ChainCalc.Decimal.Layout
/-!
# Printing expressions — on one line, as they would be written

Chains are written flat with a blank on either side of each operator; an operator in front of its operand stands
directly before it.  Parentheses appear exactly where the expression has them.
-/
namespace ChainCalc

def Literal.escape : Char → List Char
  | '"' => ['\\', '"']
  | '\\' => ['\\', '\\']
  | '\n' => ['\\', 'n']
  | '\t' => ['\\', 't']
  | '\r' => ['\\', 'r']
  | '\x00' => ['\\', '0']
  | c => [c]

/-- A literal as it is written.  A float always shows a point or an exponent, so that it is not taken for an integer. -/
def Literal.written : Literal → List Char
  | .bool b => (if b then "true" else "false").toList
  | .int n => (toString n.toInt).toList
  | .float x => (Decimal.Layout.value.text x).toList
  | .str s => ['"'] ++ s.toList.flatMap Literal.escape ++ ['"']

mutual

def Operand.writtenOn : Operand → List Char → List Char
  | .lit value, rest => value.written ++ rest
  | .ident name, rest => name.toList ++ rest
  | .call name args, rest => name.toList ++ '(' :: Expr.argsWrittenOn args (')' :: rest)
  | .paren inner, rest => '(' :: inner.writtenOn (')' :: rest)
  | .unary op operand, rest => op.symbol.toList ++ operand.writtenOn rest

def Expr.writtenOn : Expr → List Char → List Char
  | ⟨first, links⟩, rest => first.writtenOn (Link.allWrittenOn links rest)

def Link.allWrittenOn : List Link → List Char → List Char
  | [], rest => rest
  | ⟨op, operand⟩ :: links, rest =>
    ' ' :: op.symbol.toList ++ ' ' :: operand.writtenOn (Link.allWrittenOn links rest)

def Expr.argsWrittenOn : List Expr → List Char → List Char
  | [], rest => rest
  | [e], rest => e.writtenOn rest
  | e :: es, rest => e.writtenOn (',' :: ' ' :: Expr.argsWrittenOn es rest)

end

def Operand.written (x : Operand) : List Char := x.writtenOn []

def Expr.written (e : Expr) : List Char := e.writtenOn []

def Literal.text (l : Literal) : String := String.ofList l.written

def Operand.text (x : Operand) : String := String.ofList x.written

def Expr.text (e : Expr) : String := String.ofList e.written

end ChainCalc
