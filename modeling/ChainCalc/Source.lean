import ChainCalc.Expr.Parser
import ChainCalc.Text.Blank
/-!
# Source text — whole texts read, and where reading stopped

`Expr.parse` reads a text that is one expression, `Program.parse` one that is a sequence of statements.  A text that
goes on behind what could be read is refused at the first character there that is not blank; a text that does not even
start with an expression, which only `Expr.parse` can meet, is refused where the expression should start.
-/
namespace ChainCalc

open Grammar (expression statements skipBlank)

/-- A place in a text: bytes before it, and line and column counted from one in characters. -/
structure Position where
  offset : Nat
  line : Nat
  column : Nat
  deriving DecidableEq, Repr, Inhabited

namespace Position

def start : Position := ⟨0, 1, 1⟩

def advance (p : Position) (c : Char) : Position :=
  ⟨p.offset + c.utf8Size, if c == '\n' then p.line + 1 else p.line, if c == '\n' then 1 else p.column + 1⟩

def behind (read : List Char) : Position := read.foldl advance start

end Position

inductive SyntaxError where
  | trailing (place : Position)
  | noExpression (place : Position)
  deriving DecidableEq, Repr, Inhabited

namespace SyntaxError

def position : SyntaxError → Position
  | .trailing p => p
  | .noExpression p => p

def message : SyntaxError → String
  | .trailing _ => "unexpected trailing input"
  | .noExpression _ => "Backtrack(ContextError \x7b context: [], cause: None \x7d)"

def text (e : SyntaxError) : String :=
  e.message ++ " (line " ++ toString e.position.line ++ ", column " ++ toString e.position.column ++ ", offset " ++
    toString e.position.offset ++ ")"

end SyntaxError

def placeOf (source rest : List Char) : Position :=
  Position.behind (source.take (source.length - rest.length))

/-- The rest without the blank characters at its front, unless it has no others. -/
def trailingFrom (rest : List Char) : List Char :=
  match rest.dropWhile Text.isBlank with
  | [] => rest
  | visible => visible

def complete {α : Type} (source : List Char) : α × List Char → Except SyntaxError α
  | (a, []) => .ok a
  | (_, rest) => .error (.trailing (placeOf source (trailingFrom rest)))

/-- Deep enough for any nesting that a text can hold. -/
def nestingBound (source : List Char) : Nat := source.length + 1

def Expr.parseChars (source : List Char) : Except SyntaxError Expr :=
  match expression (nestingBound source) (skipBlank source) with
  | none => .error (.noExpression (placeOf source (skipBlank source)))
  | some (e, rest) => complete source (e, skipBlank rest)

def Program.parseChars (source : List Char) : Except SyntaxError (List Expr) :=
  complete source (statements (nestingBound source) source)

def Expr.parse (source : String) : Except SyntaxError Expr := Expr.parseChars source.toList

def Program.parse (source : String) : Except SyntaxError (List Expr) := Program.parseChars source.toList

end ChainCalc
