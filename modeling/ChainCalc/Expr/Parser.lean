import ChainCalc.Expr.Basic
import ChainCalc.Decimal.Reading
/-!
# Reading expressions — the grammar, rule by rule

A `Reader` takes a phrase off the front of the text, or fails and takes nothing.  Alternatives are tried in order and
repetitions take as much as they can.  Only the nesting of operands is recursive; `operand n` reads operands nested less
than `n` deep, and a text is never nested deeper than it is long.
-/
namespace ChainCalc

abbrev Reader (α : Type) := List Char → Option (α × List Char)

namespace Reader

def many {α : Type} (p : Reader α) (s : List Char) : List α × List Char :=
  match p s with
  | none => ([], s)
  | some (a, rest) =>
    if rest.length < s.length then
      let (as, final) := many p rest
      (a :: as, final)
    else ([], s)
termination_by s.length

def orElse {α : Type} (p q : Reader α) : Reader α := fun s =>
  match p s with
  | some r => some r
  | none => q s

end Reader

namespace Grammar

open Reader

/-! ### Blanks -/

def isSpace (c : Char) : Bool := c == ' ' || c == '\t' || c == '\r' || c == '\n'

/-- Behind the body of a comment: at a line end or at the end of the text.  A carriage return without a line feed is
neither, and what it cuts off is no comment. -/
def commentEnd? (s : List Char) : Option (List Char) :=
  match s.dropWhile (fun c => c != '\r' && c != '\n') with
  | '\r' :: '\n' :: rest => some ('\r' :: '\n' :: rest)
  | '\r' :: _ => none
  | rest => some rest

theorem length_of_commentEnd? {s rest : List Char} (h : commentEnd? s = some rest) : rest.length ≤ s.length := by
  have hd : (s.dropWhile (fun c => c != '\r' && c != '\n')).length ≤ s.length := (List.dropWhile_suffix _).length_le
  unfold commentEnd? at h
  split at h
  · next r heq =>
    cases h
    rw [heq] at hd
    exact hd
  · cases h
  · cases h
    exact hd

def skipBlank (s : List Char) : List Char :=
  match s with
  | [] => []
  | c :: rest =>
    if isSpace c then skipBlank rest
    else if c == '#' then
      match _h : commentEnd? rest with
      | some final => skipBlank final
      | none => c :: rest
    else c :: rest
termination_by s.length
decreasing_by
  · simp
  · have := length_of_commentEnd? _h
    simp only [List.length_cons]
    omega

/-! ### Operators -/

def binaryOperator : Reader Operator
  | '|' :: '|' :: s => some (.or, s)
  | '&' :: '&' :: s => some (.and, s)
  | '=' :: '=' :: s => some (.eq, s)
  | '!' :: '=' :: s => some (.ne, s)
  | '<' :: '=' :: s => some (.le, s)
  | '>' :: '=' :: s => some (.ge, s)
  | '<' :: s => some (.lt, s)
  | '>' :: s => some (.gt, s)
  | '+' :: s => some (.add, s)
  | '-' :: s => some (.sub, s)
  | '*' :: s => some (.mul, s)
  | '/' :: s => some (.div, s)
  | '%' :: s => some (.mod, s)
  | '^' :: s => some (.pow, s)
  | _ => none

/-- An operator in front of an operand; `!` only where it does not begin `!=`. -/
def unaryOperator : Reader Operator
  | '-' :: s => some (.sub, s)
  | '!' :: '=' :: _ => none
  | '!' :: s => some (.not, s)
  | _ => none

/-! ### Names -/

def isNameStart (c : Char) : Bool := c.isAlpha || c == '_'

def isNameChar (c : Char) : Bool := c.isAlphanum || c == '_'

def name : Reader String
  | [] => none
  | c :: s =>
    if isNameStart c then
      let letters := c :: s.takeWhile isNameChar
      match c == '_', s.dropWhile isNameChar with
      | true, '.' :: '.' :: '.' :: rest => some (String.ofList (letters ++ ['.', '.', '.']), rest)
      | _, rest => some (String.ofList letters, rest)
    else none

/-! ### Literals -/

def keyword (word : String) (s : List Char) : Option (List Char) :=
  if word.toList.isPrefixOf s then
    let rest := s.drop word.toList.length
    if (rest.head?.map isNameChar).getD false then none else some rest
  else none

def boolLiteral : Reader Literal := fun s =>
  match keyword "true" s with
  | some rest => some (.bool true, rest)
  | none =>
    match keyword "false" s with
    | some rest => some (.bool false, rest)
    | none => none

def digits : Reader (List Char) := fun s =>
  match s.takeWhile Char.isDigit with
  | [] => none
  | ds => some (ds, s.dropWhile Char.isDigit)

def exponent : Reader Int
  | [] => none
  | c :: s =>
    if c == 'e' || c == 'E' then
      let (negative, s) := Decimal.splitSign s
      match digits s with
      | some (ds, rest) =>
        let n : Int := Decimal.natOfDigits ds
        some (if negative then -n else n, rest)
      | none => none
    else none

def fraction : Reader (List Char × Int) := fun s =>
  match s with
  | '.' :: s' =>
    match digits s' with
    | some (ds, rest) =>
      match exponent rest with
      | some (e, rest') => some ((ds, e), rest')
      | none => some ((ds, 0), rest)
    | none => none
  | _ =>
    match exponent s with
    | some (e, rest) => some (([], e), rest)
    | none => none

/-- A float: whole digits with a point and digits, an exponent, or both.  Too large a number reads as infinite. -/
def floatLiteral : Reader Literal := fun s =>
  match digits s with
  | none => none
  | some (whole, s) =>
    match fraction s with
    | none => none
    | some ((part, e), rest) => some (.float (Decimal.ofParts false whole part e), rest)

def intLiteral : Reader Literal := fun s =>
  match digits s with
  | none => none
  | some (ds, rest) =>
    let n := Decimal.natOfDigits ds
    if n < Nat.pow 2 63 then some (.int (Int64.ofNat n), rest) else none

/-- The character that stands behind a backslash for another one; most stand for themselves. -/
def unescape : Char → Char
  | 'n' => '\n'
  | 't' => '\t'
  | 'r' => '\r'
  | '0' => '\x00'
  | c => c

def quoted (quote : Char) : List Char → Option (List Char × List Char)
  | [] => none
  | c :: s =>
    if c == quote then some ([], s)
    else if c == '\\' then
      match s with
      | [] => none
      | e :: s' => (quoted quote s').map (fun (cs, rest) => (unescape e :: cs, rest))
    else (quoted quote s).map (fun (cs, rest) => (c :: cs, rest))

def stringLiteral : Reader Literal
  | '"' :: s => (quoted '"' s).map (fun (cs, rest) => (.str (String.ofList cs), rest))
  | '\'' :: s => (quoted '\'' s).map (fun (cs, rest) => (.str (String.ofList cs), rest))
  | _ => none

def literal : Reader Literal :=
  orElse boolLiteral (orElse floatLiteral (orElse intLiteral stringLiteral))

/-! ### Chains and operands -/

def link (operand : Reader Operand) : Reader Link := fun s =>
  match binaryOperator (skipBlank s) with
  | none => none
  | some (op, s) => (operand (skipBlank s)).map (fun (x, rest) => (⟨op, x⟩, rest))

def chain (operand : Reader Operand) : Reader Expr := fun s =>
  match operand s with
  | none => none
  | some (first, s) =>
    let (rest, s) := many (link operand) s
    some (⟨first, rest⟩, s)

def parenthesised (expr : Reader Expr) : Reader Operand
  | '(' :: s =>
    match expr (skipBlank s) with
    | none => none
    | some (e, s) =>
      match skipBlank s with
      | ')' :: rest => some (.paren e, rest)
      | _ => none
  | _ => none

def nextArgument (expr : Reader Expr) : Reader Expr := fun s =>
  match skipBlank s with
  | ',' :: s => expr (skipBlank s)
  | _ => none

def arguments (expr : Reader Expr) (s : List Char) : List Expr × List Char :=
  match expr s with
  | none => ([], s)
  | some (e, s) =>
    let (es, s) := many (nextArgument expr) s
    match skipBlank s with
    | ',' :: rest => (e :: es, rest)
    | _ => (e :: es, s)

def callOperand (expr : Reader Expr) : Reader Operand := fun s =>
  match name s with
  | some (f, '(' :: s) =>
    let (args, s) := arguments expr (skipBlank s)
    match skipBlank s with
    | ')' :: rest => some (.call f args, rest)
    | _ => none
  | _ => none

def primary (expr : Reader Expr) : Reader Operand :=
  orElse (parenthesised expr) <|
  orElse (fun s => (literal s).map (fun (l, rest) => (.lit l, rest))) <|
  orElse (callOperand expr) (fun s => (name s).map (fun (n, rest) => (.ident n, rest)))

def prefixed (operand : Reader Operand) : Reader Operand := fun s =>
  match unaryOperator s with
  | none => none
  | some (op, s) => (operand (skipBlank s)).map (fun (x, rest) => (.unary op x, rest))

def operand : Nat → Reader Operand
  | 0 => fun _ => none
  | n + 1 => fun s => orElse (prefixed (operand n)) (primary (chain (operand n))) (skipBlank s)

def expression (n : Nat) : Reader Expr := chain (operand n)

def statement (n : Nat) : Reader Expr := fun s =>
  match expression n (skipBlank s) with
  | none => none
  | some (e, s) =>
    match skipBlank s with
    | ';' :: rest => some (e, rest)
    | rest => some (e, rest)

def statements (n : Nat) (s : List Char) : List Expr × List Char :=
  let (es, rest) := many (statement n) s
  (es, skipBlank rest)

end Grammar

end ChainCalc
