import ChainCalc.Json.Number
import ChainCalc.Expr.Parser
/-!
# Reading JSON — a whole text is one value

Blanks are space, tab, line feed and carriage return; strings hold no raw control characters; numbers have no leading
zeros.  The readers of strings, numbers and members take what is well formed off the text and give nothing for it where
it cannot be read.
-/
namespace ChainCalc
namespace Json

open Reader (many orElse)

def skip (s : List Char) : List Char := s.dropWhile Grammar.isSpace

def word (expected : String) (s : List Char) : Option (List Char) :=
  if expected.toList.isPrefixOf s then some (s.drop expected.toList.length) else none

/-! ### Strings -/

def hexValue? (c : Char) : Option Nat :=
  if c.isDigit then some (c.toNat - 48)
  else if 'a' ≤ c ∧ c ≤ 'f' then some (c.toNat - 87)
  else if 'A' ≤ c ∧ c ≤ 'F' then some (c.toNat - 55)
  else none

def hexUnit : Reader Nat
  | a :: b :: c :: d :: s => do
    let a ← hexValue? a
    let b ← hexValue? b
    let c ← hexValue? c
    let d ← hexValue? d
    some (((a * 16 + b) * 16 + c) * 16 + d, s)
  | _ => none

def opensPair (n : Nat) : Bool := 0xD800 ≤ n && n < 0xDC00

def closesPair (n : Nat) : Bool := 0xDC00 ≤ n && n < 0xE000

def pairEnd : Reader Nat
  | '\\' :: 'u' :: s =>
    match hexUnit s with
    | some (low, rest) => if closesPair low then some (low, rest) else none
    | none => none
  | _ => none

/-- A character written by one code unit, or by two that pair up; half of a pair is none. -/
def unicode : Reader (Option Char) := fun s =>
  match hexUnit s with
  | none => none
  | some (high, s) =>
    if opensPair high then
      match pairEnd s with
      | some (low, rest) => some (some (Char.ofNat (0x10000 + (high - 0xD800) * 1024 + (low - 0xDC00))), rest)
      | none => some (none, s)
    else if closesPair high then some (none, s)
    else some (some (Char.ofNat high), s)

def character : Reader (Option Char)
  | '\\' :: '"' :: s => some (some '"', s)
  | '\\' :: '\\' :: s => some (some '\\', s)
  | '\\' :: '/' :: s => some (some '/', s)
  | '\\' :: 'b' :: s => some (some '\x08', s)
  | '\\' :: 'f' :: s => some (some '\x0c', s)
  | '\\' :: 'n' :: s => some (some '\n', s)
  | '\\' :: 'r' :: s => some (some '\r', s)
  | '\\' :: 't' :: s => some (some '\t', s)
  | '\\' :: 'u' :: s => unicode s
  | '\\' :: _ => none
  | '"' :: _ => none
  | c :: s => if c.toNat < 0x20 then none else some (some c, s)
  | [] => none

def string : Reader (Option String)
  | '"' :: s =>
    match many character s with
    | (cs, '"' :: rest) => some ((cs.mapM id).map String.ofList, rest)
    | _ => none
  | _ => none

/-! ### Numbers -/

/-- The whole part: a zero alone, or digits that start with another one. -/
def wholeDigits : Reader (List Char) := fun s =>
  match Grammar.digits s with
  | some (['0'], rest) => some (['0'], rest)
  | some ('0' :: _, _) => none
  | r => r

def pointDigits (s : List Char) : Option (List Char × List Char) :=
  match s with
  | '.' :: s => Grammar.digits s
  | _ => some ([], s)

def number : Reader (Option Number) := fun s =>
  let (negative, s) := match s with
    | '-' :: s => (true, s)
    | s => (false, s)
  match wholeDigits s with
  | none => none
  | some (whole, s) =>
    match pointDigits s with
    | none => none
    | some (part, s) =>
      let w := whole.foldl Number.Gathered.whole ⟨0, 0, false⟩
      let g := part.foldl Number.Gathered.fraction { w with full := false }
      match s with
      | c :: rest =>
        if c == 'e' || c == 'E' then
          let (down, rest) := Decimal.splitSign rest
          (Grammar.digits rest).map (fun (ds, rest) => (Number.withExponent? negative g down (Decimal.natOfDigits ds), rest))
        else if part.isEmpty then some (Number.ofInteger? negative w, s)
        else some (Number.ofParts? negative g.significand g.power, s)
      | [] =>
        if part.isEmpty then some (Number.ofInteger? negative w, s)
        else some (Number.ofParts? negative g.significand g.power, s)

/-! ### Values -/

def listed {α : Type} (item : Reader α) (closing : Char) (s : List Char) : Option (List α × List Char) :=
  let s := skip s
  if s.head? == some closing then some ([], s.drop 1)
  else
    match item s with
    | none => none
    | some (a, s) =>
      let next : Reader α := fun s => match skip s with
        | ',' :: s => item (skip s)
        | _ => none
      let (as, s) := many next s
      let s := skip s
      if s.head? == some closing then some (a :: as, s.drop 1) else none

def member (value : Reader Json) : Reader (Option Member) := fun s =>
  match string s with
  | none => none
  | some (key, s) =>
    match skip s with
    | ':' :: s => (value (skip s)).map (fun (v, rest) => (key.map (fun k => ⟨k, v⟩), rest))
    | _ => none

def orUnreadable {α : Type} (make : α → Json) (read : Option α) : Json := (read.map make).getD .unreadable

/-- A value nested less than `n` deep.  An object with a key that cannot be read cannot be read itself. -/
def value : Nat → Reader Json
  | 0 => fun _ => none
  | n + 1 => fun s =>
    match s with
    | '[' :: s => (listed (value n) ']' s).map (fun (vs, rest) => (.arr vs, rest))
    | '\x7b' :: s =>
      (listed (member (value n)) '\x7d' s).map (fun (ms, rest) => (orUnreadable .obj (ms.mapM id), rest))
    | '"' :: _ => (string s).map (fun (t, rest) => (orUnreadable .str t, rest))
    | _ =>
      match word "null" s with
      | some rest => some (.null, rest)
      | none =>
        match word "true" s with
        | some rest => some (.bool true, rest)
        | none =>
          match word "false" s with
          | some rest => some (.bool false, rest)
          | none => (number s).map (fun (n, rest) => (orUnreadable .num n, rest))

/-- The value that a text writes, with nothing but blanks around it.  A text is never nested deeper than it is long. -/
def parse? (source : String) : Option Json :=
  match value (source.length + 1) (skip source.toList) with
  | none => none
  | some (v, rest) => if (skip rest).isEmpty then some v else none

end Json
end ChainCalc
