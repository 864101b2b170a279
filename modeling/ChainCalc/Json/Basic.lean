import ChainCalc.Decimal.Layout
/-!
# JSON values — and their compact text

Members keep the order in which they were written, and a key may occur more than once: whoever reads a record out of an
object decides what that means.  Numbers are kept as the machine numbers that they denote.

A text may be well formed and still hold a value that cannot be read: a number beyond the doubles, or a string with half
of a surrogate pair.  Such a value does no harm where it is passed over; `Json.isReadable` tells whether there is one, or
arrays and objects nested too deep.
-/
namespace ChainCalc

/-- A number: an integer of 64 bits, signed or not, or a double. -/
inductive Json.Number where
  | int (n : Int)
  | float (x : Float)
  deriving Inhabited

mutual

inductive Json where
  | null
  | bool (b : Bool)
  | num (n : Json.Number)
  | str (s : String)
  | arr (items : List Json)
  | obj (members : List Json.Member)
  | unreadable

structure Json.Member where
  key : String
  value : Json

end

instance : Inhabited Json := ⟨.null⟩
instance : Inhabited Json.Member := ⟨⟨"", .null⟩⟩

namespace Json

def nat (n : Nat) : Json := .num (.int n)

/-- A double; one that is not finite has no JSON text and becomes `null`. -/
def ofFloat (x : Float) : Json :=
  match Dyadic.ofFloat x with
  | .finite _ _ _ => .num (.float x)
  | _ => .null

def record (members : List (String × Json)) : Json :=
  .obj (members.map (fun (k, v) => ⟨k, v⟩))

def strings (items : List String) : Json := .arr (items.map .str)

def get? (key : String) : Json → Option Json
  | .obj members => (members.find? (fun m => m.key == key)).map Member.value
  | _ => none

def hex4 (n : Nat) : List Char :=
  [n / 4096 % 16, n / 256 % 16, n / 16 % 16, n % 16].map Nat.digitChar

def escape (c : Char) : List Char :=
  match c with
  | '"' => ['\\', '"']
  | '\\' => ['\\', '\\']
  | '\n' => ['\\', 'n']
  | '\r' => ['\\', 'r']
  | '\t' => ['\\', 't']
  | '\x08' => ['\\', 'b']
  | '\x0c' => ['\\', 'f']
  | c => if c.toNat < 0x20 then ['\\', 'u'] ++ hex4 c.toNat else [c]

def writtenString (s : String) : List Char := ['"'] ++ s.toList.flatMap escape ++ ['"']

def Number.written : Number → List Char
  | .int n => (toString n).toList
  | .float x => (Decimal.Layout.message.text x).toList

mutual

/-- A value as it is written, without blanks.  In the place of an unreadable one stands `null`. -/
def written : Json → List Char
  | .null | .unreadable => "null".toList
  | .bool b => (if b then "true" else "false").toList
  | .num n => n.written
  | .str s => writtenString s
  | .arr items => ['['] ++ writtenItems items ++ [']']
  | .obj members => ['\x7b'] ++ writtenMembers members ++ ['\x7d']

def writtenItems : List Json → List Char
  | [] => []
  | [v] => written v
  | v :: vs => written v ++ [','] ++ writtenItems vs

def writtenMembers : List Member → List Char
  | [] => []
  | [⟨k, v⟩] => writtenString k ++ [':'] ++ written v
  | ⟨k, v⟩ :: ms => writtenString k ++ [':'] ++ written v ++ [','] ++ writtenMembers ms

end

def text (v : Json) : String := String.ofList v.written

mutual

/-- Nothing in the value is unreadable, and arrays and objects are nested at most `depth` deep. -/
def isReadable (depth : Nat) : Json → Bool
  | .unreadable => false
  | .arr items => 0 < depth && areReadable (depth - 1) items
  | .obj members => 0 < depth && membersReadable (depth - 1) members
  | _ => true

def areReadable (depth : Nat) : List Json → Bool
  | [] => true
  | v :: vs => isReadable depth v && areReadable depth vs

def membersReadable (depth : Nat) : List Member → Bool
  | [] => true
  | ⟨_, v⟩ :: ms => isReadable depth v && membersReadable depth ms

end

end Json

end ChainCalc
