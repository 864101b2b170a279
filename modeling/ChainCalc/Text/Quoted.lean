import ChainCalc.Text.Hidden
/-!
# Quoted text — a string shown with its quotes

Quotes, backslashes and the control characters with names of their own are written with a backslash; other characters
that would not show, or would join the one before them, by their number.
-/
namespace ChainCalc
namespace Text

def byNumber (c : Char) : List Char := ['\\', 'u', '\x7b'] ++ Nat.toDigits 16 c.toNat ++ ['\x7d']

def shown (c : Char) : List Char :=
  match c with
  | '\x00' => ['\\', '0']
  | '\t' => ['\\', 't']
  | '\r' => ['\\', 'r']
  | '\n' => ['\\', 'n']
  | '\\' => ['\\', '\\']
  | '"' => ['\\', '"']
  | c => if isHidden c then byNumber c else [c]

def quoted (s : String) : String := String.ofList (['"'] ++ s.toList.flatMap shown ++ ['"'])

def bracketed (items : List String) : String := "[" ++ ", ".intercalate items ++ "]"

end Text
end ChainCalc
