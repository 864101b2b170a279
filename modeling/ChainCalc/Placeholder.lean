/-!
# Placeholders — names that stand for something to be captured

Nothing but the spelling of a name makes it a placeholder: `_`, `_x` and `_1` stand for one subtree, `__x` and `_x...`
for any number of them.
-/
namespace ChainCalc

inductive Placeholder.Kind where
  | single
  | ellipsis
  deriving DecidableEq, Repr, Inhabited

structure Placeholder where
  name : String
  kind : Placeholder.Kind
  deriving DecidableEq, Repr, Inhabited

namespace Placeholder

def opensWith (opening name : String) : Bool :=
  opening.toList.isPrefixOf name.toList

def closesWith (closing name : String) : Bool :=
  closing.toList.isSuffixOf name.toList

/-- The kind that a spelling asks for: two underscores in front, or three dots behind a name of more than four bytes in
all, make an ellipsis. -/
def kindOf (name : String) : Kind :=
  if opensWith "__" name || (4 < name.utf8ByteSize && closesWith "..." name) then .ellipsis else .single

/-- A name is a placeholder when it starts with an underscore. -/
def classify (name : String) : Option Placeholder :=
  if opensWith "_" name then some ⟨name, kindOf name⟩ else none

def isEllipsis (p : Placeholder) : Bool :=
  p.kind == .ellipsis

theorem name_of_classify {name : String} {p : Placeholder} (h : classify name = some p) : p.name = name := by
  unfold classify at h
  split at h
  · cases h; rfl
  · cases h

end Placeholder

end ChainCalc
