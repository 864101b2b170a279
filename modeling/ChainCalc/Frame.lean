import ChainCalc.Value
/-!
# Frames — the arguments in reach, by function depth

A frame is the activations around an evaluation, innermost first.  A parameter is addressed by the depth of its function
and its place among the parameters.
-/
namespace ChainCalc

/-- The activations in reach, innermost first. -/
abbrev Frame := List Activation

namespace Frame

def root : Frame := []

def enter (f : Frame) (depth : Nat) (args : List Value) : Frame := ⟨depth, args⟩ :: f

/-- Only the activations at most `depth` deep, from the outside of any deeper one. -/
def truncate (f : Frame) (depth : Nat) : Frame := f.dropWhile (fun a => depth < a.depth)

/-- The argument at a depth and place.  The search ends at the first activation that is not deeper. -/
def arg? : Frame → Nat → Nat → Option Value
  | [], _, _ => none
  | ⟨d, args⟩ :: outer, depth, index =>
    if d = depth then args[index]?
    else if d < depth then none
    else arg? outer depth index

end Frame

end ChainCalc
