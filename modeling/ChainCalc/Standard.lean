import ChainCalc.Standard.Control
import ChainCalc.Standard.Operators
import ChainCalc.Standard.Arrays
import ChainCalc.Standard.Workers
/-!
# The standard registry

Control comes first, then the fused product and sum, the operators, arrays, the constant `pi`, and workers.
-/
namespace ChainCalc

def Standard.piEntry : Entry where
  name := "pi"
  patterns := [.ofExpr (.ident "pi")]
  factory := fun _ _ _ => .ok (.constant (.float (Float.ofBits 0x400921FB54442D18)))
  help := "the constant π"

def Registry.standard : Registry :=
  ⟨Standard.control ++ [Standard.fusedEntry] ++ Standard.operators ++ Standard.arrays ++ [Standard.piEntry] ++
    Standard.workers⟩

end ChainCalc
