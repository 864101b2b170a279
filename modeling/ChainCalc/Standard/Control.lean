import ChainCalc.Registry
/-!
# Control — choosing a branch, and failing on purpose
-/
namespace ChainCalc
namespace Standard

def ifEntry : Entry where
  name := "if"
  patterns := [.ofExpr (.call "if" [.ident "_cond", .ident "_then", .ident "_else"])]
  factory := fun bound _ label => do
    return .conditional label (← bound.one "_cond") (← bound.one "_then") (← bound.one "_else")
  help := "evaluate _then when _cond is true, otherwise _else; the other branch never runs"

def raiseKernel : Kernel := fun args =>
  .error (.raised ((args.head?.map Value.text).getD ""))

def errorEntry : Entry where
  name := "error"
  patterns := [.ofExpr (.call "error" [.ident "_message"])]
  factory := .ofKernel raiseKernel
  help := "fail the evaluation with _message"

def control : List Entry := [ifEntry, errorEntry]

end Standard
end ChainCalc
