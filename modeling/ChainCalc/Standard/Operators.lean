import ChainCalc.Registry
import ChainCalc.Arithmetic
/-!
# Operators as patterns

Every operator between operands is a pattern of two placeholders around it.  A product followed by a sum has an entry of
its own, tried before the operators.
-/
namespace ChainCalc
namespace Standard

def wrongCount (primitive : String) (expected : Nat) (args : List Value) : Except Fault Value :=
  .error (.internal (.operandCount primitive expected args.length))

def fusedKernel : Kernel
  | [a, b, c] => do
    let product ← Arithmetic.binary .mul a b
    Arithmetic.binary .add product c
  | args => wrongCount "fma" 3 args

def fusedPattern : Pattern :=
  .ofExpr (((Expr.ident "_a").andThen .mul (.ident "_b")).andThen .add (.ident "_c"))

def fusedEntry : Entry where
  name := "fma"
  patterns := [fusedPattern, .ofExpr (.call "fma" [.ident "_a", .ident "_b", .ident "_c"])]
  factory := .ofKernel fusedKernel
  help := "fused multiply-add of scalars or arrays"

def binaryKernel (op : Operator) : Kernel
  | [left, right] => Arithmetic.binary op left right
  | args => wrongCount op.symbol 2 args

def operatorHelp : Operator → String
  | .or | .and => "logical operator on bools"
  | .eq | .ne => "equality; numbers compare by value across int and float"
  | .lt | .le | .gt | .ge => "ordering of numbers or strings"
  | .add => "addition; concatenates strings"
  | .div => "float division"
  | _ => "arithmetic, elementwise on arrays"

def binaryEntry (op : Operator) : Entry where
  name := op.symbol
  patterns := [.ofExpr (.binary (.ident "_1") op (.ident "_2"))]
  factory := .ofKernel (binaryKernel op)
  help := operatorHelp op

def negateKernel : Kernel
  | [v] => Arithmetic.negate v
  | args => wrongCount "neg" 1 args

def negateEntry : Entry where
  name := "neg"
  patterns := [.ofExpr (.unary .sub (.ident "_1"))]
  factory := .ofKernel negateKernel
  help := "numeric negation, elementwise on arrays"

def complementKernel : Kernel
  | [v] => Arithmetic.complement v
  | args => wrongCount "not" 1 args

def complementEntry : Entry where
  name := "not"
  patterns := [.ofExpr (.unary .not (.ident "_1"))]
  factory := .ofKernel complementKernel
  help := "logical negation"

def operators : List Entry := Operator.binary.map binaryEntry ++ [negateEntry, complementEntry]

end Standard
end ChainCalc
