/-!
# Compile errors — why source was refused after it could be read
-/
namespace ChainCalc

inductive FormProblem where
  | nestedDefine
  | defineShape
  | defineTarget
  | defineParams
  | lambdaParams
  | lambdaBody
  | blockEnd
  deriving DecidableEq, Repr, Inhabited

def FormProblem.form : FormProblem → String
  | .nestedDefine | .defineShape | .defineTarget | .defineParams => "define"
  | .lambdaParams | .lambdaBody => "lambda"
  | .blockEnd => "block"

def FormProblem.reason : FormProblem → String
  | .nestedDefine => "definitions are only allowed at top level or directly inside block"
  | .defineShape => "expected define(name, value) or define(name(params...), body)"
  | .defineTarget => "the name must be an identifier or a call signature"
  | .defineParams | .lambdaParams => "parameters must be identifiers"
  | .lambdaBody => "missing body"
  | .blockEnd => "the last statement must be an expression"

/-- Why an expression could not be compiled.  A fragment is the text of the expression at fault. -/
inductive CompileError where
  | noMatchingPattern (fragment : String)
  | unbound (name fragment : String)
  | invalidForm (problem : FormProblem) (fragment : String)
  | missingBinding (primitive placeholder : String)
  | formMismatch (form fragment : String)
  | formUnbound (placeholder : String)
  deriving DecidableEq, Repr, Inhabited

def CompileError.text : CompileError → String
  | .noMatchingPattern fragment => "no pattern matches `" ++ fragment ++ "`"
  | .unbound name fragment => "unbound name '" ++ name ++ "' in `" ++ fragment ++ "`"
  | .invalidForm problem fragment =>
    "invalid " ++ problem.form ++ ": " ++ problem.reason ++ " in `" ++ fragment ++ "`"
  | .missingBinding primitive placeholder => primitive ++ ": pattern did not bind " ++ placeholder
  | .formMismatch form fragment =>
    "internal compiler error: special form `" ++ form ++ "` did not match `" ++ fragment ++ "`"
  | .formUnbound placeholder => "internal compiler error: special form did not bind " ++ placeholder

end ChainCalc
