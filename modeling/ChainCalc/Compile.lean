import ChainCalc.Registry
import ChainCalc.Workspace
import ChainCalc.Expr.Regroup
/-!
# Compilation — expressions to nodes

A name means its binding in the environment before it means a pattern.  A call is a special form (`define`, `lambda`,
`block`), else a call of what its name is bound to, else a matter of the registry.  Chains and operators in front of
operands always go to the registry; a chain that no pattern accepts is regrouped once and tried again.

A definition takes effect as soon as it is compiled.  A unit that fails takes all its definitions back, so that it binds
all of its names or none (`compileUnit`).

A registry may send the compiler round in circles, so it counts nested steps down, as evaluation does.
-/
namespace ChainCalc

/-- A compilation: it works on a workspace, which it leaves behind also when it fails; it has no answer where the steps
ran out. -/
abbrev CompileM := ExceptT CompileError (StateT Workspace Option)

namespace CompileM

def outOfSteps {α : Type} : CompileM α := ExceptT.mk (fun _ => none)

def update {α : Type} (f : Workspace → α × Workspace) : CompileM α :=
  ExceptT.mk (fun w => let (a, w) := f w; some (.ok a, w))

def view {α : Type} (f : Workspace → α) : CompileM α := update (fun w => (f w, w))

def settled {α : Type} (r : Except CompileError α) : CompileM α := ExceptT.mk (fun w => some (r, w))

def fail {α : Type} (e : CompileError) : CompileM α := settled (.error e)

def onError {α : Type} (x : CompileM α) (cleanup : Workspace → Workspace) : CompileM α :=
  ExceptT.mk (fun w =>
    match x.run w with
    | some (.error e, w) => some (.error e, cleanup w)
    | r => r)

end CompileM

open CompileM

inductive Statement where
  | defined (name : String)
  | expr (node : Node)

def defineForm : Expr := .call "define" [.ident "_name", .ident "_value"]

def lambdaForm : Expr := .call "lambda" [.ident "__params"]

def blockForm : Expr := .call "block" [.ident "__statements"]

def Literal.value : Literal → Value
  | .bool b => .bool b
  | .int n => .int n
  | .float x => .float x
  | .str s => .str s

def Expr.isDefine (e : Expr) : Bool := e.asCall?.map Prod.fst == some "define"

def paramNames (problem : FormProblem) (whole : Expr) (args : List Expr) : CompileM (List String) :=
  match args.mapM Expr.asIdent? with
  | some names => pure names
  | none => fail (.invalidForm problem whole.text)

def formCaptures (form candidate : Expr) : CompileM Captures :=
  match form.captures? candidate with
  | some c => pure c
  | none => fail (.formMismatch form.text candidate.text)

def formCapture (c : Captures) (placeholder : String) : CompileM Expr :=
  match (c.of placeholder).head? with
  | some e => pure e
  | none => fail (.formUnbound placeholder)

section

variable (registry : Registry) (sub : Expr → Env → CompileM Node)

def compileAll (es : List Expr) (env : Env) : CompileM (List Node) := es.mapM (fun e => sub e env)

def compileCaptures (c : Captures) (env : Env) : CompileM (Table (List Node)) := do
  let groups ← c.entries.mapM (fun (name, es) => do
    let nodes ← compileAll sub es env
    pure (name, nodes))
  pure (.ofList groups)

def fromRegistry (candidate : Expr) (env : Env) : CompileM (Option Node) :=
  match registry.find? candidate with
  | none => pure none
  | some (entry, captures) => do
    let nodes ← compileCaptures sub captures env
    let node ← settled (entry.factory ⟨entry.name, nodes⟩ entry.name candidate.text)
    pure (some node)

def fromRegistryOr (candidate : Expr) (env : Env) (error : CompileError) : CompileM Node := do
  match ← fromRegistry registry sub candidate env with
  | some node => pure node
  | none => fail error

def compileBody (body : Expr) (scope : Env) (d : Definition) : CompileM Node := do
  let node ← sub body scope
  update (fun w => ((), w.setBody d node))
  pure node

/-- A definition: binds a name in the environment, and gives the name and what it was bound to before.  A function is
bound before its body is compiled, so that the body can call it. -/
def compileDefine (e : Expr) (env : Env) : CompileM (String × Option Binding) := do
  match defineForm.captures? e with
  | none => fail (.invalidForm .defineShape e.text)
  | some captures =>
    let target ← formCapture captures "_name"
    let value ← formCapture captures "_value"
    match target.asIdent?, target.asCall? with
    | some name, _ =>
      let node ← sub value env
      let previous ← update (fun w => w.define env name (.value node))
      pure (name, previous)
    | none, none => fail (.invalidForm .defineTarget e.text)
    | none, some (name, args) =>
      let params ← paramNames .defineParams e args
      let scope ← update (fun w => w.functionEnv env params)
      let d ← update (fun w => w.declare name params scope.depth)
      let previous ← update (fun w => w.define env name (.function d))
      let _ ← onError (compileBody sub value scope d) (fun w => w.restore env name previous)
      pure (name, previous)

def compileStatement (e : Expr) (env : Env) : CompileM Statement := do
  if e.isDefine then
    let (name, _) ← compileDefine sub e env
    pure (.defined name)
  else
    let node ← sub e env
    pure (.expr node)

/-- A function without a name; its last argument is the body. -/
def compileLambda (args : List Expr) (e : Expr) (env : Env) : CompileM Node :=
  match args.getLast? with
  | none => fail (.invalidForm .lambdaBody e.text)
  | some body => do
    let params ← paramNames .lambdaParams e args.dropLast
    let scope ← update (fun w => w.functionEnv env params)
    let node ← sub body scope
    let d ← update (fun w => w.declare "lambda" params scope.depth)
    update (fun w => ((), w.setBody d node))
    pure (.lambda d (some node))

def compileStatements (env : Env) : List Expr → Bool → CompileM (List Node × Bool)
  | [], endsInExpr => pure ([], endsInExpr)
  | s :: rest, _ => do
    match ← compileStatement sub s env with
    | .defined _ => compileStatements env rest false
    | .expr node =>
      let (nodes, endsInExpr) ← compileStatements env rest true
      pure (node :: nodes, endsInExpr)

def compileBlock (statements : List Expr) (e : Expr) (env : Env) : CompileM Node := do
  let scope ← update (fun w => w.childEnv env)
  let (nodes, endsInExpr) ← compileStatements sub scope statements false
  if endsInExpr then pure (.sequence e.text nodes) else fail (.invalidForm .blockEnd e.text)

/-- A name: its binding, or else a pattern.  A placeholder that is not bound is no pattern. -/
def compileName (name : String) (e : Expr) (env : Env) : CompileM Node := do
  match ← view (fun w => w.lookup env name) with
  | some (.value node) => pure node
  | some (.param depth index) => pure (.param name depth index)
  | some (.function _) => pure (.functionRef name env)
  | none =>
    if (Placeholder.classify name).isSome then fail (.unbound name e.text)
    else fromRegistryOr registry sub e env (.unbound name e.text)

def compileBoundCall (name : String) (args : List Expr) (e : Expr) (env : Env) : CompileM Node := do
  match ← view (fun w => w.lookup env name) with
  | some (.function _) =>
    let nodes ← compileAll sub args env
    pure (.invoke name e.text env nodes)
  | some (.value callee) =>
    let nodes ← compileAll sub args env
    pure (.apply e.text callee nodes)
  | some (.param depth index) =>
    let nodes ← compileAll sub args env
    pure (.apply e.text (.param name depth index) nodes)
  | none =>
    let error := if registry.isCallName name then .noMatchingPattern e.text else .unbound name e.text
    fromRegistryOr registry sub e env error

def compileCall (name : String) (args : List Expr) (e : Expr) (env : Env) : CompileM Node := do
  if name == "define" then fail (.invalidForm .nestedDefine e.text)
  else if name == "lambda" then
    let captures ← formCaptures lambdaForm e
    compileLambda sub (captures.of "__params") e env
  else if name == "block" then
    let captures ← formCaptures blockForm e
    compileBlock sub (captures.of "__statements") e env
  else compileBoundCall registry sub name args e env

def compileOperand (x : Operand) (e : Expr) (env : Env) : CompileM Node :=
  match x with
  | .lit value => pure (.constant value.value)
  | .ident name => compileName registry sub name e env
  | .call name args => compileCall registry sub name args e env
  | .paren inner => sub inner env
  | .unary _ _ => fromRegistryOr registry sub e env (.noMatchingPattern e.text)

def compileChain (e : Expr) (env : Env) : CompileM Node := do
  match ← fromRegistry registry sub e env with
  | some node => pure node
  | none =>
    match e.regroup? with
    | none => fail (.noMatchingPattern e.text)
    | some grouped => fromRegistryOr registry sub grouped env (.noMatchingPattern e.text)

def compileStep (e : Expr) (env : Env) : CompileM Node :=
  if e.bare.isChain then compileChain registry sub e.bare env
  else compileOperand registry sub e.bare.first e.bare env

end

/-- **The node of an expression**, in at most `n` nested steps. -/
def compile (registry : Registry) : Nat → Expr → Env → CompileM Node
  | 0 => fun _ _ => outOfSteps
  | n + 1 => compileStep registry (compile registry n)

def statement (registry : Registry) (n : Nat) (e : Expr) (env : Env) : CompileM Statement :=
  compileStatement (compile registry n) e env

def rollback (env : Env) (undo : List (String × Option Binding)) (w : Workspace) : Workspace :=
  undo.foldl (fun w (name, previous) => w.restore env name previous) w

/-- The nodes of the statements of a unit.  `undo` has what was defined so far, the latest first; a failure takes it
back. -/
def unitNodes (registry : Registry) (n : Nat) (env : Env) :
    List Expr → List (String × Option Binding) → CompileM (List Node)
  | [], _ => pure []
  | s :: rest, undo => do
    if s.isDefine then
      let defined ← onError (compileDefine (compile registry n) s env) (rollback env undo)
      unitNodes registry n env rest (defined :: undo)
    else
      let node ← onError (compile registry n s env) (rollback env undo)
      let nodes ← unitNodes registry n env rest undo
      pure (node :: nodes)

/-- **A unit of statements compiled** to a function without parameters that yields the value of the last expression.  A
unit that fails leaves no definition behind. -/
def compileUnit (registry : Registry) (n : Nat) (statements : List Expr) (env : Env) : CompileM Closure := do
  let nodes ← unitNodes registry n env statements []
  let d ← update (fun w => w.declare "main" [] (env.depth + 1))
  update (fun w => ((), w.setBody d (.sequence "main" nodes)))
  pure ⟨d, [], []⟩

end ChainCalc
