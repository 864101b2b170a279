import ChainCalc.Value
import ChainCalc.Json.Record
/-!
# Messages — what clients ask and servers answer

Each message is a JSON record tagged by `type`.  A value travels as its kind and content; a function only as its name and
the number of arguments it lacks.  A double that is not finite travels as `null`, which cannot be read back.
-/
namespace ChainCalc

inductive Request where
  | run (id : Nat) (source : String)
  | define (name source : String)
  | help (name : String)
  | locality
  deriving DecidableEq, Repr, Inhabited

inductive Payload where
  | nil
  | bool (b : Bool)
  | int (n : Int64)
  | float (x : Float)
  | str (s : String)
  | array (items : List Float)
  | function (name : String) (arity : Nat)
  deriving Inhabited

inductive Reply where
  | result (id : Nat) (value : Payload)
  | defined (name : String)
  | help (name : String) (text : Option String)
  | locality (worker workers : Nat)
  | error (id : Option Nat) (message : String) (backtrace : List String)
  deriving Inhabited

def Payload.ofValue : Value → Payload
  | .nil => .nil
  | .bool b => .bool b
  | .int n => .int n
  | .float x => .float x
  | .str s => .str s
  | .array items => .array items
  | .function f => .function f.definition.name f.arity

def maxNesting : Nat := 127

/-! ### Requests -/

def Request.toJson : Request → Json
  | .run id source => .record [("type", .str "run"), ("id", .nat id), ("source", .str source)]
  | .define name source => .record [("type", .str "define"), ("name", .str name), ("source", .str source)]
  | .help name => .record [("type", .str "help"), ("name", .str name)]
  | .locality => .record [("type", .str "locality")]

def Request.ofJson? (j : Json) : Option Request := do
  if !j.isReadable maxNesting then none
  let (tag, body) ← j.tagged? "type"
  match tag with
  | "run" =>
    match ← body.fields? ["id", "source"] with
    | [some id, some source] => return .run (← id.asNat?) (← source.asString?)
    | _ => none
  | "define" =>
    match ← body.fields? ["name", "source"] with
    | [some name, some source] => return .define (← name.asString?) (← source.asString?)
    | _ => none
  | "help" =>
    match ← body.fields? ["name"] with
    | [some name] => return .help (← name.asString?)
    | _ => none
  | "locality" =>
    let _ ← body.fields? []
    return .locality
  | _ => none

def Request.parse? (source : String) : Option Request := (Json.parse? source).bind Request.ofJson?

/-! ### Values -/

def Payload.toJson : Payload → Json
  | .nil => .record [("kind", .str "nil")]
  | .bool b => .record [("kind", .str "bool"), ("value", .bool b)]
  | .int n => .record [("kind", .str "int"), ("value", .num (.int n.toInt))]
  | .float x => .record [("kind", .str "float"), ("value", .ofFloat x)]
  | .str s => .record [("kind", .str "str"), ("value", .str s)]
  | .array items => .record [("kind", .str "array"), ("value", .arr (items.map .ofFloat))]
  | .function name arity =>
    .record [("kind", .str "function"), ("value", .record [("name", .str name), ("arity", .nat arity)])]

def Payload.kinds : List String := ["nil", "bool", "int", "float", "str", "array", "function"]

/-- A kind under a key: its name, alone or as the only key of an object with nothing under it. -/
def kindByName? : Json → Option String
  | .str kind => some kind
  | .obj [⟨kind, .null⟩] => some kind
  | .obj [⟨kind, .obj []⟩] => some kind
  | _ => none

/-- A kind as the item of an array: its name, or its place in the order of kinds. -/
def kindByPlace? : Json → Option String
  | .str kind => some kind
  | .num (.int n) => if 0 ≤ n then Payload.kinds[n.toNat]? else none
  | _ => none

/-- A kind and its content; as an array, a value has both. -/
def kindAndContent? : Json → Option (String × Option Json)
  | .arr [kind, content] => (kindByPlace? kind).map (fun name => (name, some content))
  | .obj members =>
    match Json.once? "kind" members, Json.once? "value" members with
    | some (some kind), some content => (kindByName? kind).map (fun name => (name, content))
    | _, _ => none
  | _ => none

/-- A value from JSON.  The content of a function goes by names alone. -/
def Payload.ofJson? (j : Json) : Option Payload := do
  match ← kindAndContent? j with
  | ("nil", none) => return .nil
  | ("nil", some .null) => return .nil
  | ("bool", some v) => return .bool (← v.asBool?)
  | ("int", some v) => return .int (← v.asInt?)
  | ("float", some v) => return .float (← v.asFloat?)
  | ("str", some v) => return .str (← v.asString?)
  | ("array", some v) => return .array (← v.asListOf? Json.asFloat?)
  | ("function", some v) =>
    match ← v.namedFields? ["name", "arity"] with
    | [some name, some arity] => return .function (← name.asString?) (← arity.asNat?)
    | _ => none
  | _ => none

/-! ### Replies -/

def Reply.toJson : Reply → Json
  | .result id value => .record [("type", .str "result"), ("id", .nat id), ("value", value.toJson)]
  | .defined name => .record [("type", .str "defined"), ("name", .str name)]
  | .help name text =>
    .record [("type", .str "help"), ("name", .str name), ("text", (text.map Json.str).getD .null)]
  | .locality worker workers =>
    .record [("type", .str "locality"), ("worker", .nat worker), ("workers", .nat workers)]
  | .error id message backtrace =>
    .record ([("type", .str "error")] ++ (id.map (fun i => ("id", Json.nat i))).toList ++
      [("message", .str message), ("backtrace", .strings backtrace)])

def helpText? (body : Json) : Option Json → Option (Option String)
  | some v => v.asOption? Json.asString?
  | none =>
    match body with
    | .obj _ => some none
    | _ => none

def Reply.ofJson? (j : Json) : Option Reply := do
  if !j.isReadable maxNesting then none
  let (tag, body) ← j.tagged? "type"
  match tag with
  | "result" =>
    match ← body.fields? ["id", "value"] with
    | [some id, some value] => return .result (← id.asNat?) (← Payload.ofJson? value)
    | _ => none
  | "defined" =>
    match ← body.fields? ["name"] with
    | [some name] => return .defined (← name.asString?)
    | _ => none
  | "help" =>
    match ← body.fields? ["name", "text"] with
    | [some name, text] => return .help (← name.asString?) (← helpText? body text)
    | _ => none
  | "locality" =>
    match ← body.fields? ["worker", "workers"] with
    | [some worker, some workers] => return .locality (← worker.asNat?) (← workers.asNat?)
    | _ => none
  | "error" =>
    match ← body.fields? ["id", "message", "backtrace"] with
    | [id, some message, backtrace] =>
      return .error (← Json.orDefault none (Json.asOption? Json.asNat?) id) (← message.asString?)
        (← Json.orDefault [] (Json.asListOf? Json.asString?) backtrace)
    | _ => none
  | _ => none

def Reply.parse? (source : String) : Option Reply := (Json.parse? source).bind Reply.ofJson?

end ChainCalc
