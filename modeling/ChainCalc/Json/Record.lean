import ChainCalc.Json.Parser
/-!
# Records in JSON — fields by name or by place

A record may be written as an object, where unknown keys are passed over and a known key may occur once, or as an array
with the fields in order, where only fields at the end may be missing.  A value of several shapes carries the name of its
shape under a tag, or as the first item of an array.
-/
namespace ChainCalc
namespace Json

def asBool? : Json → Option Bool
  | .bool b => some b
  | _ => none

def asString? : Json → Option String
  | .str s => some s
  | _ => none

def asList? : Json → Option (List Json)
  | .arr items => some items
  | _ => none

/-- An integer from zero to below 2 ^ 64; a number with a point or an exponent is none. -/
def asNat? : Json → Option Nat
  | .num (.int n) => if 0 ≤ n ∧ n < Int.pow 2 64 then some n.toNat else none
  | _ => none

def asInt? : Json → Option Int64
  | .num (.int n) => if -Int.pow 2 63 ≤ n ∧ n < Int.pow 2 63 then some (Int64.ofInt n) else none
  | _ => none

/-- A double; it may be written as an integer. -/
def asFloat? : Json → Option Float
  | .num (.int n) => some (Dyadic.nearest (n < 0) n.natAbs 1)
  | .num (.float x) => some x
  | _ => none

def asOption? {α : Type} (f : Json → Option α) : Json → Option (Option α)
  | .null => some none
  | v => (f v).map some

def asListOf? {α : Type} (f : Json → Option α) (v : Json) : Option (List α) :=
  v.asList?.bind (fun items => items.mapM f)

def orDefault {α : Type} (fallback : α) (f : Json → Option α) : Option Json → Option α
  | some v => f v
  | none => some fallback

def once? (key : String) (members : List Member) : Option (Option Json) :=
  match members.filter (fun m => m.key == key) with
  | [] => some none
  | [m] => some (some m.value)
  | _ => none

def namedFields? (names : List String) : Json → Option (List (Option Json))
  | .obj members => names.mapM (fun name => once? name members)
  | _ => none

def fields? (names : List String) : Json → Option (List (Option Json))
  | .obj members => namedFields? names (.obj members)
  | .arr items =>
    if items.length ≤ names.length then some (items.map some ++ List.replicate (names.length - items.length) none)
    else none
  | _ => none

def tagged? (tag : String) : Json → Option (String × Json)
  | .obj members =>
    match once? tag members with
    | some (some (.str name)) => some (name, .obj (members.filter (fun m => m.key != tag)))
    | _ => none
  | .arr (.str name :: items) => some (name, .arr items)
  | _ => none

end Json
end ChainCalc
