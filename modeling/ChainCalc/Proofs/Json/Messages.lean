import ChainCalc.Server
import ChainCalc.Proofs.Json.Writing
/-!
# Messages that are read back — all but doubles that are not finite

Every request is read back from its text.  A reply is, exactly when all doubles in it are finite: one that is not travels
as `null`, and a reader that expects a number refuses that.
-/
namespace ChainCalc

open Json (Travels)

namespace Json

deriving instance DecidableEq for Number

instance (n : Number) : Decidable n.ReadsBack := inferInstanceAs (Decidable (number n.written = some (some n, [])))

/-! ### What travels -/

theorem travels_nat {n : Nat} (h : n < 2 ^ 64) : Travels (.nat n) := by
  refine .num (readsBack_int ⟨?_, ?_⟩)
  · exact le_trans (by decide) (Int.natCast_nonneg n)
  · exact Int.ofNat_lt.mpr h

theorem travels_int (n : Int64) : Travels (.num (.int n.toInt)) := by
  refine .num (readsBack_int ⟨n.le_toInt, ?_⟩)
  exact lt_of_lt_of_le n.toInt_lt (by decide)

theorem travels_record {members : List (String × Json)} (h : ∀ kv ∈ members, Travels kv.2) : Travels (.record members) := by
  refine .obj fun m hm => ?_
  obtain ⟨kv, hkv, rfl⟩ := List.mem_map.mp hm
  exact h kv hkv

theorem travels_strings (items : List String) : Travels (.strings items) := by
  refine .arr fun v hv => ?_
  obtain ⟨s, -, rfl⟩ := List.mem_map.mp hv
  exact .str s

/-- A double travels if it is read back from its digits; one that is not finite has none. -/
theorem travels_ofFloat {x : Float} (h : x.isFinite = true → Number.ReadsBack (.float x)) : Travels (.ofFloat x) := by
  unfold ofFloat
  split
  · rename_i parts
    exact .num (h ((Dyadic.isFinite_iff x).mpr ⟨_, _, _, parts⟩))
  · exact .null

/-! ### What the fields of a record hold -/

theorem asNat?_nat {n : Nat} (h : n < 2 ^ 64) : (Json.nat n).asNat? = some n := by
  have : (0 : Int) ≤ n ∧ (n : Int) < Int.pow 2 64 := ⟨Int.natCast_nonneg n, Int.ofNat_lt.mpr h⟩
  simp only [nat, asNat?, if_pos this, Int.toNat_natCast]

theorem asOption?_nat {α : Type} (f : Json → Option α) (n : Nat) : (Json.nat n).asOption? f = (f (.nat n)).map some := rfl

theorem asInt?_toInt (n : Int64) : (Json.num (.int n.toInt)).asInt? = some n := by
  have : -Int.pow 2 63 ≤ n.toInt ∧ n.toInt < Int.pow 2 63 := ⟨n.le_toInt, n.toInt_lt⟩
  simp only [asInt?, if_pos this, Int64.ofInt_toInt]

/-- **A double is read back from its field exactly when it is finite.** -/
theorem asFloat?_ofFloat (x : Float) : (Json.ofFloat x).asFloat? = if x.isFinite then some x else none := by
  unfold ofFloat
  split
  · rename_i parts
    rw [if_pos ((Dyadic.isFinite_iff x).mpr ⟨_, _, _, parts⟩)]
    rfl
  · rename_i other
    rw [if_neg]
    · rfl
    · intro finite
      obtain ⟨negative, m, q, parts⟩ := (Dyadic.isFinite_iff x).mp finite
      exact other negative m q parts

theorem asListOf?_ofFloat (items : List Float) :
    (Json.arr (items.map .ofFloat)).asListOf? asFloat? = if items.all Float.isFinite then some items else none := by
  change (items.map Json.ofFloat).mapM asFloat? = _
  induction items with
  | nil => rfl
  | cons x items ih =>
    rw [List.map_cons, List.mapM_cons, ih, asFloat?_ofFloat, List.all_cons]
    cases x.isFinite with
    | false => rfl
    | true => cases items.all Float.isFinite <;> rfl

theorem asListOf?_strings (items : List String) : (Json.strings items).asListOf? asString? = some items := by
  change (items.map Json.str).mapM asString? = _
  induction items with
  | nil => rfl
  | cons s items ih =>
    rw [List.map_cons, List.mapM_cons, ih]
    rfl

theorem key_ne {members : List (String × Json)} {key : String} (fresh : key ∉ members.map Prod.fst) :
    ∀ m ∈ members.map (fun (k, v) => (⟨k, v⟩ : Member)), m.key ≠ key := by
  rintro m hm rfl
  obtain ⟨kv, hkv, rfl⟩ := List.mem_map.mp hm
  exact fresh (List.mem_map.mpr ⟨kv, hkv, rfl⟩)

theorem once?_head {members : List (String × Json)} {key : String} (fresh : key ∉ members.map Prod.fst) (v : Json) :
    once? key (⟨key, v⟩ :: members.map (fun (k, v) => ⟨k, v⟩)) = some (some v) := by
  have none_left : (members.map (fun (k, v) => (⟨k, v⟩ : Member))).filter (fun m => m.key == key) = [] := by
    rw [List.filter_eq_nil_iff]
    exact fun m hm same => key_ne fresh m hm (eq_of_beq same)
  simp [once?, none_left]

theorem once?_record {members : List (String × Json)} (nodup : (members.map Prod.fst).Nodup) (key : String) :
    once? key (members.map (fun (k, v) => ⟨k, v⟩)) = some (members.lookup key) := by
  induction members with
  | nil => rfl
  | cons kv members ih =>
    obtain ⟨k, v⟩ := kv
    obtain ⟨fresh, nodup⟩ := List.nodup_cons.mp nodup
    by_cases found : k = key
    · subst found
      rw [List.lookup_cons_self]
      exact once?_head fresh v
    · have other : (key == k) = false := by simpa using Ne.symm found
      rw [List.lookup_cons, other, ← ih nodup]
      simp [once?, found]

theorem namedFields?_record {members : List (String × Json)} (nodup : (members.map Prod.fst).Nodup) (names : List String) :
    (record members).namedFields? names = some (names.map (fun name => members.lookup name)) := by
  simp only [record, namedFields?, once?_record nodup]
  exact List.mapM_pure

theorem fields?_record {members : List (String × Json)} (nodup : (members.map Prod.fst).Nodup) (names : List String) :
    (record members).fields? names = some (names.map (fun name => members.lookup name)) :=
  namedFields?_record nodup names

theorem tagged?_record {tag : String} {members : List (String × Json)} (fresh : tag ∉ members.map Prod.fst) (name : String) :
    (record ((tag, .str name) :: members)).tagged? tag = some (name, record members) := by
  have others : (members.map (fun (k, v) => (⟨k, v⟩ : Member))).filter (fun m => m.key != tag) =
      members.map (fun (k, v) => ⟨k, v⟩) := by
    rw [List.filter_eq_self]
    exact fun m hm => bne_iff_ne.mpr (key_ne fresh m hm)
  simp only [tagged?, record, List.map_cons, once?_head fresh]
  simp [others]

/-! ### How deep messages are nested -/

theorem isReadable_record (n : Nat) (members : List (String × Json)) :
    (record members).isReadable (n + 1) = members.all (fun kv => kv.2.isReadable n) := by
  have each : ∀ members : List (String × Json),
      membersReadable n (members.map (fun (k, v) => ⟨k, v⟩)) = members.all (fun kv => kv.2.isReadable n) := by
    intro members
    induction members with
    | nil => simp [membersReadable]
    | cons kv members ih => simp [membersReadable, ih]
  simp [record, isReadable, each]

theorem isReadable_arr (n : Nat) (items : List Json) :
    (Json.arr items).isReadable (n + 1) = items.all (fun v => v.isReadable n) := by
  have each : ∀ items : List Json, areReadable n items = items.all (fun v => v.isReadable n) := by
    intro items
    induction items with
    | nil => simp [areReadable]
    | cons v items ih => simp [areReadable, ih]
  simp [isReadable, each]

theorem isReadable_ofFloat (n : Nat) (x : Float) : (Json.ofFloat x).isReadable n = true := by
  unfold ofFloat
  split <;> simp [isReadable]

end Json

/-! ### Requests -/

def Request.Fits : Request → Prop
  | .run id _ => id < 2 ^ 64
  | _ => True

theorem Request.travels {r : Request} (fits : r.Fits) : Travels r.toJson := by
  cases r with
  | run id source => exact Json.travels_record (by simpa [Travels.str] using Json.travels_nat fits)
  | define name source => exact Json.travels_record (by simp [Travels.str])
  | help name => exact Json.travels_record (by simp [Travels.str])
  | locality => exact Json.travels_record (by simp [Travels.str])

theorem Request.isReadable_toJson (r : Request) (n : Nat) : r.toJson.isReadable (n + 1) = true := by
  cases r <;> simp [Request.toJson, Json.isReadable_record, Json.nat, Json.isReadable]

def Request.ofTagged? (tag : String) (body : Json) : Option Request :=
  match tag with
  | "run" => do
    match ← body.fields? ["id", "source"] with
    | [some id, some source] => return .run (← id.asNat?) (← source.asString?)
    | _ => none
  | "define" => do
    match ← body.fields? ["name", "source"] with
    | [some name, some source] => return .define (← name.asString?) (← source.asString?)
    | _ => none
  | "help" => do
    match ← body.fields? ["name"] with
    | [some name] => return .help (← name.asString?)
    | _ => none
  | "locality" => do
    let _ ← body.fields? []
    return .locality
  | _ => none

theorem Request.ofJson?_tagged {j body : Json} {tag : String} (nesting : j.isReadable maxNesting = true)
    (tagged : j.tagged? "type" = some (tag, body)) : Request.ofJson? j = Request.ofTagged? tag body := by
  unfold Request.ofJson?
  rw [nesting, tagged]
  rfl

-- Shapes are taken apart for any body: with a whole record in its place the kernel would have to unfold that.
section Shapes

variable {body a b : Json}

theorem Request.ofTagged?_run (fields : body.fields? ["id", "source"] = some [some a, some b]) :
    Request.ofTagged? "run" body = a.asNat?.bind fun id => b.asString?.bind fun source => some (.run id source) := by
  unfold Request.ofTagged?
  simp only [fields]
  rfl

theorem Request.ofTagged?_define (fields : body.fields? ["name", "source"] = some [some a, some b]) :
    Request.ofTagged? "define" body =
      a.asString?.bind fun name => b.asString?.bind fun source => some (.define name source) := by
  unfold Request.ofTagged?
  simp only [fields]
  rfl

theorem Request.ofTagged?_help (fields : body.fields? ["name"] = some [some a]) :
    Request.ofTagged? "help" body = a.asString?.bind fun name => some (.help name) := by
  unfold Request.ofTagged?
  simp only [fields]
  rfl

end Shapes

theorem Request.ofJson?_toJson {r : Request} (fits : r.Fits) : Request.ofJson? r.toJson = some r := by
  have nesting : r.toJson.isReadable maxNesting = true := r.isReadable_toJson 126
  cases r with
  | run id source =>
    rw [Request.ofJson?_tagged nesting (Json.tagged?_record (by simp) "run"),
      Request.ofTagged?_run (Json.fields?_record (by simp) _), Json.asNat?_nat fits]
    rfl
  | define name source =>
    rw [Request.ofJson?_tagged nesting (Json.tagged?_record (by simp) "define"),
      Request.ofTagged?_define (Json.fields?_record (by simp) _)]
    rfl
  | help name =>
    rw [Request.ofJson?_tagged nesting (Json.tagged?_record (by simp) "help"),
      Request.ofTagged?_help (Json.fields?_record (by simp) _)]
    rfl
  | locality =>
    rw [Request.ofJson?_tagged nesting (Json.tagged?_record (by simp) "locality")]
    rfl

/-! ### Replies -/

def Payload.Fits : Payload → Prop
  | .function _ arity => arity < 2 ^ 64
  | _ => True

def Payload.doubles : Payload → List Float
  | .float x => [x]
  | .array items => items
  | _ => []

theorem Payload.travels {p : Payload} (fits : p.Fits)
    (digits : ∀ x ∈ p.doubles, x.isFinite = true → Json.Number.ReadsBack (.float x)) : Travels p.toJson := by
  cases p with
  | nil => exact Json.travels_record (by simp [Travels.str])
  | bool b => exact Json.travels_record (by simp [Travels.str, Travels.bool])
  | int n => exact Json.travels_record (by simpa [Travels.str] using Json.travels_int n)
  | float x =>
    exact Json.travels_record (by simpa [Travels.str] using Json.travels_ofFloat (digits x (by simp [Payload.doubles])))
  | str s => exact Json.travels_record (by simp [Travels.str])
  | array items =>
    have each : Travels (.arr (items.map .ofFloat)) := by
      refine .arr fun v hv => ?_
      obtain ⟨x, hx, rfl⟩ := List.mem_map.mp hv
      exact Json.travels_ofFloat (digits x hx)
    exact Json.travels_record (by simpa [Travels.str] using each)
  | function name arity =>
    have shape : Travels (.record [("name", .str name), ("arity", .nat arity)]) :=
      Json.travels_record (by simpa [Travels.str] using Json.travels_nat fits)
    exact Json.travels_record (by simpa [Travels.str] using shape)

theorem Payload.isReadable_toJson (p : Payload) (n : Nat) : p.toJson.isReadable (n + 2) = true := by
  cases p with
  | array items =>
    have each : (Json.arr (items.map .ofFloat)).isReadable (n + 1) = true := by
      simp [Json.isReadable_arr, Json.isReadable_ofFloat]
    simp only [Payload.toJson, Json.isReadable_record, List.all_cons, List.all_nil, each]
    simp [Json.isReadable]
  | _ => simp [Payload.toJson, Json.isReadable_record, Json.isReadable_ofFloat, Json.nat, Json.isReadable]

theorem kindAndContent?_kind (kind : String) : kindAndContent? (.record [("kind", .str kind)]) = some (kind, none) := by
  simp [kindAndContent?, Json.record, Json.once?, kindByName?]

theorem kindAndContent?_record (kind : String) (content : Json) :
    kindAndContent? (.record [("kind", .str kind), ("value", content)]) = some (kind, some content) := by
  simp [kindAndContent?, Json.record, Json.once?, kindByName?]

theorem Payload.ofJson?_function {j content a b : Json} (kind : kindAndContent? j = some ("function", some content))
    (fields : content.namedFields? ["name", "arity"] = some [some a, some b]) :
    Payload.ofJson? j = a.asString?.bind fun name => b.asNat?.bind fun arity => some (.function name arity) := by
  unfold Payload.ofJson?
  simp only [kind, Option.bind_eq_bind, Option.bind_some, fields]
  rfl

/-- **A value is read back exactly when all doubles in it are finite.** -/
theorem Payload.ofJson?_toJson {p : Payload} (fits : p.Fits) :
    Payload.ofJson? p.toJson = if p.doubles.all Float.isFinite then some p else none := by
  cases p with
  | nil =>
    simp only [Payload.ofJson?, Payload.toJson, kindAndContent?_kind]
    rfl
  | bool b =>
    simp only [Payload.ofJson?, Payload.toJson, kindAndContent?_record]
    rfl
  | int n =>
    simp only [Payload.ofJson?, Payload.toJson, kindAndContent?_record, Option.bind_eq_bind, Option.bind_some,
      Json.asInt?_toInt]
    rfl
  | float x =>
    simp only [Payload.ofJson?, Payload.toJson, kindAndContent?_record, Option.bind_eq_bind, Option.bind_some,
      Json.asFloat?_ofFloat, Payload.doubles, List.all_cons, List.all_nil, Bool.and_true]
    split_ifs <;> rfl
  | str s =>
    simp only [Payload.ofJson?, Payload.toJson, kindAndContent?_record]
    rfl
  | array items =>
    change Payload.ofJson? (Payload.array items).toJson =
      if items.all Float.isFinite then some (Payload.array items) else none
    simp only [Payload.ofJson?, Payload.toJson, kindAndContent?_record, Option.bind_eq_bind, Option.bind_some,
      Json.asListOf?_ofFloat]
    by_cases finite : items.all Float.isFinite = true
    · rw [if_pos finite, if_pos finite]
      rfl
    · rw [if_neg finite, if_neg finite]
      rfl
  | function name arity =>
    have parts := Payload.ofJson?_function (kindAndContent?_record "function" (.record [("name", .str name),
      ("arity", .nat arity)])) (Json.namedFields?_record (by simp) _)
    rw [Json.asNat?_nat fits] at parts
    exact parts

def Reply.Fits : Reply → Prop
  | .result id value => id < 2 ^ 64 ∧ value.Fits
  | .locality worker workers => worker < 2 ^ 64 ∧ workers < 2 ^ 64
  | .error id _ _ => ∀ i ∈ id, i < 2 ^ 64
  | _ => True

def Reply.doubles : Reply → List Float
  | .result _ value => value.doubles
  | _ => []

theorem Reply.travels {r : Reply} (fits : r.Fits)
    (digits : ∀ x ∈ r.doubles, x.isFinite = true → Json.Number.ReadsBack (.float x)) : Travels r.toJson := by
  cases r with
  | result id value =>
    have number := Json.travels_nat fits.1
    have content := Payload.travels fits.2 digits
    exact Json.travels_record (by simp [Travels.str, number, content])
  | defined name => exact Json.travels_record (by simp [Travels.str])
  | help name text => exact Json.travels_record (by cases text <;> simp [Travels.str, Travels.null])
  | locality worker workers =>
    exact Json.travels_record (by simp [Travels.str, Json.travels_nat fits.1, Json.travels_nat fits.2])
  | error id message backtrace =>
    have lines := Json.travels_strings backtrace
    cases id with
    | none => exact Json.travels_record (by simp [Travels.str, lines])
    | some i => exact Json.travels_record (by simp [Travels.str, lines, Json.travels_nat (fits i rfl)])

theorem Reply.isReadable_toJson (r : Reply) (n : Nat) : r.toJson.isReadable (n + 3) = true := by
  cases r with
  | result id value =>
    simp only [Reply.toJson, Json.isReadable_record, List.all_cons, List.all_nil, value.isReadable_toJson n]
    simp [Json.isReadable, Json.nat]
  | help name text => cases text <;> simp [Reply.toJson, Json.isReadable_record, Json.isReadable]
  | error id message backtrace =>
    have lines : (Json.strings backtrace).isReadable (n + 2) = true := by
      simp [Json.strings, Json.isReadable_arr, Json.isReadable]
    cases id <;> simp [Reply.toJson, Json.isReadable_record, lines, Json.isReadable, Json.nat]
  | _ => simp [Reply.toJson, Json.isReadable_record, Json.isReadable, Json.nat]

def Reply.ofTagged? (tag : String) (body : Json) : Option Reply :=
  match tag with
  | "result" => do
    match ← body.fields? ["id", "value"] with
    | [some id, some value] => return .result (← id.asNat?) (← Payload.ofJson? value)
    | _ => none
  | "defined" => do
    match ← body.fields? ["name"] with
    | [some name] => return .defined (← name.asString?)
    | _ => none
  | "help" => do
    match ← body.fields? ["name", "text"] with
    | [some name, text] => return .help (← name.asString?) (← helpText? body text)
    | _ => none
  | "locality" => do
    match ← body.fields? ["worker", "workers"] with
    | [some worker, some workers] => return .locality (← worker.asNat?) (← workers.asNat?)
    | _ => none
  | "error" => do
    match ← body.fields? ["id", "message", "backtrace"] with
    | [id, some message, backtrace] =>
      return .error (← Json.orDefault none (Json.asOption? Json.asNat?) id) (← message.asString?)
        (← Json.orDefault [] (Json.asListOf? Json.asString?) backtrace)
    | _ => none
  | _ => none

theorem Reply.ofJson?_tagged {j body : Json} {tag : String} (nesting : j.isReadable maxNesting = true)
    (tagged : j.tagged? "type" = some (tag, body)) : Reply.ofJson? j = Reply.ofTagged? tag body := by
  unfold Reply.ofJson?
  rw [nesting, tagged]
  rfl

section Shapes

variable {body a b c : Json}

theorem Reply.ofTagged?_result (fields : body.fields? ["id", "value"] = some [some a, some b]) :
    Reply.ofTagged? "result" body = a.asNat?.bind fun id => (Payload.ofJson? b).bind fun p => some (.result id p) := by
  unfold Reply.ofTagged?
  simp only [fields]
  rfl

theorem Reply.ofTagged?_defined (fields : body.fields? ["name"] = some [some a]) :
    Reply.ofTagged? "defined" body = a.asString?.bind fun name => some (.defined name) := by
  unfold Reply.ofTagged?
  simp only [fields]
  rfl

theorem Reply.ofTagged?_help (fields : body.fields? ["name", "text"] = some [some a, some b]) :
    Reply.ofTagged? "help" body =
      a.asString?.bind fun name => (b.asOption? Json.asString?).bind fun text => some (.help name text) := by
  unfold Reply.ofTagged?
  simp only [fields]
  rfl

theorem Reply.ofTagged?_locality (fields : body.fields? ["worker", "workers"] = some [some a, some b]) :
    Reply.ofTagged? "locality" body =
      a.asNat?.bind fun worker => b.asNat?.bind fun workers => some (.locality worker workers) := by
  unfold Reply.ofTagged?
  simp only [fields]
  rfl

theorem Reply.ofTagged?_error {id : Option Json}
    (fields : body.fields? ["id", "message", "backtrace"] = some [id, some b, some c]) :
    Reply.ofTagged? "error" body =
      (Json.orDefault none (Json.asOption? Json.asNat?) id).bind fun id => b.asString?.bind fun message =>
        (c.asListOf? Json.asString?).bind fun backtrace => some (.error id message backtrace) := by
  unfold Reply.ofTagged?
  simp only [fields]
  rfl

end Shapes

/-- **A reply is read back exactly when all doubles in it are finite.** -/
theorem Reply.ofJson?_toJson {r : Reply} (fits : r.Fits) :
    Reply.ofJson? r.toJson = if r.doubles.all Float.isFinite then some r else none := by
  have nesting : r.toJson.isReadable maxNesting = true := r.isReadable_toJson 124
  cases r with
  | result id value =>
    rw [Reply.ofJson?_tagged nesting (Json.tagged?_record (by simp) "result"),
      Reply.ofTagged?_result (Json.fields?_record (by simp) _), Json.asNat?_nat fits.1, Payload.ofJson?_toJson fits.2]
    change _ = if value.doubles.all Float.isFinite then _ else none
    split_ifs <;> rfl
  | defined name =>
    rw [Reply.ofJson?_tagged nesting (Json.tagged?_record (by simp) "defined"),
      Reply.ofTagged?_defined (Json.fields?_record (by simp) _)]
    rfl
  | help name text =>
    rw [Reply.ofJson?_tagged nesting (Json.tagged?_record (by simp) "help"),
      Reply.ofTagged?_help (Json.fields?_record (by simp) _)]
    cases text <;> rfl
  | locality worker workers =>
    rw [Reply.ofJson?_tagged nesting (Json.tagged?_record (by simp) "locality"),
      Reply.ofTagged?_locality (Json.fields?_record (by simp) _), Json.asNat?_nat fits.1, Json.asNat?_nat fits.2]
    rfl
  | error id message backtrace =>
    cases id with
    | none =>
      rw [Reply.ofJson?_tagged nesting (Json.tagged?_record (by simp) "error"),
        Reply.ofTagged?_error (Json.fields?_record (by simp) _), Json.asListOf?_strings]
      rfl
    | some i =>
      have number : Json.orDefault none (Json.asOption? Json.asNat?) (some (.nat i)) = some (some i) := by
        rw [Json.orDefault, Json.asOption?_nat, Json.asNat?_nat (fits i rfl), Option.map_some]
      have tagged : (Reply.error (some i) message backtrace).toJson.tagged? "type" = some ("error",
          .record [("id", .nat i), ("message", .str message), ("backtrace", .strings backtrace)]) :=
        Json.tagged?_record (by simp) _
      rw [Reply.ofJson?_tagged nesting tagged, Reply.ofTagged?_error (Json.fields?_record (by simp) _),
        Json.asListOf?_strings]
      change (Json.orDefault none (Json.asOption? Json.asNat?) (some (.nat i))).bind _ = _
      rw [number]
      rfl

/-- **What is sent can be read, but for doubles that are not finite.**  Every request is read back from its text.  So is
every reply whose doubles are all finite and read back from their own digits; a reply with another double is refused. -/
theorem messages_read_back (request : Request) (reply : Reply) :
    (request.Fits → Request.parse? request.toJson.text = some request) ∧
    (reply.Fits → (∀ x ∈ reply.doubles, x.isFinite = true → Json.Number.ReadsBack (.float x)) →
      Reply.parse? reply.toJson.text = if reply.doubles.all Float.isFinite then some reply else none) := by
  refine ⟨fun fits => ?_, fun fits digits => ?_⟩
  · rw [Request.parse?, Json.parse?_text (Request.travels fits)]
    exact Request.ofJson?_toJson fits
  · rw [Reply.parse?, Json.parse?_text (Reply.travels fits digits)]
    exact Reply.ofJson?_toJson fits

theorem messages_read_back_array :
    let request := Request.run (2 ^ 64 - 1) "1 / \"0\"\n"
    let items := [0.1, -2.5e-5, 1e300]
    Request.parse? request.toJson.text = some request ∧ (∀ x ∈ items, Json.Number.ReadsBack (.float x)) ∧
    Reply.parse? (Reply.result 7 (.array items)).toJson.text = some (.result 7 (.array items)) := by
  intro request items
  have digits : ∀ x ∈ items, Json.Number.ReadsBack (.float x) := by decide +kernel
  have finite : (Reply.result 7 (.array items)).doubles.all Float.isFinite = true := by decide +kernel
  obtain ⟨asked, answered⟩ := messages_read_back request (.result 7 (.array items))
  refine ⟨asked (by simp [request, Request.Fits]), digits, ?_⟩
  rw [answered ⟨by decide, trivial⟩ fun x hx _ => digits x hx, if_pos finite]

def firstAnswer (id : Nat) (source : String) : Option Reply :=
  let (engine, w) := Engine.new .standard {} {}
  let (session, w) := engine.session w
  (session.handle .inOrder 20 (.run id source) w).map Prod.fst

/-- **Answers that cannot be read**: infinity, written or computed, no number, and an array that holds infinity. -/
theorem answers_that_are_refused :
    ["1e999", "1e308 * 10.0", "1e999 - 1e999", "array(1.0, 1e999)"].all (fun source =>
      (firstAnswer 1 source).any (fun reply => (Reply.parse? reply.toJson.text).isNone)) = true := by
  decide +kernel

end ChainCalc
