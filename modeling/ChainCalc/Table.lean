/-!
# Tables — values under names, in the order of first insertion

Inserting under a name that is present replaces the value and keeps its place; a new name goes to the end.  Erasing
keeps the order of the others.
-/
namespace ChainCalc

structure Table (α : Type) where
  entries : List (String × α)
  deriving Inhabited

namespace Table

variable {α β : Type}

def empty : Table α := ⟨[]⟩

def keys (t : Table α) : List String := t.entries.map Prod.fst

def values (t : Table α) : List α := t.entries.map Prod.snd

def size (t : Table α) : Nat := t.entries.length

def isEmpty (t : Table α) : Bool := t.entries.isEmpty

def get? (t : Table α) (name : String) : Option α := t.entries.lookup name

def put (name : String) (value : α) : List (String × α) → List (String × α)
  | [] => [(name, value)]
  | (k, v) :: rest => if k == name then (k, value) :: rest else (k, v) :: put name value rest

def insert (t : Table α) (name : String) (value : α) : Table α := ⟨put name value t.entries⟩

def erase (t : Table α) (name : String) : Table α := ⟨t.entries.filter (fun e => e.1 != name)⟩

/-- A table from pairs; a repeated name keeps its first place and takes its last value. -/
def ofList (entries : List (String × α)) : Table α :=
  entries.foldl (fun t (k, v) => t.insert k v) empty

/-! ### Lookup after a change -/

theorem lookup_put_self (name : String) (value : α) (l : List (String × α)) :
    (put name value l).lookup name = some value := by
  induction l with
  | nil => simp [put]
  | cons e rest ih =>
    obtain ⟨k, v⟩ := e
    by_cases h : k = name
    · simp [put, h]
    · have h' : (name == k) = false := by simpa using fun e => h e.symm
      simp [put, h, List.lookup_cons, h', ih]

theorem lookup_put_ne {name other : String} (hne : other ≠ name) (value : α) (l : List (String × α)) :
    (put name value l).lookup other = l.lookup other := by
  have h' : (other == name) = false := by simpa using hne
  induction l with
  | nil => simp [put, List.lookup_cons, h']
  | cons e rest ih =>
    obtain ⟨k, v⟩ := e
    by_cases h : k = name
    · subst h
      simp [put, List.lookup_cons, h']
    · simp [put, h, List.lookup_cons, ih]

/-- **What was put under a name is found under it.** -/
theorem get?_insert_self (t : Table α) (name : String) (value : α) : (t.insert name value).get? name = some value :=
  lookup_put_self name value t.entries

/-- **Other names are not disturbed.** -/
theorem get?_insert_ne (t : Table α) {name other : String} (hne : other ≠ name) (value : α) :
    (t.insert name value).get? other = t.get? other :=
  lookup_put_ne hne value t.entries

end Table

end ChainCalc
