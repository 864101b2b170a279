import Mathlib.Data.List.Forall2
import ChainCalc.Table
/-!
# Tables — changes taken back, and tables side by side

Options, lists and outcomes are related if what they hold is (`Concur`: the same error, or related results).

What was inserted can be taken back: the table comes back with the same names in the same order (`restore_insert`).
Tables are parallel if they have the same names in the same order, bound to things that are related; tables made from
parallel lists are (`Parallel.ofList`).
-/
namespace ChainCalc

theorem optionRel_refl {α : Type} {R : α → α → Prop} (refl : ∀ a, R a a) : ∀ o : Option α, Option.Rel R o o
  | none => .none
  | some a => .some (refl a)

theorem optionRel_imp {α β : Type} {R S : α → β → Prop} (h : ∀ a b, R a b → S a b) {a : Option α} {b : Option β}
    (hR : Option.Rel R a b) : Option.Rel S a b := by
  cases hR with
  | none => exact .none
  | some hab => exact .some (h _ _ hab)

theorem optionRel_getElem? {α β : Type} {R : α → β → Prop} {as : List α} {bs : List β} (h : List.Forall₂ R as bs) (i : Nat) :
    Option.Rel R as[i]? bs[i]? := by
  induction h generalizing i with
  | nil => exact .none
  | cons head _ ih =>
    cases i with
    | zero => exact .some head
    | succ i => exact ih i

theorem isEmpty_eq_of_forall₂ {α β : Type} {R : α → β → Prop} {as : List α} {bs : List β} (h : List.Forall₂ R as bs) :
    bs.isEmpty = as.isEmpty := by
  cases h <;> rfl

inductive Concur {ε α β : Type} (R : α → β → Prop) : Except ε α → Except ε β → Prop
  | ok {a : α} {b : β} (h : R a b) : Concur R (.ok a) (.ok b)
  | error (e : ε) : Concur R (.error e) (.error e)

theorem Concur.refl {ε α : Type} {R : α → α → Prop} (refl : ∀ a, R a a) : ∀ x : Except ε α, Concur R x x
  | .ok a => .ok (refl a)
  | .error e => .error e

theorem Concur.eq {ε α : Type} {x y : Except ε α} (h : Concur Eq x y) : y = x := by
  cases h with
  | ok hab => rw [hab]
  | error e => rfl

theorem Concur.imp {ε α β : Type} {R S : α → β → Prop} (h : ∀ a b, R a b → S a b) {x : Except ε α} {y : Except ε β}
    (hxy : Concur R x y) : Concur S x y := by
  cases hxy with
  | ok hab => exact .ok (h _ _ hab)
  | error e => exact .error e

theorem Concur.bind {ε α β γ δ : Type} {R : α → β → Prop} {S : γ → δ → Prop} {x : Except ε α} {y : Except ε β}
    {f : α → Except ε γ} {g : β → Except ε δ} (hxy : Concur R x y) (hfg : ∀ a b, R a b → Concur S (f a) (g b)) :
    Concur S (x >>= f) (y >>= g) := by
  cases hxy with
  | ok hab => exact hfg _ _ hab
  | error e => exact .error e

namespace Table

variable {α β : Type}

/-! ### Entries -/

theorem mem_put {name : String} {value : α} {e : String × α} : ∀ {l : List (String × α)}, e ∈ put name value l →
    e = (name, value) ∨ e ∈ l
  | [], h => .inl (List.mem_singleton.1 h)
  | (k, v) :: rest, h => by
    unfold put at h
    split at h
    · rename_i hk
      rcases List.mem_cons.1 h with rfl | h
      · exact .inl (by rw [eq_of_beq hk])
      · exact .inr (List.mem_cons_of_mem _ h)
    · rcases List.mem_cons.1 h with rfl | h
      · exact .inr List.mem_cons_self
      · rcases mem_put h with h | h
        · exact .inl h
        · exact .inr (List.mem_cons_of_mem _ h)

def insertAll (t : Table α) (entries : List (String × α)) : Table α := entries.foldl (fun t e => t.insert e.1 e.2) t

theorem ofList_eq_insertAll (l : List (String × α)) : ofList l = empty.insertAll l := rfl

theorem mem_insertAll {e : String × α} : ∀ {l : List (String × α)} {t : Table α}, e ∈ (t.insertAll l).entries →
    e ∈ l ∨ e ∈ t.entries
  | [], _, h => .inr h
  | (k, v) :: l, t, h => by
    rcases mem_insertAll (t := t.insert k v) h with h | h
    · exact .inl (List.mem_cons_of_mem _ h)
    · rcases mem_put h with rfl | h
      · exact .inl List.mem_cons_self
      · exact .inr h

theorem mem_ofList {e : String × α} {l : List (String × α)} (h : e ∈ (ofList l).entries) : e ∈ l := by
  rcases mem_insertAll h with h | h
  · exact h
  · cases h

theorem ofList_append_singleton (l : List (String × α)) (name : String) (v : α) :
    ofList (l ++ [(name, v)]) = (ofList l).insert name v := by
  unfold ofList
  rw [List.foldl_append]
  rfl

theorem mem_of_get? {t : Table α} {name : String} {v : α} (h : t.get? name = some v) : (name, v) ∈ t.entries := by
  obtain ⟨l⟩ := t
  change l.lookup name = some v at h
  induction l with
  | nil => cases h
  | cons e rest ih =>
    obtain ⟨k, x⟩ := e
    rw [List.lookup_cons] at h
    split at h
    · rename_i hk
      cases h
      rw [eq_of_beq hk]
      exact List.mem_cons_self
    · exact List.mem_cons_of_mem _ (ih h)

theorem get?_insertAll_of_notMem {name : String} : ∀ {entries : List (String × α)} {t : Table α},
    name ∉ entries.map Prod.fst → (t.insertAll entries).get? name = t.get? name
  | [], _, _ => rfl
  | (k, v) :: entries, t, h => by
    rw [List.map_cons, List.mem_cons, not_or] at h
    show ((t.insert k v).insertAll entries).get? name = _
    rw [get?_insertAll_of_notMem h.2, get?_insert_ne t h.1]

theorem isSome_get?_insertAll {name : String} : ∀ {entries : List (String × α)} {t : Table α},
    name ∈ entries.map Prod.fst → ((t.insertAll entries).get? name).isSome = true
  | (k, v) :: entries, t, h => by
    show (((t.insert k v).insertAll entries).get? name).isSome = true
    by_cases hin : name ∈ entries.map Prod.fst
    · exact isSome_get?_insertAll hin
    · rw [List.map_cons, List.mem_cons] at h
      obtain rfl := h.resolve_right hin
      rw [get?_insertAll_of_notMem hin]
      exact (congrArg Option.isSome (get?_insert_self t name v)).trans rfl

theorem get?_ofList_of_notMem {name : String} {l : List (String × α)} (h : name ∉ l.map Prod.fst) : (ofList l).get? name = none :=
  get?_insertAll_of_notMem h

/-- **Names renamed in a table**: a name that no other is renamed to is found under its new name. -/
theorem get?_ofList_rename {σ : String → String} {name : String} {l : List (String × α)}
    (h : ∀ e ∈ l, σ e.1 = σ name → e.1 = name) :
    (ofList (l.map (fun e => (σ e.1, e.2)))).get? (σ name) = (ofList l).get? name := by
  have hfold : ∀ {t t' : Table α}, t'.get? (σ name) = t.get? name →
      (t'.insertAll (l.map (fun e => (σ e.1, e.2)))).get? (σ name) = (t.insertAll l).get? name := by
    induction l with
    | nil => exact fun ht => ht
    | cons e l ih =>
      intro t t' ht
      rw [List.forall_mem_cons] at h
      show ((t'.insert (σ e.1) e.2).insertAll _).get? _ = ((t.insert e.1 e.2).insertAll l).get? _
      refine ih h.2 ?_
      by_cases he : e.1 = name
      · rw [he, get?_insert_self, get?_insert_self]
      · rw [get?_insert_ne _ (fun heq => he (h.1 heq.symm)), get?_insert_ne _ (Ne.symm he), ht]
  exact hfold rfl

/-! ### Names that are all different -/

theorem put_of_notMem {name : String} (value : α) : ∀ {l : List (String × α)}, name ∉ l.map Prod.fst →
    put name value l = l ++ [(name, value)]
  | [], _ => rfl
  | (k, v) :: rest, h => by
    rw [List.map_cons, List.mem_cons, not_or] at h
    have hk : (k == name) = false := by simpa using Ne.symm h.1
    simp [put, hk, put_of_notMem value h.2]

theorem map_fst_put_of_mem {name : String} (value : α) : ∀ {l : List (String × α)}, name ∈ l.map Prod.fst →
    (put name value l).map Prod.fst = l.map Prod.fst
  | (k, v) :: rest, h => by
    by_cases hk : k = name
    · simp [put, hk]
    · rw [List.map_cons, List.mem_cons] at h
      have tail := map_fst_put_of_mem value (h.resolve_left (Ne.symm hk))
      simp [put, hk, tail]

theorem nodup_keys_insert {t : Table α} (h : t.keys.Nodup) (name : String) (value : α) : (t.insert name value).keys.Nodup := by
  obtain ⟨l⟩ := t
  change (l.map Prod.fst).Nodup at h
  show ((put name value l).map Prod.fst).Nodup
  by_cases hin : name ∈ l.map Prod.fst
  · rw [map_fst_put_of_mem value hin]
    exact h
  · rw [put_of_notMem value hin, List.map_append]
    refine List.nodup_append.2 ⟨h, by simp, fun a ha b hb hab => hin ?_⟩
    cases List.mem_singleton.1 hb
    obtain rfl : a = name := hab
    exact ha

theorem ofList_entries {t : Table α} (h : t.keys.Nodup) : ofList t.entries = t := by
  have hfold : ∀ {l l' : List (String × α)}, ((l' ++ l).map Prod.fst).Nodup → (Table.mk l').insertAll l = ⟨l' ++ l⟩ := by
    intro l
    induction l with
    | nil => intro l' _; simp [insertAll]
    | cons e l ih =>
      intro l' nodup
      have absent : e.1 ∉ l'.map Prod.fst := by
        rw [List.map_append, List.map_cons] at nodup
        exact fun he => (List.nodup_append.1 nodup).2.2 _ he _ List.mem_cons_self rfl
      show (Table.mk (put e.1 e.2 l')).insertAll l = _
      rw [put_of_notMem _ absent, ih (by simpa using nodup)]
      simp
  exact hfold h

/-! ### Changes taken back -/

/-- What a name was bound to is put back: the old value, or nothing. -/
def restore (t : Table α) (name : String) (previous : Option α) : Table α :=
  match previous with
  | some v => t.insert name v
  | none => t.erase name

theorem put_put {name : String} (value : α) {old : α} : ∀ {l : List (String × α)}, l.lookup name = some old →
    put name old (put name value l) = l
  | [], h => by cases h
  | (k, v) :: rest, h => by
    by_cases hk : k = name
    · subst hk
      simp only [List.lookup_cons, beq_self_eq_true, Option.some.injEq] at h
      simp [put, h]
    · have hne : (name == k) = false := by simpa using fun e => hk e.symm
      rw [List.lookup_cons, hne] at h
      simp [put, hk, put_put value h]

theorem filter_put {name : String} (value : α) : ∀ {l : List (String × α)}, l.lookup name = none →
    (put name value l).filter (fun e => e.1 != name) = l
  | [], _ => by simp [put]
  | (k, v) :: rest, h => by
    have hk : k ≠ name := by
      rintro rfl
      simp at h
    have hne : (name == k) = false := by simpa using fun e => hk e.symm
    rw [List.lookup_cons, hne] at h
    simp [put, hk, filter_put value h]

/-- **A definition taken back leaves the table as it was**, names, order and values. -/
theorem restore_insert (t : Table α) (name : String) (value : α) : (t.insert name value).restore name (t.get? name) = t := by
  obtain ⟨l⟩ := t
  show (Table.mk (put name value l)).restore name (l.lookup name) = ⟨l⟩
  cases h : l.lookup name with
  | some old => exact congrArg Table.mk (put_put value h)
  | none => exact congrArg Table.mk (filter_put value h)

/-! ### Tables side by side -/

def Parallel (R : α → β → Prop) (t : Table α) (t' : Table β) : Prop :=
  List.Forall₂ (fun a b => a.1 = b.1 ∧ R a.2 b.2) t.entries t'.entries

theorem Parallel.get? {R : α → β → Prop} {t : Table α} {t' : Table β} (h : Parallel R t t') (name : String) :
    Option.Rel R (t.get? name) (t'.get? name) := by
  obtain ⟨l⟩ := t
  obtain ⟨l'⟩ := t'
  change List.Forall₂ _ l l' at h
  show Option.Rel R (l.lookup name) (l'.lookup name)
  induction h with
  | nil => exact .none
  | @cons a b l l' head _ ih =>
    obtain ⟨k, v⟩ := a
    obtain ⟨k', v'⟩ := b
    obtain ⟨rfl, hv⟩ : k = k' ∧ R v v' := head
    rw [List.lookup_cons, List.lookup_cons]
    by_cases hk : name = k
    · simpa [hk] using Option.Rel.some hv
    · have hne : (name == k) = false := by simpa using hk
      simpa [hne] using ih

theorem Parallel.insert {R : α → β → Prop} {t : Table α} {t' : Table β} (h : Parallel R t t') (name : String) {a : α} {b : β}
    (hab : R a b) : Parallel R (t.insert name a) (t'.insert name b) := by
  obtain ⟨l⟩ := t
  obtain ⟨l'⟩ := t'
  change List.Forall₂ _ l l' at h
  show List.Forall₂ _ (put name a l) (put name b l')
  induction h with
  | nil => exact .cons ⟨rfl, hab⟩ .nil
  | @cons e e' l l' head tail ih =>
    obtain ⟨k, v⟩ := e
    obtain ⟨k', v'⟩ := e'
    obtain ⟨rfl, hv⟩ : k = k' ∧ R v v' := head
    unfold put
    by_cases hk : k = name
    · simp only [hk, beq_self_eq_true, if_true]
      exact .cons ⟨rfl, hab⟩ tail
    · have hne : (k == name) = false := by simpa using hk
      simp only [hne, Bool.false_eq_true, if_false]
      exact .cons ⟨rfl, hv⟩ ih

theorem Parallel.ofList {R : α → β → Prop} {l : List (String × α)} {l' : List (String × β)}
    (hl : List.Forall₂ (fun a b => a.1 = b.1 ∧ R a.2 b.2) l l') : Parallel R (Table.ofList l) (Table.ofList l') := by
  have hfold : ∀ {t : Table α} {t' : Table β}, Parallel R t t' → Parallel R (t.insertAll l) (t'.insertAll l') := by
    induction hl with
    | nil => exact fun h => h
    | @cons a b l l' head _ ih =>
      intro t t' h
      show Parallel R ((t.insert a.1 a.2).insertAll l) ((t'.insert b.1 b.2).insertAll l')
      rw [head.1]
      exact ih (h.insert b.1 head.2)
  exact hfold .nil

theorem Parallel.values {R : α → β → Prop} {t : Table α} {t' : Table β} (h : Parallel R t t') :
    List.Forall₂ R t.values t'.values := by
  show List.Forall₂ R (t.entries.map Prod.snd) (t'.entries.map Prod.snd)
  rw [List.forall₂_map_left_iff, List.forall₂_map_right_iff]
  exact h.imp (fun _ _ hab => hab.2)

theorem Parallel.imp {R S : α → β → Prop} (h : ∀ a b, R a b → S a b) {t : Table α} {t' : Table β} (hR : Parallel R t t') :
    Parallel S t t' := List.Forall₂.imp (fun _ _ hab => ⟨hab.1, h _ _ hab.2⟩) hR

theorem Parallel.restore {R : α → β → Prop} {t : Table α} {t' : Table β} (h : Parallel R t t') (name : String)
    {previous : Option α} {previous' : Option β} (hp : Option.Rel R previous previous') :
    Parallel R (t.restore name previous) (t'.restore name previous') := by
  cases hp with
  | some hab => exact h.insert name hab
  | none =>
    refine List.rel_filter (fun a b hab => ?_) h
    show (a.1 != name) = true ↔ (b.1 != name) = true
    rw [hab.1]

end Table
end ChainCalc
