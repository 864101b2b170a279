import ChainCalc.Frame
import ChainCalc.Workspace
import ChainCalc.Proofs.Table
/-!
# Layouts — how many arguments there are at each depth

The layout of an environment lists, from the outside in, how many parameters each of the functions around it has; it is
read off the scopes of the environment.  A frame covers a layout if its depths decrease outward and there is an
activation with one argument for each parameter at every depth of the layout.  Covering survives everything evaluation
does to frames: activations are cut off down to a depth (`Covers.truncate`) and a new one is entered (`Covers.enter`).
-/
namespace ChainCalc

/-- How many parameters there are at each depth, depth one first. -/
abbrev Layout := List Nat

/-! ### The layout of an environment -/

def Binding.paramCount : Binding → Nat
  | .param _ index => index + 1
  | _ => 0

def Scope.paramCount (s : Scope) : Nat := (s.values.map Binding.paramCount).foldr max 0

/-- **The layout of scopes**, innermost first.  A scope one deeper than those around it is the scope of a function. -/
def Workspace.layout (w : Workspace) : List ScopeRef → Layout
  | [] => []
  | s :: outer =>
    if (w.layout outer).length < s.depth then w.layout outer ++ [(w.scope s.id).paramCount] else w.layout outer

theorem Workspace.layout_of_suffix (w : Workspace) {inner outer : List ScopeRef} (h : outer <:+ inner) :
    w.layout outer <+: w.layout inner := by
  obtain ⟨front, rfl⟩ := h
  induction front with
  | nil => exact List.prefix_rfl
  | cons s front ih =>
    rw [List.cons_append, Workspace.layout]
    split
    · exact ih.trans (List.prefix_append _ _)
    · exact ih

theorem Workspace.layout_congr {w w' : Workspace} : ∀ (path : List ScopeRef),
    (∀ s outer, s :: outer <:+ path → (w.layout outer).length < s.depth → w'.scope s.id = w.scope s.id) →
      w'.layout path = w.layout path
  | [], _ => rfl
  | s :: outer, h => by
    have ih := layout_congr outer (fun s' outer' hs => h s' outer' (hs.trans (List.suffix_cons s outer)))
    rw [Workspace.layout, Workspace.layout, ih]
    split
    · rw [h s outer List.suffix_rfl ‹_›]
    · rfl

/-! ### The scope of a function -/

theorem foldr_max_le {l : List Nat} {n : Nat} (h : ∀ x ∈ l, x ≤ n) : l.foldr max 0 ≤ n := by
  induction l with
  | nil => exact Nat.zero_le n
  | cons x l ih =>
    rw [List.foldr_cons]
    exact Nat.max_le.2 ⟨h x List.mem_cons_self, ih (fun y hy => h y (List.mem_cons_of_mem _ hy))⟩

theorem le_foldr_max {l : List Nat} {x : Nat} (h : x ∈ l) : x ≤ l.foldr max 0 := by
  induction l with
  | nil => cases h
  | cons y l ih =>
    rw [List.foldr_cons]
    rcases List.mem_cons.1 h with rfl | h
    · exact Nat.le_max_left _ _
    · exact Nat.le_trans (ih h) (Nat.le_max_right _ _)

namespace Workspace

theorem mem_paramScope {depth : Nat} {params : List String} {name : String} {b : Binding}
    (h : (name, b) ∈ (paramScope depth params).entries) : ∃ i < params.length, b = .param depth i := by
  obtain ⟨i, hi, he⟩ := List.mem_mapIdx.1 (Table.mem_ofList h)
  cases he
  exact ⟨i, hi, rfl⟩

/-- **The scope of a function speaks for all of its parameters**, also where names are repeated. -/
theorem paramCount_paramScope (depth : Nat) (params : List String) :
    Scope.paramCount (paramScope depth params) = params.length := by
  refine Nat.le_antisymm (foldr_max_le fun x hx => ?_) ?_
  · obtain ⟨b, hb, rfl⟩ := List.mem_map.1 hx
    obtain ⟨⟨name, b'⟩, he, rfl⟩ := List.mem_map.1 hb
    obtain ⟨i, hi, rfl⟩ := mem_paramScope he
    exact hi
  · rcases List.eq_nil_or_concat params with rfl | ⟨init, last, rfl⟩
    · exact Nat.zero_le _
    · -- the last parameter is inserted last, so its index stays whatever its name
      have hlast : paramScope depth (init.concat last) = (paramScope depth init).insert last (.param depth init.length) := by
        unfold paramScope
        rw [List.concat_eq_append, List.mapIdx_append, ← Table.ofList_append_singleton]
        simp
      have hmem := Table.mem_of_get? (Table.get?_insert_self (paramScope depth init) last (.param depth init.length))
      rw [← hlast] at hmem
      rw [List.length_concat]
      exact le_foldr_max (List.mem_map_of_mem (f := Binding.paramCount) (List.mem_map_of_mem (f := Prod.snd) hmem))

end Workspace

/-! ### Frames cut off, and frames side by side -/

namespace Frame

theorem truncate_cons_of_lt {k : Nat} {a : Activation} (frame : Frame) (h : k < a.depth) :
    Frame.truncate (a :: frame) k = frame.truncate k := List.dropWhile_cons_of_pos (by simpa using h)

theorem truncate_cons_of_le {k : Nat} {a : Activation} (frame : Frame) (h : a.depth ≤ k) :
    Frame.truncate (a :: frame) k = a :: frame := List.dropWhile_cons_of_neg (by simpa using h)

theorem arg?_cons_of_lt {k index : Nat} {a : Activation} (frame : Frame) (h : k < a.depth) :
    Frame.arg? (a :: frame) k index = frame.arg? k index := by
  obtain ⟨d, args⟩ := a
  have h : k < d := h
  rw [Frame.arg?, if_neg (by omega), if_neg (by omega)]

theorem truncate_truncate {j k : Nat} (h : j ≤ k) : ∀ frame : Frame, Frame.truncate (frame.truncate k) j = frame.truncate j
  | [] => rfl
  | a :: frame => by
    rcases Nat.lt_or_ge k a.depth with hk | hk
    · rw [truncate_cons_of_lt frame hk, truncate_cons_of_lt frame (Nat.lt_of_le_of_lt h hk), truncate_truncate h frame]
    · rw [truncate_cons_of_le frame hk]

/-- Deeper activations are passed over anyway. -/
theorem arg?_truncate {j k : Nat} (h : j ≤ k) (index : Nat) : ∀ frame : Frame,
    Frame.arg? (frame.truncate k) j index = frame.arg? j index
  | [] => rfl
  | a :: frame => by
    rcases Nat.lt_or_ge k a.depth with hk | hk
    · rw [truncate_cons_of_lt frame hk, arg?_cons_of_lt frame (Nat.lt_of_le_of_lt h hk), arg?_truncate h index frame]
    · rw [truncate_cons_of_le frame hk]

section

variable {A : Activation → Activation → Prop} {frame frame' : Frame}

theorem arg?_forall₂ {R : Value → Value → Prop} (same : ∀ {a a'}, A a a' → a'.depth = a.depth ∧ List.Forall₂ R a.args a'.args)
    (h : List.Forall₂ A frame frame') (depth index : Nat) :
    Option.Rel R (frame.arg? depth index) (Frame.arg? frame' depth index) := by
  induction h with
  | nil => exact .none
  | @cons a a' _ _ head _ ih =>
    obtain ⟨d, args⟩ := a
    obtain ⟨d', args'⟩ := a'
    obtain ⟨rfl, given⟩ : d' = d ∧ List.Forall₂ R args args' := same head
    rw [Frame.arg?, Frame.arg?]
    split
    · exact optionRel_getElem? given index
    · split
      · exact .none
      · exact ih

theorem truncate_forall₂ (same : ∀ {a a'}, A a a' → a'.depth = a.depth) (h : List.Forall₂ A frame frame') (depth : Nat) :
    List.Forall₂ A (frame.truncate depth) (Frame.truncate frame' depth) := by
  induction h with
  | nil => exact .nil
  | @cons a a' _ _ head tail ih =>
    have hdepth := same head
    rcases Nat.lt_or_ge depth a.depth with hd | hd
    · rw [truncate_cons_of_lt _ hd, truncate_cons_of_lt _ (hdepth ▸ hd)]
      exact ih
    · rw [truncate_cons_of_le _ hd, truncate_cons_of_le _ (hdepth ▸ hd)]
      exact .cons head tail

end

end Frame

/-! ### Frames that cover a layout -/

def Layout.Has (L : Layout) (depth index : Nat) : Prop := ∃ k m, depth = k + 1 ∧ L[k]? = some m ∧ index < m

theorem Layout.getElem?_of_le {L L' : Layout} (hL : L <+: L') {k m : Nat} (h : L[k]? = some m) : L'[k]? = some m := by
  obtain ⟨rest, rfl⟩ := hL
  rw [List.getElem?_append_left (List.getElem?_eq_some_iff.1 h).1, h]

theorem Layout.Has.mono {L L' : Layout} {depth index : Nat} (hL : L <+: L') (h : L.Has depth index) : L'.Has depth index := by
  obtain ⟨k, m, hd, hm, hi⟩ := h
  exact ⟨k, m, hd, Layout.getElem?_of_le hL hm, hi⟩

namespace Frame

/-- **The frame has what a layout asks for**: depths decrease outward, and every depth of the layout has an activation with
one argument for each parameter. -/
structure Covers (frame : Frame) (L : Layout) : Prop where
  decreasing : frame.Pairwise (fun a b => b.depth < a.depth)
  covered : ∀ k m, L[k]? = some m → ∃ a ∈ frame, a.depth = k + 1 ∧ a.args.length = m

theorem Covers.mono {frame : Frame} {L L' : Layout} (hL : L <+: L') (h : frame.Covers L') : frame.Covers L :=
  ⟨h.decreasing, fun k m hm => h.covered k m (Layout.getElem?_of_le hL hm)⟩

theorem covers_root : root.Covers [] := ⟨.nil, fun _ _ h => by cases h⟩

theorem mem_truncate {frame : Frame} {depth : Nat} {a : Activation} (h : a ∈ frame.truncate depth) : a ∈ frame :=
  (List.dropWhile_sublist _).subset h

theorem depth_le_of_mem_truncate {depth : Nat} : ∀ {frame : Frame}, frame.Pairwise (fun a b => b.depth < a.depth) →
    ∀ a ∈ frame.truncate depth, a.depth ≤ depth
  | [], _, _, h => by cases h
  | b :: frame, hp, a, h => by
    rw [List.pairwise_cons] at hp
    unfold truncate at h
    rw [List.dropWhile_cons] at h
    split at h
    · exact depth_le_of_mem_truncate hp.2 a h
    · rename_i hb
      have hb : b.depth ≤ depth := by simpa using hb
      rcases List.mem_cons.1 h with rfl | h
      · exact hb
      · exact Nat.le_trans (Nat.le_of_lt (hp.1 a h)) hb

theorem mem_truncate_of_le {depth : Nat} : ∀ {frame : Frame} {a : Activation}, a ∈ frame → a.depth ≤ depth →
    a ∈ frame.truncate depth
  | b :: frame, a, h, ha => by
    unfold truncate
    rw [List.dropWhile_cons]
    split
    · rename_i hb
      have hb : depth < b.depth := by simpa using hb
      rcases List.mem_cons.1 h with rfl | h
      · exact absurd ha (Nat.not_le.2 hb)
      · exact mem_truncate_of_le h ha
    · exact h

/-- **A frame cut off** still covers what is no deeper. -/
theorem Covers.truncate {frame : Frame} {L L' : Layout} (hL : L <+: L') (h : frame.Covers L') :
    (frame.truncate L.length).Covers L := by
  refine ⟨h.decreasing.sublist (List.dropWhile_sublist _), fun k m hm => ?_⟩
  obtain ⟨a, ha, hd, hl⟩ := (h.mono hL).covered k m hm
  have hk : k < L.length := (List.getElem?_eq_some_iff.1 hm).1
  exact ⟨a, mem_truncate_of_le ha (by omega), hd, hl⟩

/-- **A function entered** with an argument for each of its parameters. -/
theorem Covers.enter {frame : Frame} {L : Layout} (h : frame.Covers L) (shallow : ∀ a ∈ frame, a.depth ≤ L.length)
    (args : List Value) : (frame.enter (L.length + 1) args).Covers (L ++ [args.length]) := by
  refine ⟨List.pairwise_cons.2 ⟨fun a ha => Nat.lt_succ_of_le (shallow a ha), h.decreasing⟩, fun k m hm => ?_⟩
  rw [List.getElem?_append] at hm
  split at hm
  · obtain ⟨a, ha, hd, hl⟩ := h.covered k m hm
    exact ⟨a, List.mem_cons_of_mem _ ha, hd, hl⟩
  · rename_i hk
    obtain ⟨hz, hval⟩ := List.getElem?_eq_some_iff.1 hm
    rw [List.length_singleton] at hz
    refine ⟨⟨L.length + 1, args⟩, List.mem_cons_self, by show L.length + 1 = k + 1; omega, ?_⟩
    rw [← hval, List.getElem_singleton]

/-- **Every place of the layout holds an argument.** -/
theorem Covers.arg? {frame : Frame} {L : Layout} {depth index : Nat} (h : frame.Covers L) (hp : L.Has depth index) :
    ∃ v, frame.arg? depth index = some v ∧ ∃ a ∈ frame, v ∈ a.args := by
  obtain ⟨k, m, rfl, hm, hi⟩ := hp
  obtain ⟨a, ha, hd, hl⟩ := h.covered k m hm
  have hdec := h.decreasing
  clear h
  induction frame with
  | nil => cases ha
  | cons b frame ih =>
    obtain ⟨bd, bargs⟩ := b
    rw [List.pairwise_cons] at hdec
    rcases List.mem_cons.1 ha with rfl | ha
    · have hlt : index < bargs.length := hl ▸ hi
      refine ⟨bargs[index], ?_, _, List.mem_cons_self, List.getElem_mem hlt⟩
      rw [Frame.arg?, if_pos hd, List.getElem?_eq_getElem hlt]
    · obtain ⟨v, hv, c, hc, hmem⟩ := ih ha hdec.2
      have hlt := hdec.1 a ha
      refine ⟨v, ?_, c, List.mem_cons_of_mem _ hc, hmem⟩
      rw [Frame.arg?, if_neg (by show bd ≠ _; simp only at hlt; omega), if_neg (by simp only at hlt; omega), hv]

end Frame

end ChainCalc
