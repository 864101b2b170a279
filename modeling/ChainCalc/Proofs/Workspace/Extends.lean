import ChainCalc.Proofs.Table
import ChainCalc.Workspace
/-!
# Workspaces that grow — what a change leaves as it was

A workspace extends another if every scope and every function body that was there still is, the same as before.  What
the basic operations do to a workspace is said in these terms.
-/
namespace ChainCalc

/-! ### Growth -/

namespace Workspace

/-- **Every scope and every body of the first workspace is there in the second one, unchanged.** -/
structure Extends (w w' : Workspace) : Prop where
  scopes : w.scopes.size ≤ w'.scopes.size
  scope : ∀ i < w.scopes.size, w'.scope i = w.scope i
  bodies : w.bodies.size ≤ w'.bodies.size
  body : ∀ i < w.bodies.size, w'.bodies[i]? = w.bodies[i]?
  store : w'.store = w.store

theorem Extends.refl (w : Workspace) : w.Extends w := ⟨Nat.le_refl _, fun _ _ => rfl, Nat.le_refl _, fun _ _ => rfl, rfl⟩

theorem Extends.trans {w₁ w₂ w₃ : Workspace} (h : w₁.Extends w₂) (h' : w₂.Extends w₃) : w₁.Extends w₃ where
  scopes := Nat.le_trans h.scopes h'.scopes
  scope i hi := (h'.scope i (Nat.lt_of_lt_of_le hi h.scopes)).trans (h.scope i hi)
  bodies := Nat.le_trans h.bodies h'.bodies
  body i hi := (h'.body i (Nat.lt_of_lt_of_le hi h.bodies)).trans (h.body i hi)
  store := h'.store.trans h.store

theorem scope_eq_empty {w : Workspace} {i : Nat} (h : w.scopes.size ≤ i) : w.scope i = .empty := by
  unfold scope
  rw [Array.getElem?_eq_none h]
  rfl

theorem scope_addScope_of_lt (w : Workspace) (s : Scope) {i : Nat} (h : i < w.scopes.size) :
    (w.addScope s).scope i = w.scope i := by
  unfold scope addScope
  rw [Array.getElem?_push_lt h, Array.getElem?_eq_getElem h]

theorem scope_addScope_self (w : Workspace) (s : Scope) : (w.addScope s).scope w.scopes.size = s := by
  unfold scope addScope
  rw [Array.getElem?_push_size]
  rfl

theorem extends_addScope (w : Workspace) (s : Scope) : w.Extends (w.addScope s) where
  scopes := by simp [addScope]
  scope _ hi := scope_addScope_of_lt w s hi
  bodies := Nat.le_refl _
  body _ _ := rfl
  store := rfl

theorem extends_declare (w : Workspace) (name : String) (params : List String) (depth : Nat) :
    w.Extends (w.declare name params depth).2 where
  scopes := Nat.le_refl _
  scope _ _ := rfl
  bodies := by simp [declare]
  body i hi := by
    show (w.bodies.push none)[i]? = _
    rw [Array.getElem?_push_lt hi, Array.getElem?_eq_getElem hi]
  store := rfl

/-- A body given to a function that is new does not concern what was there before. -/
theorem Extends.setBody {w₀ w : Workspace} (h : w₀.Extends w) {d : Definition} (fresh : w₀.bodies.size ≤ d.id) (body : Node) :
    w₀.Extends (w.setBody d body) where
  scopes := h.scopes
  scope := h.scope
  bodies := by simpa [Workspace.setBody] using h.bodies
  body i hi := by
    rw [← h.body i hi]
    show (w.bodies.setIfInBounds d.id (some body))[i]? = _
    rw [Array.getElem?_setIfInBounds_ne (Nat.ne_of_gt (Nat.lt_of_lt_of_le hi fresh))]
  store := h.store

/-! ### A scope changed -/

theorem scope_updateScope_ne (w : Workspace) {id i : Nat} (h : i ≠ id) (f : Scope → Scope) :
    (w.updateScope id f).scope i = w.scope i := by
  unfold scope updateScope
  rw [Array.getElem?_modify, if_neg (Ne.symm h)]

theorem scope_updateScope_self (w : Workspace) {id : Nat} (h : id < w.scopes.size) (f : Scope → Scope) :
    (w.updateScope id f).scope id = f (w.scope id) := by
  unfold scope updateScope
  rw [Array.getElem?_modify, if_pos rfl, Array.getElem?_eq_getElem h]
  rfl

@[simp] theorem size_scopes_updateScope (w : Workspace) (id : Nat) (f : Scope → Scope) :
    (w.updateScope id f).scopes.size = w.scopes.size := by
  simp [updateScope]

theorem Extends.updateScope {w₀ w : Workspace} (h : w₀.Extends w) {id : Nat} (fresh : w₀.scopes.size ≤ id)
    (f : Scope → Scope) : w₀.Extends (w.updateScope id f) where
  scopes := by simpa using h.scopes
  scope i hi := by
    rw [scope_updateScope_ne w (Nat.ne_of_lt (Nat.lt_of_lt_of_le hi fresh)), h.scope i hi]
  bodies := h.bodies
  body := h.body
  store := h.store

theorem Extends.updateBoth {w w' : Workspace} (h : w.Extends w') (id : Nat) (f : Scope → Scope) :
    (w.updateScope id f).Extends (w'.updateScope id f) where
  scopes := by simpa using h.scopes
  scope i hi := by
    rw [size_scopes_updateScope] at hi
    by_cases hid : i = id
    · subst hid
      rw [scope_updateScope_self w hi, scope_updateScope_self w' (Nat.lt_of_lt_of_le hi h.scopes), h.scope i hi]
    · rw [scope_updateScope_ne w hid, scope_updateScope_ne w' hid, h.scope i hi]
  bodies := h.bodies
  body := h.body
  store := h.store

theorem updateScope_id (w : Workspace) (id : Nat) : w.updateScope id (fun s => s) = w := by
  unfold updateScope
  rw [show w.scopes.modify id (fun s => s) = w.scopes from ?_]
  apply Array.ext
  · simp
  · intro i h₁ h₂
    simp [Array.getElem_modify]

theorem updateScope_updateScope (w : Workspace) (id : Nat) (f g : Scope → Scope) :
    (w.updateScope id f).updateScope id g = w.updateScope id (g ∘ f) := by
  unfold updateScope
  congr 1
  apply Array.ext
  · simp
  · intro i h₁ h₂
    simp only [Array.getElem_modify]
    split <;> rfl

/-! ### Definitions -/

theorem define_fst (w : Workspace) (env : Env) (name : String) (b : Binding) :
    (w.define env name b).1 = (w.scope env.here.id).get? name := rfl

theorem define_snd (w : Workspace) (env : Env) (name : String) (b : Binding) :
    ∃ warnings, (w.define env name b).2 =
      { w.updateScope env.here.id (fun s => s.insert name b) with warnings } := by
  unfold define
  dsimp only
  split
  · exact ⟨_, rfl⟩
  · exact ⟨w.warnings, rfl⟩

theorem size_scopes_define (w : Workspace) (env : Env) (name : String) (b : Binding) :
    (w.define env name b).2.scopes.size = w.scopes.size := by
  obtain ⟨warnings, hw⟩ := w.define_snd env name b
  rw [hw]
  exact w.size_scopes_updateScope env.here.id _

theorem extends_define (w : Workspace) (env : Env) (name : String) (b : Binding) :
    (w.updateScope env.here.id (fun s => s.insert name b)).Extends (w.define env name b).2 := by
  obtain ⟨warnings, h⟩ := define_snd w env name b
  rw [h]
  exact ⟨Nat.le_refl _, fun _ _ => rfl, Nat.le_refl _, fun _ _ => rfl, rfl⟩

theorem Extends.define {w₀ w : Workspace} (h : w₀.Extends w) {env : Env} (fresh : w₀.scopes.size ≤ env.here.id)
    (name : String) (b : Binding) : w₀.Extends (w.define env name b).2 :=
  (h.updateScope fresh _).trans (extends_define w env name b)

theorem restore_eq (w : Workspace) (env : Env) (name : String) (previous : Option Binding) :
    w.restore env name previous = w.updateScope env.here.id (fun s => s.restore name previous) := by
  cases previous <;> rfl

end Workspace

end ChainCalc
