import ChainCalc.Proofs.Isolation.Pairing
import ChainCalc.Proofs.Workspace.Extends
/-!
# Paired workspaces

Workspaces are paired if paired scopes bind the same names to paired things, paired functions have paired bodies, and
the stores hold paired values under the same keys.  Whatever is done on both sides alike keeps them paired: a scope or a
function made on both sides is one more pair.  On the first side alone, something may be added, and foreign scopes may be
changed in any way.
-/
namespace ChainCalc

def Store.Paired (ρ : Pairing) (s s' : Store) : Prop := ∀ key, Option.Rel (Value.Paired ρ) (s.get? key) (s'.get? key)

theorem Store.Paired.mono {ρ ρ' : Pairing} (le : ρ.Le ρ') {s s' : Store} (h : Store.Paired ρ s s') : Store.Paired ρ' s s' :=
  fun key => optionRel_imp (fun _ _ hv => hv.mono le) (h key)

namespace Workspace

/-- **The same workspace as far as a pairing goes.** -/
structure Paired (ρ : Pairing) (w w' : Workspace) : Prop where
  scopes : ∀ {i j : Nat}, ρ.scope i j → i < w.scopes.size ∧ j < w'.scopes.size
  scope : ∀ {i j : Nat}, ρ.scope i j → (w.scope i).Parallel (Binding.Paired ρ) (w'.scope j)
  bodies : ∀ {i j : Nat}, ρ.definition i j → i < w.bodies.size ∧ j < w'.bodies.size
  body : ∀ {i j : Nat}, ρ.definition i j → Option.Rel (Node.Paired ρ) (w.bodies[i]?).join (w'.bodies[j]?).join
  foreign : ∀ {i : Nat}, ρ.foreign i → i < w.scopes.size
  store : Option.Rel (Store.Paired ρ) w.store w'.store

namespace Paired

variable {ρ : Pairing} {w w' : Workspace}

/-! ### Looking things up -/

theorem lookupPath (h : w.Paired ρ w') (name : String) {path path' : List ScopeRef}
    (hp : List.Forall₂ (ScopeRef.Paired ρ) path path') :
    Option.Rel (Binding.Paired ρ) (w.lookupPath name path) (w'.lookupPath name path') := by
  induction hp with
  | nil => exact .none
  | cons head _ ih =>
    have hfound := (h.scope head.id).get? name
    unfold Workspace.lookupPath
    generalize (w.scope _).get? name = b at hfound ⊢
    generalize (w'.scope _).get? name = b' at hfound ⊢
    cases hfound with
    | some hb => exact .some hb
    | none => exact ih

theorem lookup (h : w.Paired ρ w') {env env' : Env} (henv : env.Paired ρ env') (name : String) :
    Option.Rel (Binding.Paired ρ) (w.lookup env name) (w'.lookup env' name) := h.lookupPath name henv

/-! ### Changes on both sides -/

theorem updateScope (h : w.Paired ρ w') {i j : Nat} (hij : ρ.scope i j) {f g : Scope → Scope}
    (hfg : (w.scope i).Parallel (Binding.Paired ρ) (w'.scope j) →
      (f (w.scope i)).Parallel (Binding.Paired ρ) (g (w'.scope j))) :
    (w.updateScope i f).Paired ρ (w'.updateScope j g) where
  scopes hs := by
    rw [size_scopes_updateScope, size_scopes_updateScope]
    exact h.scopes hs
  scope {a b} hab := by
    by_cases ha : a = i
    · obtain rfl : b = j := (ρ.scope_iff hab hij).1 ha
      subst ha
      rw [scope_updateScope_self w (h.scopes hij).1, scope_updateScope_self w' (h.scopes hij).2]
      exact hfg (h.scope hij)
    · have hb : b ≠ j := fun hb => ha ((ρ.scope_iff hab hij).2 hb)
      rw [scope_updateScope_ne w ha, scope_updateScope_ne w' hb]
      exact h.scope hab
  bodies := h.bodies
  body := h.body
  foreign hf := by
    rw [size_scopes_updateScope]
    exact h.foreign hf
  store := h.store

theorem warned (h : w.Paired ρ w') (warnings warnings' : List String) :
    ({ w with warnings } : Workspace).Paired ρ { w' with warnings := warnings' } :=
  ⟨h.scopes, h.scope, h.bodies, h.body, h.foreign, h.store⟩

/-- A name bound in paired scopes to paired things; what it was bound to is paired too. -/
theorem define (h : w.Paired ρ w') {env env' : Env} (henv : env.Paired ρ env') (name : String) {b b' : Binding}
    (hb : b.Paired ρ b') :
    (w.define env name b).2.Paired ρ (w'.define env' name b').2 ∧
      Option.Rel (Binding.Paired ρ) (w.define env name b).1 (w'.define env' name b').1 := by
  obtain ⟨here, -⟩ := List.forall₂_cons.1 henv
  obtain ⟨warnings, hw⟩ := define_snd w env name b
  obtain ⟨warnings', hw'⟩ := define_snd w' env' name b'
  rw [hw, hw', define_fst, define_fst]
  exact ⟨(h.updateScope here.id (fun hs => hs.insert name hb)).warned _ _, (h.scope here.id).get? name⟩

theorem restore (h : w.Paired ρ w') {env env' : Env} (henv : env.Paired ρ env') (name : String)
    {previous previous' : Option Binding} (hp : Option.Rel (Binding.Paired ρ) previous previous') :
    (w.restore env name previous).Paired ρ (w'.restore env' name previous') := by
  obtain ⟨here, -⟩ := List.forall₂_cons.1 henv
  rw [restore_eq, restore_eq]
  exact h.updateScope here.id (fun hs => hs.restore name hp)

theorem setBody (h : w.Paired ρ w') {d d' : Definition} (hd : d.Paired ρ d') {body body' : Node}
    (hbody : body.Paired ρ body') : (w.setBody d body).Paired ρ (w'.setBody d' body') where
  scopes := h.scopes
  scope := h.scope
  bodies hij := by
    simpa [Workspace.setBody] using h.bodies hij
  body {a b} hab := by
    show Option.Rel _ ((w.bodies.setIfInBounds d.id (some body))[a]?).join
      ((w'.bodies.setIfInBounds d'.id (some body'))[b]?).join
    by_cases ha : a = d.id
    · obtain rfl : b = d'.id := (ρ.definition_iff hab hd.id).1 ha
      subst ha
      rw [Array.getElem?_setIfInBounds_self_of_lt (h.bodies hab).1, Array.getElem?_setIfInBounds_self_of_lt (h.bodies hab).2]
      exact .some hbody
    · have hb : b ≠ d'.id := fun hb => ha ((ρ.definition_iff hab hd.id).2 hb)
      rw [Array.getElem?_setIfInBounds_ne (Ne.symm ha), Array.getElem?_setIfInBounds_ne (Ne.symm hb)]
      exact h.body hab
  foreign := h.foreign
  store := h.store

theorem grow (h : w.Paired ρ w') {ρ₁ : Pairing} (le : ρ.Le ρ₁) {w₁ w₁' : Workspace} (ext : w.Extends w₁)
    (ext' : w'.Extends w₁')
    (scopes : ∀ {i j : Nat}, ρ₁.scope i j → ρ.scope i j ∨ (i < w₁.scopes.size ∧ j < w₁'.scopes.size ∧
      (w₁.scope i).Parallel (Binding.Paired ρ₁) (w₁'.scope j)))
    (bodies : ∀ {i j : Nat}, ρ₁.definition i j → ρ.definition i j ∨ (i < w₁.bodies.size ∧ j < w₁'.bodies.size ∧
      Option.Rel (Node.Paired ρ₁) (w₁.bodies[i]?).join (w₁'.bodies[j]?).join))
    (foreign : ∀ {i : Nat}, ρ₁.foreign i → ρ.foreign i ∨ i < w₁.scopes.size) : w₁.Paired ρ₁ w₁' where
  scopes hij := by
    rcases scopes hij with hij | ⟨hi, hj, -⟩
    · exact ⟨Nat.lt_of_lt_of_le (h.scopes hij).1 ext.scopes, Nat.lt_of_lt_of_le (h.scopes hij).2 ext'.scopes⟩
    · exact ⟨hi, hj⟩
  scope hij := by
    rcases scopes hij with hij | ⟨-, -, hs⟩
    · rw [ext.scope _ (h.scopes hij).1, ext'.scope _ (h.scopes hij).2]
      exact (h.scope hij).imp (fun _ _ hb => hb.mono le)
    · exact hs
  bodies hij := by
    rcases bodies hij with hij | ⟨hi, hj, -⟩
    · exact ⟨Nat.lt_of_lt_of_le (h.bodies hij).1 ext.bodies, Nat.lt_of_lt_of_le (h.bodies hij).2 ext'.bodies⟩
    · exact ⟨hi, hj⟩
  body hij := by
    rcases bodies hij with hij | ⟨-, -, hs⟩
    · rw [ext.body _ (h.bodies hij).1, ext'.body _ (h.bodies hij).2]
      exact optionRel_imp (fun _ _ hb => hb.mono le) (h.body hij)
    · exact hs
  foreign hi := by
    rcases foreign hi with hi | hi
    · exact Nat.lt_of_lt_of_le (h.foreign hi) ext.scopes
    · exact hi
  store := by
    rw [ext.store, ext'.store]
    exact optionRel_imp (fun _ _ hs => Store.Paired.mono le hs) h.store

theorem addScope (h : w.Paired ρ w') {s s' : Scope} (hs : ∀ ρ₁ : Pairing, ρ.Le ρ₁ → s.Parallel (Binding.Paired ρ₁) s') :
    ∃ ρ₁ : Pairing, ρ.Le ρ₁ ∧ ρ₁.scope w.scopes.size w'.scopes.size ∧ (w.addScope s).Paired ρ₁ (w'.addScope s') := by
  let ρ₁ := ρ.withScope w.scopes.size w'.scopes.size h.scopes h.foreign
  have le : ρ.Le ρ₁ := ⟨.inl, id, id⟩
  refine ⟨ρ₁, le, .inr ⟨rfl, rfl⟩, ?_⟩
  refine h.grow le (w.extends_addScope s) (w'.extends_addScope s') (fun hij => ?_) .inl .inl
  rcases hij with hij | ⟨rfl, rfl⟩
  · exact .inl hij
  · refine .inr ⟨by simp [Workspace.addScope], by simp [Workspace.addScope], ?_⟩
    rw [scope_addScope_self, scope_addScope_self]
    exact hs ρ₁ le

theorem declare (h : w.Paired ρ w') (name : String) (params : List String) (depth : Nat) :
    ∃ ρ₁ : Pairing, ρ.Le ρ₁ ∧ (w.declare name params depth).1.Paired ρ₁ (w'.declare name params depth).1 ∧
      (w.declare name params depth).2.Paired ρ₁ (w'.declare name params depth).2 := by
  let ρ₁ := ρ.withDefinition w.bodies.size w'.bodies.size h.bodies
  have le : ρ.Le ρ₁ := ⟨id, .inl, id⟩
  refine ⟨ρ₁, le, ⟨.inr ⟨rfl, rfl⟩, rfl⟩, ?_⟩
  refine h.grow le (w.extends_declare name params depth) (w'.extends_declare name params depth) .inl (fun hij => ?_) .inl
  rcases hij with hij | ⟨rfl, rfl⟩
  · exact .inl hij
  · refine .inr ⟨by simp [Workspace.declare], by simp [Workspace.declare], ?_⟩
    show Option.Rel _ ((w.bodies.push none)[w.bodies.size]?).join ((w'.bodies.push none)[w'.bodies.size]?).join
    rw [Array.getElem?_push_size, Array.getElem?_push_size]
    exact .none

/-! ### Changes on the first side -/

theorem extends_left (h : w.Paired ρ w') {w₁ : Workspace} (ext : w.Extends w₁) : w₁.Paired ρ w' :=
  h.grow (.refl ρ) ext (.refl w') .inl .inl .inl

theorem updateForeign (h : w.Paired ρ w') {i : Nat} (hi : ρ.foreign i) (f : Scope → Scope) :
    (w.updateScope i f).Paired ρ w' where
  scopes hs := by
    rw [size_scopes_updateScope]
    exact h.scopes hs
  scope {a b} hab := by
    have ha : a ≠ i := fun ha => ρ.apart hab (ha ▸ hi)
    rw [scope_updateScope_ne w ha]
    exact h.scope hab
  bodies := h.bodies
  body := h.body
  foreign hf := by
    rw [size_scopes_updateScope]
    exact h.foreign hf
  store := h.store

theorem addForeign (h : w.Paired ρ w') (s : Scope) :
    ∃ ρ₁ : Pairing, ρ.Le ρ₁ ∧ ρ₁.foreign w.scopes.size ∧ (w.addScope s).Paired ρ₁ w' := by
  let ρ₁ := ρ.withForeign w.scopes.size (fun j hj => Nat.lt_irrefl _ (h.scopes hj).1)
  have le : ρ.Le ρ₁ := ⟨id, id, .inl⟩
  refine ⟨ρ₁, le, .inr rfl, ?_⟩
  refine h.grow le (w.extends_addScope s) (.refl w') .inl .inl (fun hi => ?_)
  rcases hi with hi | rfl
  · exact .inl hi
  · exact .inr (by simp [Workspace.addScope])

end Paired

end Workspace

end ChainCalc
