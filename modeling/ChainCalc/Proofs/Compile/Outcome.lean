import ChainCalc.Compile
/-!
# Outcomes of compilations — what a computation on a workspace gave, and what it left behind

`x.Gives w a w'` says that `x`, started on the workspace `w`, succeeded with `a` and left `w'`.  Each building block has
one equivalence, so that a computation that succeeded can be taken apart from its first step to its last.
-/
namespace ChainCalc
namespace CompileM

variable {α β : Type}

def Gives (x : CompileM α) (w : Workspace) (a : α) (w' : Workspace) : Prop := x.run w = some (.ok a, w')

def Fails (x : CompileM α) (w : Workspace) (w' : Workspace) : Prop := ∃ e, x.run w = some (.error e, w')

theorem run_bind (x : CompileM α) (f : α → CompileM β) (w : Workspace) :
    (x >>= f).run w = match x.run w with
      | none => none
      | some (.error e, w') => some (.error e, w')
      | some (.ok a, w') => (f a).run w' := by
  rw [ExceptT.run_bind]
  show StateT.bind x.run _ w = _
  unfold StateT.bind
  cases x.run w with
  | none => rfl
  | some r =>
    obtain ⟨r, w'⟩ := r
    cases r <;> rfl

@[simp] theorem gives_bind (x : CompileM α) (f : α → CompileM β) (w : Workspace) (b : β) (w' : Workspace) :
    (x >>= f).Gives w b w' ↔ ∃ a w₁, x.Gives w a w₁ ∧ (f a).Gives w₁ b w' := by
  unfold Gives
  rw [run_bind]
  constructor
  · intro h
    split at h
    · cases h
    · cases h
    · exact ⟨_, _, ‹_›, h⟩
  · rintro ⟨a, w₁, hx, hf⟩
    rw [hx]
    exact hf

@[simp] theorem fails_bind (x : CompileM α) (f : α → CompileM β) (w w' : Workspace) :
    (x >>= f).Fails w w' ↔ x.Fails w w' ∨ ∃ a w₁, x.Gives w a w₁ ∧ (f a).Fails w₁ w' := by
  unfold Fails Gives
  simp only [run_bind]
  constructor
  · rintro ⟨e, h⟩
    split at h
    · cases h
    · cases h
      exact .inl ⟨_, ‹_›⟩
    · exact .inr ⟨_, _, ‹_›, e, h⟩
  · rintro (⟨e, hx⟩ | ⟨a, w₁, hx, e, hf⟩)
    · exact ⟨e, by rw [hx]⟩
    · exact ⟨e, by rw [hx]; exact hf⟩

@[simp] theorem gives_pure (a b : α) (w w' : Workspace) : (pure a : CompileM α).Gives w b w' ↔ b = a ∧ w' = w := by
  show some (Except.ok a, w) = some (Except.ok b, w') ↔ _
  simp only [Option.some.injEq, Prod.mk.injEq, Except.ok.injEq, eq_comm]

@[simp] theorem fails_pure (a : α) (w w' : Workspace) : ¬ (pure a : CompileM α).Fails w w' := by
  rintro ⟨e, h⟩
  cases h

@[simp] theorem gives_update (f : Workspace → α × Workspace) (w : Workspace) (a : α) (w' : Workspace) :
    (update f).Gives w a w' ↔ f w = (a, w') := by
  show some (Except.ok (f w).1, (f w).2) = some (Except.ok a, w') ↔ _
  simp only [Option.some.injEq, Except.ok.injEq, Prod.ext_iff]

@[simp] theorem fails_update (f : Workspace → α × Workspace) (w w' : Workspace) : ¬ (update f).Fails w w' := by
  rintro ⟨e, h⟩
  cases h

@[simp] theorem gives_view (f : Workspace → α) (w : Workspace) (a : α) (w' : Workspace) :
    (view f).Gives w a w' ↔ a = f w ∧ w' = w := by
  rw [view, gives_update]
  simp only [Prod.mk.injEq, eq_comm]

@[simp] theorem fails_view (f : Workspace → α) (w w' : Workspace) : ¬ (view f).Fails w w' := fails_update _ w w'

@[simp] theorem gives_settled (r : Except CompileError α) (w : Workspace) (a : α) (w' : Workspace) :
    (settled r).Gives w a w' ↔ r = .ok a ∧ w' = w := by
  show some (r, w) = some (Except.ok a, w') ↔ _
  simp only [Option.some.injEq, Prod.mk.injEq, @eq_comm _ w' w]

@[simp] theorem fails_settled (r : Except CompileError α) (w w' : Workspace) :
    (settled r).Fails w w' ↔ (∃ e, r = .error e) ∧ w' = w := by
  constructor
  · rintro ⟨e, h⟩
    cases h
    exact ⟨⟨e, rfl⟩, rfl⟩
  · rintro ⟨⟨e, rfl⟩, rfl⟩
    exact ⟨e, rfl⟩

@[simp] theorem gives_fail (e : CompileError) (w : Workspace) (a : α) (w' : Workspace) :
    ¬ (fail e : CompileM α).Gives w a w' := by
  intro h
  cases h

@[simp] theorem fails_fail (e : CompileError) (w w' : Workspace) : (fail e : CompileM α).Fails w w' ↔ w' = w := by
  constructor
  · rintro ⟨e, h⟩
    cases h
    rfl
  · rintro rfl
    exact ⟨e, rfl⟩

theorem run_onError (x : CompileM α) (cleanup : Workspace → Workspace) (w : Workspace) :
    (onError x cleanup).run w = match x.run w with
      | some (.error e, w) => some (.error e, cleanup w)
      | r => r := rfl

@[simp] theorem gives_onError (x : CompileM α) (cleanup : Workspace → Workspace) (w : Workspace) (a : α)
    (w' : Workspace) : (onError x cleanup).Gives w a w' ↔ x.Gives w a w' := by
  unfold Gives
  rw [run_onError]
  cases x.run w with
  | none => simp
  | some r =>
    obtain ⟨r, w₁⟩ := r
    cases r <;> simp

@[simp] theorem fails_onError (x : CompileM α) (cleanup : Workspace → Workspace) (w w' : Workspace) :
    (onError x cleanup).Fails w w' ↔ ∃ w₁, x.Fails w w₁ ∧ w' = cleanup w₁ := by
  unfold Fails
  rw [run_onError]
  cases x.run w with
  | none => simp
  | some r =>
    obtain ⟨r, w₁⟩ := r
    cases r with
    | error e => simp [eq_comm]
    | ok a => simp

end CompileM

/-! ### One after another -/

inductive InOrder {α β : Type} (R : Workspace → α → β → Workspace → Prop) : Workspace → List α → List β → Workspace → Prop
  | nil (w : Workspace) : InOrder R w [] [] w
  | cons {w w₁ w₂ : Workspace} {a : α} {b : β} {as : List α} {bs : List β} (head : R w a b w₁)
      (tail : InOrder R w₁ as bs w₂) : InOrder R w (a :: as) (b :: bs) w₂

theorem InOrder.imp {α β : Type} {R S : Workspace → α → β → Workspace → Prop} (h : ∀ w a b w', R w a b w' → S w a b w')
    {w w' : Workspace} {as : List α} {bs : List β} (hR : InOrder R w as bs w') : InOrder S w as bs w' := by
  induction hR with
  | nil w => exact .nil w
  | cons head _ ih => exact .cons (h _ _ _ _ head) ih

theorem CompileM.gives_mapM {α β : Type} (f : α → CompileM β) : ∀ (as : List α) (w : Workspace) (bs : List β) (w' : Workspace),
    (as.mapM f).Gives w bs w' ↔ InOrder (fun w a b w' => (f a).Gives w b w') w as bs w'
  | [], w, bs, w' => by
    rw [List.mapM_nil, gives_pure]
    constructor
    · rintro ⟨rfl, rfl⟩
      exact .nil _
    · rintro ⟨⟩
      exact ⟨rfl, rfl⟩
  | a :: as, w, bs, w' => by
    simp only [List.mapM_cons, gives_bind, gives_pure, gives_mapM f as]
    constructor
    · rintro ⟨b, w₁, hb, bs', w₂, hbs, rfl, rfl⟩
      exact .cons hb hbs
    · rintro (_ | ⟨head, tail⟩)
      exact ⟨_, _, head, _, _, tail, rfl, rfl⟩

end ChainCalc
