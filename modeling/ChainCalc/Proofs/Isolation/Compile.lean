import ChainCalc.Proofs.Isolation.Workspaces
/-!
# Compilation in paired workspaces

The same source compiled in paired environments of paired workspaces gives paired nodes and leaves paired workspaces, or
fails on both sides with the same error, which leaves paired workspaces too.  What is new on both sides is paired on the
way, so the pairing grows: pairings are a correspondence (`Pairing.correspondence`), which registries suit that do not look
at numbers.
-/
namespace ChainCalc

open CompileM

def Ended {ε α β : Type} (R : Pairing → α → β → Prop) (ρ : Pairing) (p : Except ε α × Workspace) (q : Except ε β × Workspace) :
    Prop := ∃ ρ₁ : Pairing, ρ.Le ρ₁ ∧ p.2.Paired ρ₁ q.2 ∧ Concur (R ρ₁) p.1 q.1

section

variable {ρ : Pairing} {env env' : Env} {w w' : Workspace}

theorem Env.Paired.depth (henv : env.Paired ρ env') : env'.depth = env.depth := (List.forall₂_cons.1 henv).1.depth

namespace Workspace.Paired

variable (hw : w.Paired ρ w') (henv : env.Paired ρ env')

include hw henv

theorem childEnv : ∃ ρ₁ : Pairing, ρ.Le ρ₁ ∧ (w.childEnv env).2.Paired ρ₁ (w'.childEnv env').2 ∧
    (w.childEnv env).1.Paired ρ₁ (w'.childEnv env').1 := by
  have hempty : ∀ ρ₁ : Pairing, ρ.Le ρ₁ → (Table.empty : Scope).Parallel (Binding.Paired ρ₁) .empty := fun _ _ => .nil
  obtain ⟨ρ₁, le, hnew, hw₁⟩ := hw.addScope hempty
  exact ⟨ρ₁, le, hw₁, .cons ⟨hnew, henv.depth⟩ (henv.mono le)⟩

theorem functionEnv (params : List String) : ∃ ρ₁ : Pairing, ρ.Le ρ₁ ∧
    (w.functionEnv env params).2.Paired ρ₁ (w'.functionEnv env' params).2 ∧
    (w.functionEnv env params).1.Paired ρ₁ (w'.functionEnv env' params).1 := by
  have hdepth := henv.depth
  have hparams : ∀ ρ₁ : Pairing, ρ.Le ρ₁ → (Workspace.paramScope (env.depth + 1) params).Parallel (Binding.Paired ρ₁)
      (Workspace.paramScope (env'.depth + 1) params) := by
    intro ρ₁ _
    rw [hdepth]
    refine Table.Parallel.ofList (List.forall₂_same.2 (fun b hb => ⟨rfl, ?_⟩))
    obtain ⟨i, hi, rfl⟩ := List.mem_mapIdx.1 hb
    exact .param _ i
  obtain ⟨ρ₁, le, hnew, hw₁⟩ := hw.addScope hparams
  exact ⟨ρ₁, le, hw₁, .cons ⟨hnew, congrArg (· + 1) hdepth⟩ (henv.mono le)⟩

end Workspace.Paired

end

/-- **What is paired on both sides**, by more and more as they go on. -/
def Pairing.correspondence : Correspondence Pairing where
  le := Pairing.Le
  workspace ρ := Workspace.Paired ρ
  env ρ := Env.Paired ρ
  definition ρ := Definition.Paired ρ
  node ρ := Node.Paired ρ
  binding ρ := Binding.Paired ρ
  refl := .refl
  trans := .trans
  env_mono le h := h.mono le
  definition_mono le h := h.mono le
  node_mono le h := h.mono le
  binding_mono le h := h.mono le
  literal l := .constant (.plain (by cases l <;> rfl))
  sequence label h := .sequence label h
  apply site head children := .apply site head children
  functionRef name h := .functionRef name h
  invoke name site h children := .invoke name site h children
  lambda body body' h := .lambda body body' h
  value h := .value h
  function h := .function h
  reference hb name := by
    cases hb with
    | value hx => exact .some hx
    | function hd => exact .none
    | param depth index => exact .some (.param name depth index)
  lookup hw henv name := hw.lookup henv name
  childEnv hw henv := hw.childEnv henv
  functionEnv hw henv params := hw.functionEnv henv params
  declare {_ w w' e e'} hw henv name params := by
    obtain ⟨ρ₁, le, hd, hw₁⟩ := hw.declare name params (e.depth + 1)
    rw [henv.depth]
    exact ⟨ρ₁, le, hw₁, hd⟩
  define hw henv hb name := hw.define henv name hb
  restore hw henv hp name := hw.restore henv name hp
  setBody hw hd hx := hw.setBody hd hx

theorem Registry.Uniform.suits {registry : Registry} (uniform : registry.Uniform) : Pairing.correspondence.Suits registry :=
  fun entry mem ρ _ _ name label alike => uniform entry mem ρ _ _ name label ⟨alike.primitive, alike.nodes⟩

/-- **A unit compiled in paired environments gives paired functions**, or fails alike. -/
theorem Workspace.Paired.compileUnit {ρ : Pairing} {w w' : Workspace} (hw : w.Paired ρ w') {registry : Registry}
    (uniform : registry.Uniform) (n : Nat) (ss : List Expr) {env env' : Env} (henv : env.Paired ρ env') :
    Option.Rel (Ended (fun ρ f f' => (Value.function f).Paired ρ (.function f')) ρ) ((compileUnit registry n ss env).run w)
      ((ChainCalc.compileUnit registry n ss env').run w') := by
  refine optionRel_imp ?_ (Correspondence.mirrors_compileUnit uniform.suits n ss henv ρ (.refl ρ) w w' hw)
  rintro p q ⟨ρ₁, le, hw₁, concur⟩
  refine ⟨ρ₁, le, hw₁, concur.imp ?_⟩
  rintro f f' ⟨hd, hf, hf'⟩
  rw [hf, hf']
  exact .function hd .nil .nil

end ChainCalc
