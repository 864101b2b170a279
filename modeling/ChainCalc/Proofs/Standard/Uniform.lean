import ChainCalc.Proofs.Isolation.Pairing
import ChainCalc.Proofs.Standard.Unseen
/-!
# The standard registry does not look at numbers

A computation of the standard registry gives the same result for paired values, as it does not see the numbers of functions
(`uniform_of_isKernel`).  Its factories hand on what was captured (`Registry.uniform_standard`).
-/
namespace ChainCalc

section

variable {ρ : Pairing}

theorem Kernel.uniform_of_plain {compute : Kernel} (plain : compute.Plain)
    (same : ∀ (ρ : Pairing) (vs vs' : List Value), List.Forall₂ (Value.Paired ρ) vs vs' → compute vs' = compute vs) :
    compute.Uniform := by
  intro ρ vs vs' hvs
  rw [same ρ vs vs' hvs]
  cases hr : compute vs with
  | error fault => exact .error fault
  | ok v => exact .ok (.plain ((plain vs).1 v hr))

/-- Numbers are paired one to one, so functions that are told apart on one side are told apart on the other. -/
theorem Value.counterparts_paired (ρ : Pairing) : Counterparts (Value.Paired ρ) where
  shape h := by
    cases h with
    | plain plain => exact .inl ⟨rfl, plain⟩
    | function definition _ given => exact .inr ⟨_, _, rfl, rfl, definition.name, definition.params, given⟩
  apart h h' := by
    cases h with
    | plain plain => cases plain
    | function definition _ _ =>
      cases h' with
      | plain plain => cases plain
      | function definition' _ _ => exact ρ.definition_iff definition.id definition'.id

namespace Standard

/-- **No computation of the standard registry looks at the numbers of functions.** -/
theorem uniform_of_isKernel {compute : Kernel} (known : IsKernel compute) : compute.Uniform :=
  Kernel.uniform_of_plain (plain_of_isKernel known) (fun ρ _ _ h => same_of_isKernel (Value.counterparts_paired ρ).unseen known h)

end Standard

/-! ### Factories -/

theorem Node.respects_paired (ρ : Pairing) : Standard.Respects (Node.Paired ρ) where
  conditional label _ _ _ _ _ _ := .conditional label
  fetch label _ _ := .fetch label
  constant _ := .constant (.plain rfl)
  worker := .worker
  kernel name label _ _ _ known := .kernel name label (Standard.uniform_of_isKernel known)

/-- **The standard registry does not look at numbers.** -/
theorem Registry.uniform_standard : Registry.standard.Uniform :=
  fun _ mem ρ _ _ name label paired =>
    Standard.concur_of_isStandard (Node.respects_paired ρ) (Standard.isStandard_of_mem mem) ⟨paired.primitive, paired.nodes⟩
      name label

end

end ChainCalc
