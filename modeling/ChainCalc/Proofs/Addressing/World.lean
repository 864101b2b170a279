import ChainCalc.Proofs.Addressing.Layout
import ChainCalc.Proofs.Workspace.Extends
/-!
# Worlds — what nodes, values and bindings may refer to

A world says which environments are in use and in which of them each function was declared.  A node is addressed for a
layout if its parameters are places of the layout, the functions it makes or names live no deeper, and the names it will
look up are bound.  Along with that a node keeps an environment it belongs to, by a relation `Q` that is left open.

`World.Ok` is the invariant of a workspace: every binding and every body is addressed where it was written.  Functions
may be pending, which means that their bodies are still being compiled.
-/
namespace ChainCalc

/-- The environments in use, and the environment that each function was declared in. -/
structure World where
  live : Env → Prop
  home : Definition → Env → Prop

/-! ### What may be referred to -/

def Fault.isInternal : Fault → Bool
  | .internal _ => true
  | _ => false

def Fault.isAddressing : Fault → Bool
  | .unbound _ => true
  | .internal (.noArgument _ _) => true
  | .internal .noBody => true
  | _ => false

def PlainResult (r : Except Fault Value) : Prop :=
  (∀ v, r = .ok v → v.asFunction? = none) ∧ ∀ f, r = .error f → f.isAddressing = false

/-- A computation that makes no function and has no use for addresses. -/
def Kernel.Plain (compute : Kernel) : Prop := ∀ args, PlainResult (compute args)

section

variable (G : World) (w : Workspace)

/-- A value whose functions have captured what their bodies need. -/
inductive Value.Sound : Value → Prop
  | plain {v : Value} (h : v.asFunction? = none) : Sound v
  | function {d : Definition} {captured : List Activation} {applied : List Value} {env : Env} (home : G.home d env)
      (live : G.live env) (covers : Frame.Covers captured (w.layout env.path))
      (shallow : ∀ a ∈ captured, a.depth ≤ env.depth) (inside : ∀ a ∈ captured, ∀ v ∈ a.args, Sound v)
      (given : ∀ v ∈ applied, Sound v) : Sound (.function ⟨d, captured, applied⟩)

def Node.children : Node → List Node
  | .kernel _ _ operands _ => operands
  | .conditional _ condition yes no => [condition, yes, no]
  | .sequence _ items => items
  | .invoke _ _ _ args => args
  | .apply _ callee args => callee :: args
  | .fetch _ key => [key]
  | _ => []

def World.Names (L : Layout) (name : String) (env : Env) : Prop :=
  G.live env ∧ w.layout env.path <+: L ∧ (w.lookup env name).isSome = true

def Node.Refers (L : Layout) : Node → Prop
  | .constant v => v.Sound G w
  | .param _ depth index => L.Has depth index
  | .kernel _ _ _ compute => compute.Plain
  | .lambda d _ => ∃ env, G.home d env ∧ G.live env ∧ w.layout env.path <+: L
  | .functionRef name env => G.Names w L name env
  | .invoke name _ env _ => G.Names w L name env
  | _ => True

/-- **A node that can be evaluated wherever a layout is covered**, with an environment it belongs to. -/
inductive Node.Addressed (Q : Env → Node → Prop) (L : Layout) : Node → Prop
  | mk {node : Node} (root : ∃ env, G.live env ∧ w.layout env.path <+: L ∧ Q env node) (here : node.Refers G w L)
      (children : ∀ x ∈ node.children, Addressed Q L x) : Addressed Q L node

def Binding.Sound (Q : Env → Node → Prop) (env : Env) : Binding → Prop
  | .value node => node.Addressed G w Q (w.layout env.path)
  | .function d => G.home d env
  | .param depth index => (w.layout env.path).Has depth index

end

/-! ### Worlds that grow -/

/-- **Everything that could be referred to still can.** -/
structure World.Le (G : World) (w : Workspace) (G' : World) (w' : Workspace) : Prop where
  live : ∀ env, G.live env → G'.live env
  home : ∀ d env, G.home d env → G'.home d env
  layout : ∀ env, G.live env → w'.layout env.path = w.layout env.path
  bound : ∀ env, G.live env → ∀ name, (w.lookup env name).isSome = true → (w'.lookup env name).isSome = true

namespace World.Le

variable {G G₁ G₂ : World} {w w₁ w₂ : Workspace}

theorem refl (G : World) (w : Workspace) : G.Le w G w := ⟨fun _ h => h, fun _ _ h => h, fun _ _ => rfl, fun _ _ _ h => h⟩

theorem layout_isPrefix (h : G.Le w G₁ w₁) {env : Env} (live : G.live env) : w₁.layout env.path <+: w.layout env.path := by
  have hlayout := h.layout env live
  exact ⟨[], by rw [List.append_nil, hlayout]⟩

theorem trans (h : G.Le w G₁ w₁) (h' : G₁.Le w₁ G₂ w₂) : G.Le w G₂ w₂ where
  live env he := h'.live env (h.live env he)
  home d env hd := h'.home d env (h.home d env hd)
  layout env he := (h'.layout env (h.live env he)).trans (h.layout env he)
  bound env he name hb := h'.bound env (h.live env he) name (h.bound env he name hb)

theorem value (h : G.Le w G₁ w₁) {v : Value} (hv : v.Sound G w) : v.Sound G₁ w₁ := by
  induction hv with
  | plain hp => exact .plain hp
  | function home live covers shallow _ _ inside given =>
    exact .function (h.home _ _ home) (h.live _ live) (by rw [h.layout _ live]; exact covers) shallow inside given

theorem refers (h : G.Le w G₁ w₁) {L L' : Layout} (hL : L <+: L') {node : Node} (hn : node.Refers G w L) :
    node.Refers G₁ w₁ L' := by
  have names : ∀ {name env}, G.Names w L name env → G₁.Names w₁ L' name env := by
    rintro name env ⟨live, layout, bound⟩
    exact ⟨h.live _ live, by rw [h.layout _ live]; exact layout.trans hL, h.bound _ live _ bound⟩
  cases node with
  | constant v => exact h.value hn
  | param name depth index => exact Layout.Has.mono hL hn
  | lambda d body =>
    obtain ⟨env, home, live, layout⟩ := hn
    exact ⟨env, h.home _ _ home, h.live _ live, by rw [h.layout _ live]; exact layout.trans hL⟩
  | functionRef name env => exact names hn
  | invoke name site env args => exact names hn
  | kernel | conditional | sequence | apply | worker | fetch => exact hn

theorem addressed (h : G.Le w G₁ w₁) {Q : Env → Node → Prop} {L L' : Layout} (hL : L <+: L') {node : Node}
    (hn : node.Addressed G w Q L) : node.Addressed G₁ w₁ Q L' := by
  induction hn with
  | mk root here _ ih =>
    obtain ⟨env, live, layout, hq⟩ := root
    exact .mk ⟨env, h.live _ live, by rw [h.layout _ live]; exact layout.trans hL, hq⟩ (h.refers hL here) ih

theorem binding (h : G.Le w G₁ w₁) {Q : Env → Node → Prop} {env : Env} (live : G.live env) {b : Binding}
    (hb : b.Sound G w Q env) : b.Sound G₁ w₁ Q env := by
  cases b with
  | value node =>
    show node.Addressed G₁ w₁ Q (w₁.layout env.path)
    rw [h.layout env live]
    exact h.addressed List.prefix_rfl hb
  | function d => exact h.home _ _ hb
  | param depth index =>
    show (w₁.layout env.path).Has depth index
    rw [h.layout env live]
    exact hb

end World.Le

/-! ### The invariant -/

/-- **Everything in use is addressed where it was written.** -/
structure World.Ok (Q : Env → Node → Prop) (G : World) (pending : Definition → Prop) (w : Workspace) : Prop where
  placed : ∀ env, G.live env → ∀ s ∈ env.path, s.id < w.scopes.size
  depth : ∀ env, G.live env → (w.layout env.path).length = env.depth
  around : ∀ s s' outer, G.live ⟨s, s' :: outer⟩ → G.live ⟨s', outer⟩
  unique : ∀ env env', G.live env → G.live env' → env.here.id = env'.here.id → env = env'
  bindings : ∀ env, G.live env → ∀ name b, (w.scope env.here.id).get? name = some b → b.Sound G w Q env
  homes : ∀ d env, G.home d env → G.live env ∧ d.depth = env.depth + 1 ∧ d.id < w.bodies.size
  same : ∀ d env d' env', G.home d env → G.home d' env' → d.id = d'.id → d = d' ∧ env = env'
  bodies : ∀ d env, G.home d env → ¬ pending d →
    ∃ body, w.body? d = some body ∧ body.Addressed G w Q (w.layout env.path ++ [d.params.length])
  store : ∀ s, w.store = some s → ∀ key v, s.get? key = some v → v.Sound G w

end ChainCalc
