import ChainCalc.Proofs.Addressing.Growth
import ChainCalc.Proofs.Compile.Steps
import ChainCalc.Proofs.Standard.Factories
/-!
# Compiled nodes are addressed

What the compiler makes in an environment is addressed for the layout of that environment, and the invariant holds of the
workspace it leaves behind (`traced_sound`).  The proof follows one step of the compiler at a time (`sound_step`); a
function is pending from its declaration until its body is compiled, so that the body may call it.

`Traced registry Q` is compilation in which `Q` holds of every node made on the way, together with the environment that it
was made in.
-/
namespace ChainCalc

/-- A node, and what is called by it: the name of a call is compiled along with the call. -/
def Node.withCallee : Node → List Node
  | .apply site callee args => [.apply site callee args, callee]
  | node => [node]

theorem Node.self_mem_withCallee (node : Node) : node ∈ node.withCallee := by
  cases node <;> exact List.mem_cons_self

/-- **Compilation with everything that is compiled on the way**, in at most `n` nested steps: `Q` holds of all nodes and
their environments. -/
def Traced (registry : Registry) (Q : Env → Node → Prop) : Nat → Making
  | 0 => fun _ _ _ _ _ => False
  | n + 1 => fun w env e node w' =>
    (∀ x ∈ node.withCallee, Q env x) ∧ Step registry (Traced registry Q n) w env e node w'

theorem traced_of_gives {registry : Registry} : ∀ {n : Nat} {w : Workspace} {env : Env} {e : Expr} {node : Node}
    {w' : Workspace}, (compile registry n e env).Gives w node w' → Traced registry (fun _ _ => True) n w env e node w'
  | 0, _, _, _, _, _, h => by cases h
  | n + 1, _, _, _, _, _, h => by
    rw [compile_gives_iff] at h
    exact ⟨fun _ _ => trivial, h.mono (fun _ _ _ _ _ => traced_of_gives)⟩

namespace World

variable {Q : Env → Node → Prop} {G : World} {pending : Definition → Prop} {w w' : Workspace}

def Grows (G : World) (Q : Env → Node → Prop) (pending : Definition → Prop) (w w' : Workspace) (P : World → Prop) : Prop :=
  ∃ G', G.Le w G' w' ∧ G'.Ok Q pending w' ∧ P G'

theorem Ok.grows (ok : G.Ok Q pending w) {P : World → Prop} (h : P G) : G.Grows Q pending w w P := ⟨G, .refl G w, ok, h⟩

/-! ### Environments of blocks and functions -/

theorem live_cons_of_live {env : Env} (live : G.live env) (s : ScopeRef) (outer : List ScopeRef)
    (h : env.path = s :: outer) : G.live ⟨s, outer⟩ := by
  obtain ⟨here, rest⟩ := env
  cases h
  exact live

theorem Ok.layout_addScope (ok : G.Ok Q pending w) {env : Env} (live : G.live env) (s : Scope) :
    (w.addScope s).layout env.path = w.layout env.path := (ok.le_of_extends (w.extends_addScope s)).layout env live

theorem Ok.childEnv (ok : G.Ok Q pending w) {env scope : Env} (live : G.live env) {w₁ : Workspace}
    (entered : w.childEnv env = (scope, w₁)) :
    ∃ G₁, G.Le w G₁ w₁ ∧ G₁.Ok Q pending w₁ ∧ G₁.live scope ∧ Open w₁ scope ∧ w₁.layout scope.path = w.layout env.path := by
  cases entered
  have hlayout := ok.layout_addScope live Table.empty
  have hpath : (w.addScope .empty).layout (⟨w.scopes.size, env.depth⟩ :: env.path) = w.layout env.path := by
    rw [Workspace.layout, hlayout, if_neg (Nat.not_lt.2 (Nat.le_of_eq (ok.depth env live).symm))]
  refine ⟨_, ok.le_addScope _ _, ok.addScope _ (live_cons_of_live live) ?_ (fun _ _ h => ?_), .inr rfl, ?_, hpath⟩
  · rw [hpath, ok.depth env live]
  · cases h
  · show env.depth ≤ ((w.addScope .empty).layout env.path).length
    have hdepth : ((w.addScope .empty).layout env.path).length = env.depth := by rw [hlayout, ok.depth env live]
    omega

theorem Ok.functionEnv (ok : G.Ok Q pending w) {env scope : Env} (live : G.live env) {params : List String} {w₁ : Workspace}
    (entered : w.functionEnv env params = (scope, w₁)) :
    ∃ G₁, G.Le w G₁ w₁ ∧ G₁.Ok Q pending w₁ ∧ G₁.live scope ∧
      w₁.layout scope.path = w.layout env.path ++ [params.length] := by
  cases entered
  have hlayout := ok.layout_addScope live (Workspace.paramScope (env.depth + 1) params)
  have hpath : (w.addScope (Workspace.paramScope (env.depth + 1) params)).layout
      (⟨w.scopes.size, env.depth + 1⟩ :: env.path) = w.layout env.path ++ [params.length] := by
    rw [Workspace.layout, hlayout, if_pos (by rw [ok.depth env live]; exact Nat.lt_succ_self _),
      Workspace.scope_addScope_self, Workspace.paramCount_paramScope]
  refine ⟨_, ok.le_addScope _ _, ok.addScope _ (live_cons_of_live live) ?_ (fun name b h => ?_), .inr rfl, hpath⟩
  · rw [hpath, List.length_append, ok.depth env live]
    rfl
  · obtain ⟨i, hi, rfl⟩ := Workspace.mem_paramScope (Table.mem_of_get? h)
    refine ⟨env.depth, params.length, rfl, ?_, hi⟩
    rw [show Env.path ⟨⟨w.scopes.size, env.depth + 1⟩, env.path⟩ = ⟨w.scopes.size, env.depth + 1⟩ :: env.path from rfl, hpath,
      ← ok.depth env live, List.getElem?_append_right (Nat.le_refl _), Nat.sub_self]
    rfl

theorem Le.open' {G' : World} (le : G.Le w G' w') (ok : G.Ok Q pending w) {env : Env} (live : G.live env) (h : Open w env) :
    Open w' env := by
  obtain ⟨here, outer⟩ := env
  unfold Open at h ⊢
  cases outer with
  | nil => exact h
  | cons s outer =>
    have := le.layout ⟨s, outer⟩ (ok.around _ _ _ live)
    rw [show w'.layout (s :: outer) = w.layout (s :: outer) from this]
    exact h

/-! ### One step -/

def Compiles (Q : Env → Node → Prop) (make : Making) : Prop :=
  ∀ {G : World} {pending : Definition → Prop} {w w' : Workspace} {env : Env} {e : Expr} {node : Node},
    G.Ok Q pending w → G.live env → make w env e node w' →
      G.Grows Q pending w w' (fun G' => node.Addressed G' w' Q (w.layout env.path))

section

variable {make : Making} (sound : Compiles Q make)

include sound

theorem sound_all {env : Env} {es : List Expr} {nodes : List Node} (h : MakesAll make env w es nodes w') :
    ∀ {G : World}, G.Ok Q pending w → G.live env →
      G.Grows Q pending w w' (fun G' => ∀ x ∈ nodes, x.Addressed G' w' Q (w.layout env.path)) := by
  induction h with
  | nil w => exact fun ok _ => ok.grows (fun _ hx => by cases hx)
  | cons head _ ih =>
    intro G ok live
    obtain ⟨G₁, le₁, ok₁, addressed⟩ := sound ok live head
    obtain ⟨G₂, le₂, ok₂, all⟩ := ih ok₁ (le₁.live _ live)
    refine ⟨G₂, le₁.trans le₂, ok₂, fun x hx => ?_⟩
    rcases List.mem_cons.1 hx with rfl | hx
    · exact le₂.addressed List.prefix_rfl addressed
    · rw [← le₁.layout env live]
      exact all x hx

theorem sound_groups {env : Env} {groups : List (String × List Expr)} {made : List (String × List Node)}
    (h : MakesGroups make env w groups made w') : ∀ {G : World}, G.Ok Q pending w → G.live env →
      G.Grows Q pending w w' (fun G' => ∀ g ∈ made, ∀ x ∈ g.2, x.Addressed G' w' Q (w.layout env.path)) := by
  induction h with
  | nil w => exact fun ok _ => ok.grows (fun _ hg => by cases hg)
  | cons head _ ih =>
    intro G ok live
    obtain ⟨G₁, le₁, ok₁, first⟩ := sound_all sound head.2 ok live
    obtain ⟨G₂, le₂, ok₂, all⟩ := ih ok₁ (le₁.live _ live)
    refine ⟨G₂, le₁.trans le₂, ok₂, fun g hg x hx => ?_⟩
    rcases List.mem_cons.1 hg with rfl | hg
    · exact le₂.addressed List.prefix_rfl (first x hx)
    · rw [← le₁.layout env live]
      exact all g hg x hx

/-- **A pattern's node** is made of what its placeholders stand for. -/
theorem sound_builds {env : Env} {candidate : Expr} {node : Node} (ok : G.Ok Q pending w) (live : G.live env)
    (hq : Q env node) (h : Builds .standard make w env candidate node w') :
    G.Grows Q pending w w' (fun G' => node.Addressed G' w' Q (w.layout env.path)) := by
  obtain ⟨entry, captures, groups, hf, hg, hnode⟩ := h
  obtain ⟨G₁, le, ok₁, all⟩ := sound_groups sound hg ok live
  have factory := Standard.sound_of_isStandard (Standard.isStandard_of_find? hf)
  refine ⟨G₁, le, ok₁, .mk ⟨env, le.live _ live, le.layout_isPrefix live, hq⟩ (factory.refers hnode _ _ _) (fun x hx => ?_)⟩
  obtain ⟨g, hg, hxg⟩ := factory.children hnode x hx
  obtain ⟨⟨name, nodes⟩, hentry, rfl⟩ := List.mem_map.1 hg
  exact all _ (Table.mem_ofList hentry) x hxg

/-- **A definition** binds its name to something that can be used where it is written. -/
theorem sound_define {env : Env} {e : Expr} {name : String} {previous : Option Binding} (ok : G.Ok Q pending w)
    (live : G.live env) (open' : Open w env) (h : MakesDefine make env w e name previous w') :
    G.Grows Q pending w w' (fun _ => True) := by
  cases h with
  | value form named made =>
    obtain ⟨G₁, le, ok₁, addressed⟩ := sound ok live made
    have live₁ := le.live _ live
    have open₁ := le.open' ok live open'
    refine ⟨G₁, le.trans (ok₁.le_define live₁ open₁ _ _), ok₁.define live₁ open₁ _ ?_, trivial⟩
    show Node.Addressed G₁ _ Q (Workspace.layout _ env.path) _
    rw [le.layout env live]
    exact addressed
  | function form called named entered declared bound made =>
    rename_i w₁ w₂ w₃ w₄ scope d target value args params body
    obtain ⟨G₁, le₁, ok₁, liveScope, hscope⟩ := ok.functionEnv live entered
    have live₁ := le₁.live _ live
    have open₁ := le₁.open' ok live open'
    -- the function is declared, and waits for its body
    have ok₂ := ok₁.declare live₁ name params
    have le₂ := ok₁.le_declare name params (env.depth + 1) d env
    rw [declared] at ok₂ le₂
    have open₂ := le₂.open' ok₁ live₁ open₁
    -- its name is bound before the body is compiled
    have home : (G₁.withHome d env).home d env := .inr ⟨rfl, rfl⟩
    have ok₃ := ok₂.define live₁ open₂ name (b := .function d) home
    have le₃ := ok₂.le_define live₁ open₂ name (.function d)
    rw [bound] at ok₃ le₃
    obtain ⟨G₄, le₄, ok₄, addressed⟩ := sound ok₃ liveScope made
    have le : G.Le w G₄ w₄ := ((le₁.trans le₂).trans le₃).trans le₄
    refine ⟨G₄, le.trans (le_setBody G₄ w₄ d body), ok₄.setBody (le₄.home _ _ home) ?_, trivial⟩
    have hparams : d.params = params := congrArg (fun p => p.1.params) declared.symm
    rw [le.layout env live, hparams, ← hscope, ← (le₂.trans le₃).layout scope liveScope]
    exact addressed

/-- **Statements in order**, each in what the ones before it have left. -/
theorem sound_statements {env : Env} {ss : List Expr} {nodes : List Node} {ends ends' : Bool}
    (h : MakesStatements make env w ss ends nodes ends' w') : ∀ {G : World}, G.Ok Q pending w → G.live env → Open w env →
      G.Grows Q pending w w' (fun G' => ∀ x ∈ nodes, x.Addressed G' w' Q (w.layout env.path)) := by
  induction h with
  | nil w ends => exact fun ok _ _ => ok.grows (fun _ hx => by cases hx)
  | define is head _ ih =>
    intro G ok live open'
    obtain ⟨G₁, le₁, ok₁, -⟩ := sound_define sound ok live open' head
    obtain ⟨G₂, le₂, ok₂, all⟩ := ih ok₁ (le₁.live _ live) (le₁.open' ok live open')
    refine ⟨G₂, le₁.trans le₂, ok₂, ?_⟩
    rw [← le₁.layout env live]
    exact all
  | expr is head _ ih =>
    intro G ok live open'
    obtain ⟨G₁, le₁, ok₁, addressed⟩ := sound ok live head
    obtain ⟨G₂, le₂, ok₂, all⟩ := ih ok₁ (le₁.live _ live) (le₁.open' ok live open')
    refine ⟨G₂, le₁.trans le₂, ok₂, fun x hx => ?_⟩
    rcases List.mem_cons.1 hx with rfl | hx
    · exact le₂.addressed List.prefix_rfl addressed
    · rw [← le₁.layout env live]
      exact all x hx

/-- **One step of the compiler** makes a node that is addressed where it is made. -/
theorem sound_step {env : Env} {e : Expr} {node : Node} (ok : G.Ok Q pending w) (live : G.live env)
    (hq : ∀ x ∈ node.withCallee, Q env x) (h : Step .standard make w env e node w') :
    G.Grows Q pending w w' (fun G' => node.Addressed G' w' Q (w.layout env.path)) := by
  -- the environment that a node belongs to, once it is known how the world has grown
  have root' : ∀ {x G' w'}, x ∈ node.withCallee → G.Le w G' w' →
      ∃ e, G'.live e ∧ w'.layout e.path <+: w.layout env.path ∧ Q e x :=
    fun hx le => ⟨env, le.live _ live, le.layout_isPrefix live, hq _ hx⟩
  have root : ∀ {G' w'}, G.Le w G' w' → ∃ e, G'.live e ∧ w'.layout e.path <+: w.layout env.path ∧ Q e node :=
    root' node.self_mem_withCallee
  cases h with
  | literal form =>
    rename_i value
    exact ok.grows (.mk (root (.refl G w)) (.plain (by cases value <;> rfl)) (fun _ hx => by cases hx))
  | variableName form bound =>
    obtain ⟨env₀, live₀, layout₀, addressed⟩ := ok.lookup live bound
    exact ok.grows ((Le.refl G w).addressed layout₀ addressed)
  | parameterName form bound =>
    obtain ⟨env₀, live₀, layout₀, has⟩ := ok.lookup live bound
    exact ok.grows (.mk (root (.refl G w)) (Layout.Has.mono layout₀ has) (fun _ hx => by cases hx))
  | functionName form bound =>
    exact ok.grows (.mk (root (.refl G w)) ⟨live, List.prefix_rfl, by rw [bound]; rfl⟩ (fun _ hx => by cases hx))
  | pattern asks built => exact sound_builds sound ok live (hq _ node.self_mem_withCallee) built
  | lambda form last named entered made declared =>
    rename_i w₁ w₂ w₃ scope body args params body' d
    obtain ⟨G₁, le₁, ok₁, liveScope, hscope⟩ := ok.functionEnv live entered
    obtain ⟨G₂, le₂, ok₂, addressed⟩ := sound ok₁ liveScope made
    have le₁₂ := le₁.trans le₂
    have ok₃ := ok₂.declare (le₁₂.live _ live) "lambda" params
    have le₃ := ok₂.le_declare "lambda" params (env.depth + 1) d env
    rw [declared] at ok₃ le₃
    have home : (G₂.withHome d env).home d env := .inr ⟨rfl, rfl⟩
    have le : G.Le w (G₂.withHome d env) (w₃.setBody d body') := (le₁₂.trans le₃).trans (le_setBody _ w₃ d body')
    refine ⟨_, le, ok₃.setBody home ?_, .mk (root le) ⟨env, home, le.live _ live, le.layout_isPrefix live⟩
      (fun _ hx => by cases hx)⟩
    have hparams : d.params = params := congrArg (fun p => p.1.params) declared.symm
    rw [(le₁₂.trans le₃).layout env live, hparams, ← hscope]
    exact le₃.addressed List.prefix_rfl addressed
  | block form entered made =>
    obtain ⟨G₁, le₁, ok₁, liveScope, openScope, hscope⟩ := ok.childEnv live entered
    obtain ⟨G₂, le₂, ok₂, all⟩ := sound_statements sound made ok₁ liveScope openScope
    rw [hscope] at all
    exact ⟨G₂, le₁.trans le₂, ok₂, .mk (root (le₁.trans le₂)) trivial all⟩
  | callFunction form plain bound made =>
    obtain ⟨G₁, le, ok₁, all⟩ := sound_all sound made ok live
    exact ⟨G₁, le, ok₁, .mk (root le) ⟨le.live _ live, le.layout_isPrefix live, le.bound env live _ (by rw [bound]; rfl)⟩ all⟩
  | callVariable form plain bound made =>
    obtain ⟨env₀, live₀, layout₀, addressed⟩ := ok.lookup live bound
    obtain ⟨G₁, le, ok₁, all⟩ := sound_all sound made ok live
    refine ⟨G₁, le, ok₁, .mk (root le) trivial (fun x hx => ?_)⟩
    rcases List.mem_cons.1 hx with rfl | hx
    · exact le.addressed layout₀ addressed
    · exact all x hx
  | callParameter form plain bound made =>
    rename_i f args depth index nodes
    obtain ⟨env₀, live₀, layout₀, has⟩ := ok.lookup live bound
    obtain ⟨G₁, le, ok₁, all⟩ := sound_all sound made ok live
    refine ⟨G₁, le, ok₁, .mk (root le) trivial (fun x hx => ?_)⟩
    rcases List.mem_cons.1 hx with rfl | hx
    · exact .mk (root' (by simp [Node.withCallee]) le) (Layout.Has.mono layout₀ has) (fun _ hx => by cases hx)
    · exact all x hx

end

/-- **Compiled nodes are addressed.** -/
theorem traced_sound : ∀ n : Nat, Compiles Q (Traced .standard Q n)
  | 0 => fun _ _ h => h.elim
  | n + 1 => fun ok live h => sound_step (traced_sound n) ok live h.1 h.2

end World

end ChainCalc
