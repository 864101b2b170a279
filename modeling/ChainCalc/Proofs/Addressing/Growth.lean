import ChainCalc.Proofs.Addressing.World
/-!
# Growth — what each change to a workspace does to the invariant

Compilation changes a workspace in five ways: it adds a scope, declares a function, binds a name, gives a function its
body, or fails and leaves things behind that nothing refers to.  Each of them keeps `World.Ok`, in a world that has grown
by what was added.
-/
namespace ChainCalc

namespace World

variable {Q : Env → Node → Prop} {G : World} {pending : Definition → Prop} {w w' : Workspace}

/-! ### Environments in use -/

theorem Ok.live_of_suffix (ok : G.Ok Q pending w) : ∀ {env : Env} {s : ScopeRef} {outer : List ScopeRef}, G.live env →
    s :: outer <:+ env.path → G.live ⟨s, outer⟩
  | ⟨here, []⟩, s, outer, live, h => by
    obtain ⟨rfl, rfl⟩ : s = here ∧ outer = [] := by
      rcases List.suffix_cons_iff.1 h with h | h
      · exact ⟨(List.cons.inj h).1, (List.cons.inj h).2⟩
      · cases List.suffix_nil.1 h
    exact live
  | ⟨here, s' :: outer'⟩, s, outer, live, h => by
    rcases List.suffix_cons_iff.1 h with h | h
    · obtain ⟨rfl, rfl⟩ := List.cons.inj h
      exact live
    · have around : G.live ⟨s', outer'⟩ := ok.around _ _ _ live
      exact ok.live_of_suffix around h

theorem lookupPath_eq_some {name : String} {b : Binding} : ∀ {path : List ScopeRef}, w.lookupPath name path = some b →
    ∃ s outer, s :: outer <:+ path ∧ (w.scope s.id).get? name = some b
  | [], h => by cases h
  | s :: outer, h => by
    unfold Workspace.lookupPath at h
    split at h
    · rename_i hb
      cases h
      exact ⟨s, outer, List.suffix_rfl, hb⟩
    · obtain ⟨s', outer', hs, hb⟩ := lookupPath_eq_some h
      exact ⟨s', outer', hs.trans (List.suffix_cons _ _), hb⟩

/-- **What a name is bound to can be used**: its binding was written in one of the environments around. -/
theorem Ok.lookup (ok : G.Ok Q pending w) {env : Env} (live : G.live env) {name : String} {b : Binding}
    (h : w.lookup env name = some b) :
    ∃ env₀, G.live env₀ ∧ w.layout env₀.path <+: w.layout env.path ∧ b.Sound G w Q env₀ := by
  obtain ⟨s, outer, hs, hb⟩ := lookupPath_eq_some h
  have live₀ := ok.live_of_suffix live hs
  exact ⟨⟨s, outer⟩, live₀, w.layout_of_suffix hs, ok.bindings _ live₀ name b hb⟩

/-! ### Scopes that keep their names -/

theorem isSome_lookupPath {name : String} : ∀ {path : List ScopeRef},
    (∀ s ∈ path, ((w.scope s.id).get? name).isSome = true → ((w'.scope s.id).get? name).isSome = true) →
      (w.lookupPath name path).isSome = true → (w'.lookupPath name path).isSome = true
  | [], _, h => h
  | s :: outer, keep, h => by
    unfold Workspace.lookupPath at h ⊢
    cases hb' : (w'.scope s.id).get? name with
    | some b => rfl
    | none =>
      cases hb : (w.scope s.id).get? name with
      | some b =>
        have := keep s List.mem_cons_self (by rw [hb]; rfl)
        rw [hb'] at this
        cases this
      | none =>
        rw [hb] at h
        exact isSome_lookupPath (fun s' hs' => keep s' (List.mem_cons_of_mem _ hs')) h

theorem Ok.le_of_scopes (ok : G.Ok Q pending w) {G' : World} (live : ∀ env, G.live env → G'.live env)
    (home : ∀ d env, G.home d env → G'.home d env)
    (functions : ∀ env, G.live env → (w.layout env.outer).length < env.depth → w'.scope env.here.id = w.scope env.here.id)
    (names : ∀ env, G.live env → ∀ name, ((w.scope env.here.id).get? name).isSome = true →
      ((w'.scope env.here.id).get? name).isSome = true) : G.Le w G' w' where
  live := live
  home := home
  layout env he := Workspace.layout_congr env.path (fun s outer hs counted =>
    functions ⟨s, outer⟩ (ok.live_of_suffix he hs) counted)
  bound env he name hb := isSome_lookupPath (fun s hs => by
    obtain ⟨front, back, hsplit⟩ := List.append_of_mem hs
    exact names ⟨s, back⟩ (ok.live_of_suffix he ⟨front, hsplit.symm⟩) name) hb

/-! ### Things left behind -/

theorem Ok.le_of_extends (ok : G.Ok Q pending w) (h : w.Extends w') : G.Le w G w' := by
  have hscope : ∀ env, G.live env → w'.scope env.here.id = w.scope env.here.id := fun env he =>
    h.scope _ (ok.placed env he env.here List.mem_cons_self)
  refine ok.le_of_scopes (fun _ he => he) (fun _ _ hd => hd) (fun env he _ => hscope env he) (fun env he name hb => ?_)
  rw [hscope env he]
  exact hb

/-- **What nothing refers to makes no difference.** -/
theorem Ok.extends (ok : G.Ok Q pending w) (h : w.Extends w') : G.Ok Q pending w' := by
  have le := ok.le_of_extends h
  refine ⟨fun env he s hs => Nat.lt_of_lt_of_le (ok.placed env he s hs) h.scopes, fun env he => ?_, ok.around, ok.unique,
    fun env he name b hb => ?_, fun d env hd => ?_, ok.same, fun d env hd hp => ?_, fun s hs key v hv => ?_⟩
  · rw [le.layout env he, ok.depth env he]
  · rw [h.scope _ (ok.placed env he env.here List.mem_cons_self)] at hb
    exact le.binding he (ok.bindings env he name b hb)
  · obtain ⟨live, depth, hid⟩ := ok.homes d env hd
    exact ⟨live, depth, Nat.lt_of_lt_of_le hid h.bodies⟩
  · obtain ⟨body, hbody, addressed⟩ := ok.bodies d env hd hp
    obtain ⟨live, -, hid⟩ := ok.homes d env hd
    refine ⟨body, ?_, ?_⟩
    · unfold Workspace.body? at hbody ⊢
      rw [h.body _ hid, hbody]
    · rw [le.layout env live]
      exact le.addressed List.prefix_rfl addressed
  · rw [h.store] at hs
    exact le.value (ok.store s hs key v hv)

/-! ### A new scope -/

def withEnv (G : World) (env : Env) : World := ⟨fun e => G.live e ∨ e = env, G.home⟩

theorem Ok.le_addScope (ok : G.Ok Q pending w) (s : Scope) (env : Env) : G.Le w (G.withEnv env) (w.addScope s) := by
  have le := ok.le_of_extends (w.extends_addScope s)
  exact ⟨fun _ he => .inl he, fun _ _ hd => hd, le.layout, le.bound⟩

/-- **A new scope** inside an environment in use, or with nothing around it. -/
theorem Ok.addScope (ok : G.Ok Q pending w) (s : Scope) {depth : Nat} {outer : List ScopeRef}
    (around : ∀ s' outer', outer = s' :: outer' → G.live ⟨s', outer'⟩)
    (hdepth : ((w.addScope s).layout (⟨w.scopes.size, depth⟩ :: outer)).length = depth)
    (bindings : ∀ name b, s.get? name = some b →
      b.Sound (G.withEnv ⟨⟨w.scopes.size, depth⟩, outer⟩) (w.addScope s) Q ⟨⟨w.scopes.size, depth⟩, outer⟩) :
    (G.withEnv ⟨⟨w.scopes.size, depth⟩, outer⟩).Ok Q pending (w.addScope s) := by
  have ok' := ok.extends (w.extends_addScope s)
  have le : G.Le (w.addScope s) (G.withEnv ⟨⟨w.scopes.size, depth⟩, outer⟩) (w.addScope s) :=
    ⟨fun _ he => .inl he, fun _ _ hd => hd, fun _ _ => rfl, fun _ _ _ h => h⟩
  have hnew : ∀ env, G.live env → env.here.id ≠ w.scopes.size := fun env he =>
    Nat.ne_of_lt (ok.placed env he env.here List.mem_cons_self)
  refine ⟨?_, ?_, ?_, ?_, ?_, fun d env hd => ?_, ok'.same, fun d env hd hp => ?_, fun s hs key v hv => ?_⟩
  · rintro env (he | rfl) s' hs'
    · exact ok'.placed env he s' hs'
    · rcases List.mem_cons.1 hs' with rfl | hs'
      · show w.scopes.size < (w.scopes.push s).size
        simp
      · match outer, around, hs' with
        | s₁ :: outer₁, around, hs' => exact ok'.placed _ (around s₁ outer₁ rfl) s' hs'
  · rintro env (he | rfl)
    · exact ok'.depth env he
    · exact hdepth
  · rintro s₁ s₂ outer₁ (he | he)
    · exact .inl (ok'.around _ _ _ he)
    · cases he
      exact .inl (around s₂ outer₁ rfl)
  · rintro env env' (he | rfl) (he' | rfl) hid
    · exact ok'.unique env env' he he' hid
    · exact absurd hid (hnew env he)
    · exact absurd hid.symm (hnew env' he')
    · rfl
  · rintro env (he | rfl) name b hb
    · exact le.binding he (ok'.bindings env he name b hb)
    · rw [Workspace.scope_addScope_self] at hb
      exact bindings name b hb
  · obtain ⟨live, hd', hid⟩ := ok'.homes d env hd
    exact ⟨.inl live, hd', hid⟩
  · obtain ⟨body, hbody, addressed⟩ := ok'.bodies d env hd hp
    exact ⟨body, hbody, le.addressed List.prefix_rfl addressed⟩
  · exact le.value (ok'.store s hs key v hv)

/-! ### A new function -/

def withHome (G : World) (d : Definition) (env : Env) : World := ⟨G.live, fun d' env' => G.home d' env' ∨ (d' = d ∧ env' = env)⟩

theorem Ok.le_declare (ok : G.Ok Q pending w) (name : String) (params : List String) (depth : Nat) (d : Definition)
    (env : Env) : G.Le w (G.withHome d env) (w.declare name params depth).2 := by
  have le := ok.le_of_extends (w.extends_declare name params depth)
  exact ⟨fun _ he => he, fun _ _ hd => .inl hd, le.layout, le.bound⟩

/-- **A new function**, which waits for its body. -/
theorem Ok.declare (ok : G.Ok Q pending w) {env : Env} (live : G.live env) (name : String) (params : List String) :
    (G.withHome (w.declare name params (env.depth + 1)).1 env).Ok Q
      (fun d => pending d ∨ d = (w.declare name params (env.depth + 1)).1) (w.declare name params (env.depth + 1)).2 := by
  have ok' := ok.extends (w.extends_declare name params (env.depth + 1))
  generalize hd₀ : (w.declare name params (env.depth + 1)).1 = d₀
  have hid₀ : d₀.id = w.bodies.size := by rw [← hd₀]; rfl
  have hdepth₀ : d₀.depth = env.depth + 1 := by rw [← hd₀]; rfl
  have hold : ∀ d e, G.home d e → d.id ≠ d₀.id := fun d e hd => by
    rw [hid₀]
    exact Nat.ne_of_lt (ok.homes d e hd).2.2
  generalize hw' : (w.declare name params (env.depth + 1)).2 = w' at ok'
  have hsize : w'.bodies.size = w.bodies.size + 1 := by
    rw [← hw']
    show (w.bodies.push none).size = _
    simp
  have le : G.Le w' (G.withHome d₀ env) w' := ⟨fun _ he => he, fun _ _ hd => .inl hd, fun _ _ => rfl, fun _ _ _ h => h⟩
  refine ⟨ok'.placed, ok'.depth, ok'.around, ok'.unique, fun e he name b hb => le.binding he (ok'.bindings e he name b hb),
    ?_, ?_, ?_, fun s hs key v hv => le.value (ok'.store s hs key v hv)⟩
  · rintro d e (hd | ⟨rfl, rfl⟩)
    · exact ok'.homes d e hd
    · exact ⟨live, hdepth₀, by omega⟩
  · rintro d e d' e' (hd | ⟨rfl, rfl⟩) (hd' | ⟨rfl, rfl⟩) hid
    · exact ok'.same d e d' e' hd hd' hid
    · exact absurd hid (hold d e hd)
    · exact absurd hid.symm (hold d' e' hd')
    · exact ⟨rfl, rfl⟩
  · rintro d e (hd | ⟨rfl, rfl⟩) hp
    · obtain ⟨body, hbody, addressed⟩ := ok'.bodies d e hd (fun h => hp (.inl h))
      exact ⟨body, hbody, le.addressed List.prefix_rfl addressed⟩
    · exact absurd (.inr rfl) hp

/-! ### A body for a function -/

theorem le_setBody (G : World) (w : Workspace) (d : Definition) (body : Node) : G.Le w G (w.setBody d body) :=
  ⟨fun _ he => he, fun _ _ hd => hd, fun env _ => Workspace.layout_congr env.path (fun _ _ _ _ => rfl),
    fun env _ _ h => by
      show ((w.setBody d body).lookupPath _ env.path).isSome = true
      exact isSome_lookupPath (w := w) (fun _ _ h => h) h⟩

/-- **A function gets its body** and waits no longer. -/
theorem Ok.setBody {d : Definition} (ok : G.Ok Q (fun d' => pending d' ∨ d' = d) w) {env : Env} (home : G.home d env)
    {body : Node} (addressed : body.Addressed G w Q (w.layout env.path ++ [d.params.length])) :
    G.Ok Q pending (w.setBody d body) := by
  have le := le_setBody G w d body
  have hsize : (w.setBody d body).bodies.size = w.bodies.size := by simp [Workspace.setBody]
  refine ⟨ok.placed, fun e he => ?_, ok.around, ok.unique, fun e he name b hb => le.binding he (ok.bindings e he name b hb),
    fun d' e hd => ?_, ok.same, fun d' e hd hp => ?_, fun s hs key v hv => le.value (ok.store s hs key v hv)⟩
  · rw [le.layout e he]
    exact ok.depth e he
  · rw [hsize]
    exact ok.homes d' e hd
  · by_cases hdd : d' = d
    · subst hdd
      obtain ⟨-, rfl⟩ := ok.same _ _ _ _ hd home rfl
      refine ⟨body, ?_, ?_⟩
      · unfold Workspace.body?
        show ((w.bodies.setIfInBounds d'.id (some body))[d'.id]?).join = _
        rw [Array.getElem?_setIfInBounds_self_of_lt (ok.homes d' e hd).2.2]
        rfl
      · rw [le.layout e (ok.homes d' e hd).1]
        exact le.addressed List.prefix_rfl addressed
    · obtain ⟨body', hbody, addressed'⟩ := ok.bodies d' e hd (fun h => h.elim hp hdd)
      refine ⟨body', ?_, ?_⟩
      · have hid : d.id ≠ d'.id := fun h => hdd (ok.same d' e d env hd home h.symm).1
        unfold Workspace.body? at hbody ⊢
        show ((w.bodies.setIfInBounds d.id (some body))[d'.id]?).join = _
        rw [Array.getElem?_setIfInBounds_ne hid, hbody]
      · rw [le.layout e (ok.homes d' e hd).1]
        exact le.addressed List.prefix_rfl addressed'

/-! ### A name bound -/

/-- The environment is not that of a function's parameters, so names may be defined in it. -/
def Open (w : Workspace) (env : Env) : Prop := env.depth ≤ (w.layout env.outer).length

theorem scope_define_ne (w : Workspace) {env : Env} {i : Nat} (h : i ≠ env.here.id) (name : String) (b : Binding) :
    (w.define env name b).2.scope i = w.scope i := by
  obtain ⟨warnings, hw⟩ := w.define_snd env name b
  rw [hw]
  exact w.scope_updateScope_ne h _

theorem scope_define_self (w : Workspace) {env : Env} (h : env.here.id < w.scopes.size) (name : String) (b : Binding) :
    (w.define env name b).2.scope env.here.id = (w.scope env.here.id).insert name b := by
  obtain ⟨warnings, hw⟩ := w.define_snd env name b
  rw [hw]
  exact w.scope_updateScope_self h _

theorem Ok.le_define (ok : G.Ok Q pending w) {env : Env} (live : G.live env) (open' : Open w env) (name : String)
    (b : Binding) : G.Le w G (w.define env name b).2 := by
  refine ok.le_of_scopes (fun _ he => he) (fun _ _ hd => hd) (fun e he counted => ?_) (fun e he x hx => ?_)
  · refine scope_define_ne w (fun hid => ?_) name b
    obtain rfl := ok.unique e env he live hid
    exact absurd counted (Nat.not_lt.2 open')
  · by_cases hid : e.here.id = env.here.id
    · obtain rfl := ok.unique e env he live hid
      rw [scope_define_self w (ok.placed e he e.here List.mem_cons_self)]
      by_cases hname : x = name
      · rw [hname, Table.get?_insert_self]
        rfl
      · rw [Table.get?_insert_ne _ hname]
        exact hx
    · rw [scope_define_ne w hid]
      exact hx

/-- **A name bound in an environment**, to something that can be used there. -/
theorem Ok.define (ok : G.Ok Q pending w) {env : Env} (live : G.live env) (open' : Open w env) (name : String) {b : Binding}
    (hb : b.Sound G w Q env) : G.Ok Q pending (w.define env name b).2 := by
  have le := ok.le_define live open' name b
  have hscopes : ((w.define env name b).2).scopes.size = w.scopes.size := by
    obtain ⟨warnings, hw⟩ := w.define_snd env name b
    rw [hw]
    exact w.size_scopes_updateScope _ _
  have hbodies : ((w.define env name b).2).bodies = w.bodies := by
    obtain ⟨warnings, hw⟩ := w.define_snd env name b
    rw [hw]
    rfl
  have hstore : ((w.define env name b).2).store = w.store := by
    obtain ⟨warnings, hw⟩ := w.define_snd env name b
    rw [hw]
    rfl
  refine ⟨fun e he s hs => by rw [hscopes]; exact ok.placed e he s hs, fun e he => ?_, ok.around, ok.unique, ?_,
    fun d e hd => by rw [hbodies]; exact ok.homes d e hd, ok.same, fun d e hd hp => ?_, fun s hs key v hv => ?_⟩
  · rw [le.layout e he, ok.depth e he]
  · intro e he x b' hb'
    by_cases hid : e.here.id = env.here.id
    · obtain rfl := ok.unique e env he live hid
      rw [scope_define_self w (ok.placed e he e.here List.mem_cons_self)] at hb'
      by_cases hname : x = name
      · rw [hname, Table.get?_insert_self] at hb'
        cases hb'
        exact le.binding he hb
      · rw [Table.get?_insert_ne _ hname] at hb'
        exact le.binding he (ok.bindings e he x b' hb')
    · rw [scope_define_ne w hid] at hb'
      exact le.binding he (ok.bindings e he x b' hb')
  · obtain ⟨body, hbody, addressed⟩ := ok.bodies d e hd hp
    refine ⟨body, ?_, ?_⟩
    · unfold Workspace.body? at hbody ⊢
      rw [hbodies, hbody]
    · rw [le.layout e (ok.homes d e hd).1]
      exact le.addressed List.prefix_rfl addressed
  · rw [hstore] at hs
    exact le.value (ok.store s hs key v hv)

end World

end ChainCalc
