import ChainCalc.Proofs.Compile.Acceptance
import ChainCalc.Proofs.Renaming.Evaluation
import ChainCalc.Proofs.Renaming.Spelling
/-!
# Scopes side by side — the workspaces of a program and of a renamed one

Both programs make the same scopes and functions in the same order, in a workspace that may have scopes already; those
are numbered below `base`.  A scope of parameters in which `x` was renamed has `y` instead; all other names are bound alike
on both sides.  So `x` stands for the renamed parameter exactly where the second workspace has `y` bound in a new scope
that is nearer than every scope with `x` (`Workspace.renamedAt`).
-/
namespace ChainCalc

section

variable (base : Nat) (x y : String)

def Workspace.renamedAt (w : Workspace) : List ScopeRef → Bool
  | [] => false
  | s :: outer =>
    decide (base ≤ s.id) && ((w.scope s.id).get? y).isSome || ((w.scope s.id).get? x).isNone && w.renamedAt outer

/-- A name that may be looked up in both workspaces: `y` only where all scopes are old, and `x` only where it does not stand
for the renamed parameter. -/
def Usable (w' : Workspace) (name : String) (env : Env) : Prop :=
  env.Within w' ∧ (name = y → ∀ s ∈ env.path, s.id < base) ∧ (name = x → w'.renamedAt base x y env.path = false)

def Layered (path : List ScopeRef) : Prop := path.Pairwise (fun s outer => s.id < base → outer.id < base)

/-- An environment whose own scope is not one of a renamed parameter, so that names may be defined in it. -/
def Env.Plain (w' : Workspace) (env : Env) : Prop := base ≤ env.here.id → (w'.scope env.here.id).get? y = none

/-- Scopes that bind all names alike, or all but a parameter that is `x` in the first and `y` in the second.  The name `y` is
bound in old scopes only, but for that. -/
structure Scope.Mirror (old : Prop) (P : String → Env → Prop) (s s' : Scope) : Prop where
  others : ∀ name, name ≠ x → (name = y → old) → Option.Rel (Binding.Sim P) (s.get? name) (s'.get? name)
  either : ((¬ old → s'.get? y = none) ∧ Option.Rel (Binding.Sim P) (s.get? x) (s'.get? x)) ∨
    (¬ old ∧ s'.get? x = none ∧
      ∃ depth index, s.get? x = some (.param depth index) ∧ s'.get? y = some (.param depth index))

/-- **Workspaces of a program and of a renamed one.** -/
structure Workspace.Mirror (w w' : Workspace) : Prop where
  started : base ≤ w.scopes.size
  scopes : w'.scopes.size = w.scopes.size
  bodies : w'.bodies.size = w.bodies.size
  store : w'.store = w.store
  scope : ∀ i, Scope.Mirror x y (i < base) (Usable base x y w') (w.scope i) (w'.scope i)
  body : ∀ i : Nat, Option.Rel (Node.Sim (Usable base x y w')) (w.bodies[i]?).join (w'.bodies[i]?).join

end

section

variable {base : Nat} {x y : String}

theorem Scope.Mirror.mono {old : Prop} {P P' : String → Env → Prop} (h : ∀ name env, P name env → P' name env) {s s' : Scope}
    (mirror : Scope.Mirror x y old P s s') : Scope.Mirror x y old P' s s' where
  others name hx hy := optionRel_imp (fun _ _ => Binding.Sim.mono h) (mirror.others name hx hy)
  either := mirror.either.imp (fun ⟨hy, hx⟩ => ⟨hy, optionRel_imp (fun _ _ => Binding.Sim.mono h) hx⟩) id

/-! ### Names looked up -/

theorem Workspace.renamedAt_congr {w w' : Workspace} : ∀ {path : List ScopeRef},
    (∀ s ∈ path, (w'.scope s.id).get? x = (w.scope s.id).get? x ∧ (w'.scope s.id).get? y = (w.scope s.id).get? y) →
      w'.renamedAt base x y path = w.renamedAt base x y path
  | [], _ => rfl
  | s :: outer, h => by
    rw [List.forall_mem_cons] at h
    rw [renamedAt, renamedAt, h.1.1, h.1.2, renamedAt_congr h.2]

theorem Workspace.renamedAt_old {w : Workspace} : ∀ {path : List ScopeRef}, (∀ s ∈ path, s.id < base) →
    w.renamedAt base x y path = false
  | [], _ => rfl
  | s :: outer, h => by
    rw [List.forall_mem_cons] at h
    rw [renamedAt, renamedAt_old h.2, decide_eq_false (Nat.not_le.2 h.1), Bool.and_false, Bool.false_and, Bool.or_false]

namespace Workspace.Mirror

variable {w w' : Workspace}

/-- **A name that is not the renamed parameter is bound alike.** -/
theorem lookupPath (h : w.Mirror base x y w') {name : String} : ∀ {path : List ScopeRef},
    (name = y → ∀ s ∈ path, s.id < base) → (name = x → w'.renamedAt base x y path = false) →
      Option.Rel (Binding.Sim (Usable base x y w')) (w.lookupPath name path) (w'.lookupPath name path)
  | [], _, _ => .none
  | s :: outer, hy, hx => by
    have mirror := h.scope s.id
    -- the nearest scope first: what it binds is alike, unless it has the renamed parameter
    have here : Option.Rel (Binding.Sim (Usable base x y w')) ((w.scope s.id).get? name) ((w'.scope s.id).get? name) := by
      by_cases hname : name = x
      · have hflag := hx hname
        rw [Workspace.renamedAt, Bool.or_eq_false_iff] at hflag
        rw [hname]
        rcases mirror.either with ⟨-, hrel⟩ | ⟨new, -, depth, index, -, hsome⟩
        · exact hrel
        · rw [hsome, decide_eq_true (Nat.not_lt.1 new)] at hflag
          cases hflag.1
      · exact mirror.others name hname (fun hname' => hy hname' s List.mem_cons_self)
    rw [Workspace.lookupPath, Workspace.lookupPath]
    generalize hb : (w.scope s.id).get? name = b at here
    generalize hb' : (w'.scope s.id).get? name = b' at here
    cases here with
    | some hab => exact .some hab
    | none =>
      refine h.lookupPath (fun hname s' hs' => hy hname s' (List.mem_cons_of_mem _ hs')) (fun hname => ?_)
      have hflag := hx hname
      rw [Workspace.renamedAt, Bool.or_eq_false_iff, ← hname, hb'] at hflag
      simpa [hname] using hflag.2

/-- **The renamed parameter** is bound as `x` in the first workspace and as `y` in the second. -/
theorem parameter (h : w.Mirror base x y w') : ∀ {path : List ScopeRef}, Layered base path →
    w'.renamedAt base x y path = true →
      ∃ depth index, w.lookupPath x path = some (.param depth index) ∧ w'.lookupPath y path = some (.param depth index)
  | [], _, hflag => by cases hflag
  | s :: outer, layered, hflag => by
    obtain ⟨hs, layered⟩ := List.pairwise_cons.1 layered
    rw [Workspace.lookupPath, Workspace.lookupPath]
    rw [Workspace.renamedAt, Bool.or_eq_true, Bool.and_eq_true, Bool.and_eq_true, Option.isNone_iff_eq_none,
      decide_eq_true_eq] at hflag
    rcases (h.scope s.id).either with ⟨hnone, hrel⟩ | ⟨-, -, depth, index, hx, hy⟩
    · rcases hflag with ⟨new, hsome⟩ | ⟨hx', houter⟩
      · rw [hnone (Nat.not_lt.2 new)] at hsome
        cases hsome
      · -- an old scope has only old ones around it, where nothing was renamed
        have new : ¬ s.id < base := by
          intro old
          rw [Workspace.renamedAt_old (fun t ht => hs t ht old)] at houter
          cases houter
        obtain ⟨depth, index, hx, hy⟩ := h.parameter layered houter
        rw [hnone new]
        rw [hx'] at hrel
        generalize (w.scope s.id).get? x = b at hrel ⊢
        cases hrel
        exact ⟨depth, index, hx, hy⟩
    · rw [hx, hy]
      exact ⟨depth, index, rfl, rfl⟩

/-- **What evaluation needs to know about two such workspaces.** -/
theorem alike (h : w.Mirror base x y w') : Alike (Usable base x y w') w w' where
  lookup _ _ usable := h.lookupPath usable.2.1 usable.2.2
  body := h.body

end Workspace.Mirror

/-! ### Workspaces that grow -/

theorem Workspace.Extends.renamedAt {w w' : Workspace} (h : w.Extends w') {env : Env} (within : env.Within w) :
    w'.renamedAt base x y env.path = w.renamedAt base x y env.path :=
  Workspace.renamedAt_congr (fun s hs => by rw [h.scope s.id (within s hs)]; exact ⟨rfl, rfl⟩)

theorem Usable.grow {w w' : Workspace} (h : w.Extends w') {name : String} {env : Env} (usable : Usable base x y w name env) :
    Usable base x y w' name env :=
  ⟨h.within usable.1, usable.2.1, fun hname => by rw [h.renamedAt usable.1]; exact usable.2.2 hname⟩

theorem Usable.congr {w w' : Workspace} (h : w'.scopes = w.scopes) (name : String) (env : Env)
    (usable : Usable base x y w name env) : Usable base x y w' name env := by
  have hscope : ∀ i, w'.scope i = w.scope i := fun i => by unfold Workspace.scope; rw [h]
  have hflag : w'.renamedAt base x y env.path = w.renamedAt base x y env.path :=
    Workspace.renamedAt_congr (fun s _ => by rw [hscope]; exact ⟨rfl, rfl⟩)
  exact ⟨fun s hs => by rw [h]; exact usable.1 s hs, usable.2.1, fun hname => by rw [hflag]; exact usable.2.2 hname⟩

section

variable {w : Workspace} {env : Env} {f : String} {b : Binding} (within : env.Within w) (hf : f ≠ y)

include within hf

theorem Workspace.renamedAt_define (plain : env.Plain base y w) :
    (w.define env f b).2.renamedAt base x y env.path = (w.renamedAt base x y env.path && f != x) := by
  have hy := fun i => w.get?_scope_define_ne within (Ne.symm hf) b i
  by_cases hx : f = x
  · have here : (decide (base ≤ env.here.id) && ((w.scope env.here.id).get? y).isSome) = false := by
      rw [Bool.and_eq_false_iff, decide_eq_false_iff_not]
      by_cases new : base ≤ env.here.id
      · right
        rw [plain new]
        rfl
      · exact .inl new
    show Workspace.renamedAt base x y _ (env.here :: env.outer) = _
    rw [renamedAt, hy, here, ← hx, w.get?_scope_define_self within]
    simp
  · rw [renamedAt_congr (fun s _ => ⟨w.get?_scope_define_ne within (Ne.symm hx) b s.id, hy s.id⟩)]
    simp [hx]

theorem Workspace.renamedAt_define_eq_false : ∀ {path : List ScopeRef}, w.renamedAt base x y path = false →
    (w.define env f b).2.renamedAt base x y path = false
  | [], _ => rfl
  | s :: outer, h => by
    rw [renamedAt, Bool.or_eq_false_iff] at h ⊢
    refine ⟨by rw [w.get?_scope_define_ne within (Ne.symm hf)]; exact h.1, Bool.and_eq_false_iff.2 ?_⟩
    rcases Bool.and_eq_false_iff.1 h.2 with hsome | houter
    · left
      by_cases hx : f = x
      · by_cases hs : s.id = env.here.id
        · rw [hs, ← hx, w.get?_scope_define_self within]
          rfl
        · rw [scope_define, scope_updateScope_ne w hs]
          exact hsome
      · rw [w.get?_scope_define_ne within (Ne.symm hx)]
        exact hsome
    · exact .inr (renamedAt_define_eq_false houter)

theorem Usable.define {name : String} {env' : Env} (usable : Usable base x y w name env') :
    Usable base x y (w.define env f b).2 name env' := by
  refine ⟨fun s hs => ?_, usable.2.1, fun hname => ?_⟩
  · rw [Workspace.size_scopes_define]
    exact usable.1 s hs
  · exact Workspace.renamedAt_define_eq_false within hf (usable.2.2 hname)

end

/-! ### The same steps on both sides -/

namespace Scope.Mirror

variable {old : Prop} {P : String → Env → Prop}

theorem empty : Scope.Mirror x y old P .empty .empty := ⟨fun _ _ _ => .none, .inl ⟨fun _ => rfl, .none⟩⟩

theorem insert {s s' : Scope} (h : Scope.Mirror x y old P s s') (plain : ¬ old → s'.get? y = none) {f : String} (hf : f ≠ y)
    {b b' : Binding} (sim : Binding.Sim P b b') : Scope.Mirror x y old P (s.insert f b) (s'.insert f b') := by
  have rel : ∀ {name}, Option.Rel (Binding.Sim P) (s.get? name) (s'.get? name) →
      Option.Rel (Binding.Sim P) ((s.insert f b).get? name) ((s'.insert f b').get? name) := by
    intro name hrel
    by_cases hname : name = f
    · rw [hname, Table.get?_insert_self, Table.get?_insert_self]
      exact .some sim
    · rw [Table.get?_insert_ne _ hname, Table.get?_insert_ne _ hname]
      exact hrel
  refine ⟨fun name hx hy => rel (h.others name hx hy), .inl ⟨fun new => ?_, ?_⟩⟩
  · rw [Table.get?_insert_ne _ (Ne.symm hf), plain new]
  · rcases h.either with ⟨-, hrel⟩ | ⟨new, -, _, _, -, hsome⟩
    · exact rel hrel
    · rw [plain new] at hsome
      cases hsome

end Scope.Mirror

namespace Workspace.Mirror

variable {w w' : Workspace}

theorem addScope (h : w.Mirror base x y w') {t t' : Scope} (mirror : Scope.Mirror x y False (Usable base x y w') t t') :
    (w.addScope t).Mirror base x y (w'.addScope t') := by
  have grow : ∀ name env, Usable base x y w' name env → Usable base x y (w'.addScope t') name env :=
    fun _ _ => Usable.grow (w'.extends_addScope t')
  refine ⟨?_, by simp [Workspace.addScope, h.scopes], h.bodies, h.store, fun i => ?_,
    fun i => optionRel_imp (fun _ _ => Node.Sim.mono grow) (h.body i)⟩
  · exact Nat.le_trans h.started (w.extends_addScope t).scopes
  rcases Nat.lt_trichotomy i w.scopes.size with hi | hi | hi
  · rw [scope_addScope_of_lt w t hi, scope_addScope_of_lt w' t' (by rw [h.scopes]; exact hi)]
    exact (h.scope i).mono grow
  · have hself := w'.scope_addScope_self t'
    rw [h.scopes] at hself
    have new : (i < base) = False := eq_false (by have := h.started; omega)
    rw [new, hi, scope_addScope_self, hself]
    exact mirror.mono grow
  · rw [scope_eq_empty (by simp [Workspace.addScope]; omega),
      scope_eq_empty (by simp [Workspace.addScope, h.scopes]; omega)]
    exact .empty

theorem declare (h : w.Mirror base x y w') (name : String) (params params' : List String) (depth : Nat) :
    (w.declare name params depth).2.Mirror base x y (w'.declare name params' depth).2 := by
  have pushed : ∀ (bodies : Array (Option Node)) (i : Nat), ((bodies.push none)[i]?).join = (bodies[i]?).join := by
    intro bodies i
    rw [Array.getElem?_push]
    split
    · rename_i hi
      rw [hi, Array.getElem?_eq_none (Nat.le_refl _)]
      rfl
    · rfl
  have same : ∀ f env, Usable base x y w' f env → Usable base x y (w'.declare name params' depth).2 f env := Usable.congr rfl
  refine ⟨h.started, h.scopes, by simp [Workspace.declare, h.bodies], h.store, fun i => (h.scope i).mono same, fun i => ?_⟩
  show Option.Rel _ ((w.bodies.push none)[i]?).join ((w'.bodies.push none)[i]?).join
  rw [pushed, pushed]
  exact optionRel_imp (fun _ _ => Node.Sim.mono same) (h.body i)

theorem setBody (h : w.Mirror base x y w') {d d' : Definition} (hid : d'.id = d.id) {node node' : Node}
    (sim : node.Sim (Usable base x y w') node') : (w.setBody d node).Mirror base x y (w'.setBody d' node') := by
  have same : ∀ f env, Usable base x y w' f env → Usable base x y (w'.setBody d' node') f env := Usable.congr rfl
  refine ⟨h.started, h.scopes, by simp [Workspace.setBody, h.bodies], h.store, fun i => (h.scope i).mono same, fun i => ?_⟩
  show Option.Rel _ ((w.bodies.setIfInBounds d.id (some node))[i]?).join ((w'.bodies.setIfInBounds d'.id (some node'))[i]?).join
  rw [hid, Array.getElem?_setIfInBounds, Array.getElem?_setIfInBounds, h.bodies]
  split
  · split
    · exact .some (sim.mono same)
    · exact .none
  · exact optionRel_imp (fun _ _ => Node.Sim.mono same) (h.body i)

theorem define (h : w.Mirror base x y w') {env : Env} (within : env.Within w') (plain : env.Plain base y w')
    {f : String} (hf : f ≠ y) {b b' : Binding} (sim : Binding.Sim (Usable base x y w') b b') :
    (w.define env f b).2.Mirror base x y (w'.define env f b').2 := by
  have grow : ∀ name env', Usable base x y w' name env' → Usable base x y (w'.define env f b').2 name env' :=
    fun _ _ => Usable.define within hf
  have here' := within env.here List.mem_cons_self
  have here : env.here.id < w.scopes.size := by rw [← h.scopes]; exact here'
  have hscope : ∀ i, Scope.Mirror x y (i < base) (Usable base x y w') ((w.define env f b).2.scope i)
      ((w'.define env f b').2.scope i) := by
    intro i
    rw [scope_define, scope_define]
    by_cases hi : i = env.here.id
    · rw [hi, scope_updateScope_self w here, scope_updateScope_self w' here']
      exact (h.scope _).insert (fun new => plain (Nat.not_lt.1 new)) hf sim
    · rw [scope_updateScope_ne w hi, scope_updateScope_ne w' hi]
      exact h.scope i
  have hbodies : ∀ (v : Workspace) (b : Binding), (v.define env f b).2.bodies = v.bodies ∧ (v.define env f b).2.store = v.store := by
    intro v b
    obtain ⟨warnings, hv⟩ := v.define_snd env f b
    rw [hv]
    exact ⟨rfl, rfl⟩
  refine ⟨by rw [size_scopes_define]; exact h.started, by rw [size_scopes_define, size_scopes_define, h.scopes], by rw [(hbodies w b).1, (hbodies w' b').1, h.bodies],
    by rw [(hbodies w b).2, (hbodies w' b').2, h.store], fun i => (hscope i).mono grow, fun i => ?_⟩
  rw [(hbodies w b).1, (hbodies w' b').1]
  exact optionRel_imp (fun _ _ => Node.Sim.mono grow) (h.body i)

end Workspace.Mirror

/-! ### Scopes of parameters -/

theorem isSome_get?_paramScope (depth : Nat) (params : List String) (name : String) :
    ((Workspace.paramScope depth params).get? name).isSome = decide (name ∈ params) := by
  have hkeys : (params.mapIdx (fun i p => (p, Binding.param depth i))).map Prod.fst = params := by
    refine List.ext_getElem? (fun i => ?_)
    simp [Function.comp_def]
  unfold Workspace.paramScope
  by_cases h : name ∈ params
  · rw [Table.ofList_eq_insertAll, Table.isSome_get?_insertAll (by rw [hkeys]; exact h), decide_eq_true h]
  · rw [Table.get?_ofList_of_notMem (by rw [hkeys]; exact h), decide_eq_false h]
    rfl

theorem paramScope_map (depth : Nat) (σ : String → String) (params : List String) :
    Workspace.paramScope depth (params.map σ) =
      .ofList ((params.mapIdx (fun i p => (p, Binding.param depth i))).map (fun e => (σ e.1, e.2))) := by
  unfold Workspace.paramScope
  congr 1
  refine List.ext_getElem? (fun i => ?_)
  simp [Function.comp_def]

theorem renamedParams_of_notMem {params : List String} (h : x ∉ params) (chosen : Bool) :
    renamedParams x y chosen params = params := by
  cases chosen with
  | false => rfl
  | true =>
    show params.map _ = params
    refine (List.map_congr_left (fun p hp => ?_)).trans (List.map_id _)
    have hp' : p ≠ x := by
      rintro rfl
      exact h hp
    exact if_neg hp'

theorem mirror_paramScope (hxy : x ≠ y) (P : String → Env → Prop) (depth : Nat) (chosen : Bool) {params : List String}
    (fresh : y ∉ params) :
    Scope.Mirror x y False P (Workspace.paramScope depth params) (Workspace.paramScope depth (renamedParams x y chosen params)) := by
  have hparam : ∀ {name b}, (Workspace.paramScope depth params).get? name = some b → ∃ i, b = .param depth i := by
    intro name b hget
    obtain ⟨i, hi, heq⟩ := List.mem_mapIdx.1 (Table.mem_ofList (Table.mem_of_get? hget))
    exact ⟨i, (congrArg Prod.snd heq).symm⟩
  have refl : ∀ name, Option.Rel (Binding.Sim P) ((Workspace.paramScope depth params).get? name)
      ((Workspace.paramScope depth params).get? name) := by
    intro name
    cases hget : (Workspace.paramScope depth params).get? name with
    | none => exact .none
    | some b =>
      obtain ⟨i, rfl⟩ := hparam hget
      exact .some (.param depth i)
  have hnone : (Workspace.paramScope depth params).get? y = none := by
    rw [← Option.not_isSome_iff_eq_none, isSome_get?_paramScope]
    simpa using fresh
  by_cases hx : x ∈ params
  · cases chosen with
    | false => exact ⟨fun name _ _ => refl name, .inl ⟨fun _ => hnone, refl x⟩⟩
    | true =>
      let σ : String → String := fun p => if p = x then y else p
      have hσ : ∀ {name}, name ≠ x → σ name = name := fun h => if_neg h
      -- no parameter but `x` goes to `y`
      have hrename : ∀ {name}, name ≠ y →
          (Workspace.paramScope depth (params.map σ)).get? (σ name) = (Workspace.paramScope depth params).get? name := by
        intro name hy
        rw [paramScope_map]
        refine Table.get?_ofList_rename ?_
        rintro ⟨p, b⟩ hp heq
        obtain ⟨i, hi, he⟩ := List.mem_mapIdx.1 hp
        have hmem : p ∈ params := by
          cases he
          exact List.getElem_mem hi
        change (if p = x then y else p) = if name = x then y else name at heq
        show p = name
        grind
      show Scope.Mirror x y False P _ (Workspace.paramScope depth (params.map σ))
      refine ⟨fun name hx hy => ?_, .inr ⟨id, ?_, ?_⟩⟩
      · have := @hrename name hy
        rw [hσ hx] at this
        rw [this]
        exact refl name
      · rw [← Option.not_isSome_iff_eq_none, isSome_get?_paramScope]
        simp only [decide_eq_true_eq, List.mem_map, not_exists, not_and]
        intro p _ heq
        change (if p = x then y else p) = x at heq
        grind
      · have hy : (Workspace.paramScope depth (params.map σ)).get? (σ x) = _ := hrename hxy
        rw [show σ x = y from if_pos rfl] at hy
        cases hget : (Workspace.paramScope depth params).get? x with
        | none =>
          have hsome := isSome_get?_paramScope depth params x
          rw [hget, decide_eq_true hx] at hsome
          cases hsome
        | some b =>
          obtain ⟨i, rfl⟩ := hparam hget
          exact ⟨depth, i, rfl, by rw [hy, hget]⟩
  · rw [renamedParams_of_notMem hx]
    exact ⟨fun name _ _ => refl name, .inl ⟨fun _ => hnone, refl x⟩⟩

theorem renamedAt_paramScope (depth : Nat) (chosen : Bool) {params : List String} (fresh : y ∉ params) (w : Workspace)
    {path : List ScopeRef} {s : ScopeRef} (new : base ≤ s.id)
    (hs : w.scope s.id = Workspace.paramScope depth (renamedParams x y chosen params)) :
    w.renamedAt base x y (s :: path) = if x ∈ params then chosen else w.renamedAt base x y path := by
  rw [Workspace.renamedAt, hs, ← Option.not_isSome, isSome_get?_paramScope, isSome_get?_paramScope, decide_eq_true new,
    Bool.true_and]
  by_cases hx : x ∈ params
  · cases chosen with
    | false =>
      show (decide (y ∈ params) || !decide (x ∈ params) && _) = _
      simp [hx, fresh]
    | true =>
      have hmem : y ∈ renamedParams x y true params := List.mem_map.2 ⟨x, hx, if_pos rfl⟩
      simp [hx, hmem]
  · rw [renamedParams_of_notMem hx]
    simp [hx, fresh]

end

end ChainCalc
