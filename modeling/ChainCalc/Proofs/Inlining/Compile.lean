import ChainCalc.Proofs.Inlining.Evaluation
/-!
# The body compiled both ways

The body of a function compiled in the scope of its parameters, and compiled with the parameters bound to constants, gives
inlined nodes in inlined workspaces, or is refused both ways (`Inlining.makes_values` and
`Inlining.makes_params`).
-/
namespace ChainCalc

open CompileM

/-- **An environment in which names are bound to values**, inside another one: a new scope, and one constant after another. -/
def Workspace.valueEnv (w : Workspace) (env : Env) (bound : List (String × Value)) : Env × Workspace :=
  let (scope, w) := w.childEnv env
  (scope, bound.foldl (fun w (name, v) => (w.define scope name (.value (.constant v))).2) w)

variable {ι : Inlining} {w w' : Workspace}

/-! ### Changes on both sides -/

namespace Workspace.Inlined

variable (hw : w.Inlined ι w')

include hw

theorem addScope {s s' : Scope} (hs : s.Parallel (Binding.Inlined ι true) s') : (w.addScope s).Inlined ι (w'.addScope s') where
  left := hw.left.trans (w.extends_addScope s)
  right := hw.right.trans (w'.extends_addScope s')
  scopes := by simp [Workspace.addScope, hw.scopes]
  bodies := hw.bodies
  scope i hi := by
    rcases Nat.lt_trichotomy i w.scopes.size with h | rfl | h
    · rw [scope_addScope_of_lt w s h, scope_addScope_of_lt w' s' (hw.scopes ▸ h)]
      exact hw.scope i hi
    · rw [scope_addScope_self, ← hw.scopes, scope_addScope_self]
      exact hs
    · have size := hw.scopes
      rw [scope_eq_empty (by simp [Workspace.addScope]; omega), scope_eq_empty (by simp [Workspace.addScope]; omega)]
      exact .nil
  body := hw.body

theorem declare (name : String) (params : List String) (depth depth' : Nat) :
    (w.declare name params depth).2.Inlined ι (w'.declare name params depth').2 where
  left := hw.left.trans (w.extends_declare name params depth)
  right := hw.right.trans (w'.extends_declare name params depth')
  scopes := hw.scopes
  bodies := by simp [Workspace.declare, hw.bodies]
  scope := hw.scope
  body i hi := by
    show Option.Rel _ ((w.bodies.push none)[i]?).join ((w'.bodies.push none)[i]?).join
    rw [Array.getElem?_push, Array.getElem?_push, hw.bodies]
    split
    · exact .none
    · exact hw.body i hi

theorem updateScope {id : Nat} (new : ι.workspace.scopes.size ≤ id) {f g : Scope → Scope}
    (hfg : ∀ {s s' : Scope}, s.Parallel (Binding.Inlined ι true) s' → (f s).Parallel (Binding.Inlined ι true) (g s')) :
    (w.updateScope id f).Inlined ι (w'.updateScope id g) where
  left := hw.left.updateScope new f
  right := hw.right.updateScope new g
  scopes := by rw [size_scopes_updateScope, size_scopes_updateScope, hw.scopes]
  bodies := hw.bodies
  scope i hi := by
    by_cases hid : i = id
    · subst hid
      by_cases there : i < w.scopes.size
      · rw [scope_updateScope_self w there, scope_updateScope_self w' (hw.scopes ▸ there)]
        exact hfg (hw.scope i hi)
      · rw [scope_eq_empty (by rw [size_scopes_updateScope]; omega),
          scope_eq_empty (by rw [size_scopes_updateScope, hw.scopes]; omega)]
        exact .nil
    · rw [scope_updateScope_ne w hid, scope_updateScope_ne w' hid]
      exact hw.scope i hi
  body := hw.body

theorem warned (warnings warnings' : List String) :
    ({ w with warnings } : Workspace).Inlined ι { w' with warnings := warnings' } where
  left := ⟨hw.left.scopes, hw.left.scope, hw.left.bodies, hw.left.body, hw.left.store⟩
  right := ⟨hw.right.scopes, hw.right.scope, hw.right.bodies, hw.right.body, hw.right.store⟩
  scopes := hw.scopes
  bodies := hw.bodies
  scope := hw.scope
  body := hw.body

end Workspace.Inlined

namespace Env.Inlined

variable {env env' : Env} (henv : env.Inlined ι env')

include henv

theorem here : env'.here.id = env.here.id := by cases henv <;> rfl

theorem new : ι.workspace.scopes.size ≤ env.here.id := by
  cases henv with
  | body => exact Nat.le_refl _
  | inner new _ _ => exact new

theorem depth_eq : env.depth = env'.depth + 1 := by cases henv <;> rfl

theorem depth_le : ι.depth ≤ env'.depth := by
  cases henv with
  | body => exact Nat.le_refl _
  | inner _ deep _ => exact deep

theorem inside {id depth depth' : Nat} (new : ι.workspace.scopes.size ≤ id) (deep : ι.depth ≤ depth') (hdepth : depth = depth' + 1) :
    Env.Inlined ι ⟨⟨id, depth⟩, env.path⟩ ⟨⟨id, depth'⟩, env'.path⟩ := by
  subst hdepth
  exact .inner new deep henv

end Env.Inlined

namespace Workspace.Inlined

variable (hw : w.Inlined ι w') {env env' : Env} (henv : env.Inlined ι env')

include hw henv

theorem define {b b' : Binding} (hb : b.Inlined ι true b') (name : String) :
    (w.define env name b).2.Inlined ι (w'.define env' name b').2 ∧
      Option.Rel (Binding.Inlined ι true) (w.define env name b).1 (w'.define env' name b').1 := by
  obtain ⟨warnings, hdefine⟩ := define_snd w env name b
  obtain ⟨warnings', hdefine'⟩ := define_snd w' env' name b'
  rw [hdefine, hdefine', define_fst, define_fst, henv.here]
  exact ⟨(hw.updateScope henv.new (fun hs => hs.insert name hb)).warned _ _, (hw.scope _ henv.new).get? name⟩

theorem restore {previous previous' : Option Binding} (hp : Option.Rel (Binding.Inlined ι true) previous previous')
    (name : String) : (w.restore env name previous).Inlined ι (w'.restore env' name previous') := by
  rw [restore_eq, restore_eq, henv.here]
  exact hw.updateScope henv.new (fun hs => hs.restore name hp)

theorem childEnv : (w.childEnv env).2.Inlined ι (w'.childEnv env').2 ∧ (w.childEnv env).1.Inlined ι (w'.childEnv env').1 := by
  refine ⟨hw.addScope .nil, ?_⟩
  show Env.Inlined ι ⟨⟨w.scopes.size, env.depth⟩, env.path⟩ ⟨⟨w'.scopes.size, env'.depth⟩, env'.path⟩
  rw [hw.scopes]
  exact henv.inside hw.left.scopes henv.depth_le henv.depth_eq

theorem functionEnv (params : List String) : (w.functionEnv env params).2.Inlined ι (w'.functionEnv env' params).2 ∧
    (w.functionEnv env params).1.Inlined ι (w'.functionEnv env' params).1 := by
  have deep := henv.depth_le
  constructor
  · refine hw.addScope (.ofList ?_)
    rw [henv.depth_eq, List.forall₂_iff_get]
    refine ⟨by simp, fun i _ _ => ?_⟩
    have deeper : (Binding.param (env'.depth + 1 + 1) i).Inlined ι true (.param (env'.depth + 1) i) := .deeper i rfl (by omega)
    simpa using deeper
  · show Env.Inlined ι ⟨⟨w.scopes.size, env.depth + 1⟩, env.path⟩ ⟨⟨w'.scopes.size, env'.depth + 1⟩, env'.path⟩
    rw [hw.scopes]
    exact henv.inside hw.left.scopes (by omega) (by rw [henv.depth_eq])

theorem definition_declare (name : String) (params : List String) :
    (w.declare name params (env.depth + 1)).1.Inlined ι true (w'.declare name params (env'.depth + 1)).1 := by
  have deep := henv.depth_le
  have hd : (w.declare name params (env.depth + 1)).1 = (w'.declare name params (env'.depth + 1)).1.deeper := by
    show Definition.mk w.bodies.size name params (env.depth + 1) = Definition.mk w'.bodies.size name params (env'.depth + 1 + 1)
    rw [hw.bodies, henv.depth_eq]
  rw [hd]
  refine .inside ?_ (by show ι.depth < env'.depth + 1; omega)
  show ι.workspace.bodies.size ≤ w'.bodies.size
  exact hw.right.bodies

omit henv

theorem setBody {d d' : Definition} (hd : d.Inlined ι true d') {x x' : Node} (hx : x.Inlined ι true x') :
    (w.setBody d x).Inlined ι (w'.setBody d' x') := by
  have new : ι.workspace.bodies.size ≤ d'.id := by
    cases hd with
    | inside new _ => exact new
  have id := hd.id
  refine ⟨hw.left.setBody (id ▸ new) x, hw.right.setBody new x', hw.scopes, ?_, hw.scope, fun i hi => ?_⟩
  · simp [Workspace.setBody, hw.bodies]
  · show Option.Rel _ ((w.bodies.setIfInBounds d.id (some x))[i]?).join ((w'.bodies.setIfInBounds d'.id (some x'))[i]?).join
    rw [Array.getElem?_setIfInBounds, Array.getElem?_setIfInBounds, hw.bodies, id]
    split
    · split
      · exact .some hx
      · exact .none
    · exact hw.body i hi

end Workspace.Inlined

/-! ### The correspondence -/

theorem Definition.Inlined.reached {d d' : Definition} (h : d.Inlined ι true d') : d.Reached ι true d' := by
  cases h with
  | inside new deep => exact .inside rfl new deep

/-- **What is compiled inside the body on both sides.** -/
def Inlining.correspondence (ι : Inlining) : Correspondence Unit where
  le _ _ := True
  workspace _ := Workspace.Inlined ι
  env _ := Env.Inlined ι
  definition _ := Definition.Inlined ι true
  node _ := Node.Inlined ι true
  binding _ := Binding.Inlined ι true
  refl _ := trivial
  trans _ _ := trivial
  env_mono _ h := h
  definition_mono _ h := h
  node_mono _ h := h
  binding_mono _ h := h
  literal l := .constant (.plain (by cases l <;> rfl))
  sequence label h := .sequence label h
  apply site head children := .apply site head children
  functionRef name h := .functionRef name (.inside rfl h)
  invoke name site h children := .invoke name site (.inside rfl h) children
  lambda body body' h := .lambda body body' h.reached
  value h := .value h
  function h := .function h.reached
  reference hb name := by
    cases hb with
    | value node => exact .some node
    | function definition => exact .none
    | param index shallow => exact .some (.param name index shallow)
    | deeper index here deep => exact .some (.deeper name index here deep)
    | own here given => exact .some (.own name here given)
  lookup hw henv name := hw.lookup_inside henv name
  childEnv hw henv := ⟨(), trivial, hw.childEnv henv⟩
  functionEnv hw henv params := ⟨(), trivial, hw.functionEnv henv params⟩
  declare hw henv name params := ⟨(), trivial, hw.declare name params _ _, hw.definition_declare henv name params⟩
  define hw henv hb name := hw.define henv hb name
  restore hw henv hp name := hw.restore henv hp name
  setBody hw hd hx := hw.setBody hd hx

theorem Node.respects_inlined (ι : Inlining) : Standard.Respects (Node.Inlined ι true) where
  conditional label _ _ _ _ _ _ := .conditional label
  fetch label _ _ := .fetch label
  constant _ := .constant (.plain rfl)
  worker := .worker
  kernel name label _ _ _ known := .kernel name label known

/-! ### Where the two sides start -/

namespace Workspace

theorem updateScope_addScope (w : Workspace) (s : Scope) (f : Scope → Scope) :
    (w.addScope s).updateScope w.scopes.size f = w.addScope (f s) := by
  have hscopes : (w.scopes.push s).modify w.scopes.size f = w.scopes.push (f s) := by
    apply Array.ext_getElem?
    intro i
    rw [Array.getElem?_modify, Array.getElem?_push, Array.getElem?_push]
    split
    · simp [*]
    · rename_i hi
      rw [if_neg (Ne.symm hi), if_neg (Ne.symm hi)]
  show { w with scopes := (w.scopes.push s).modify w.scopes.size f } = { w with scopes := w.scopes.push (f s) }
  rw [hscopes]

theorem foldl_define (scope : Env) : ∀ (bound : List (String × Value)) (w : Workspace),
    ∃ warnings, bound.foldl (fun w (name, v) => (w.define scope name (.value (.constant v))).2) w =
      { w.updateScope scope.here.id (fun s => s.insertAll (bound.map (fun b => (b.1, .value (.constant b.2))))) with warnings }
  | [], w => ⟨w.warnings, by
      show w = { w.updateScope scope.here.id (fun s => s) with warnings := w.warnings }
      rw [updateScope_id]⟩
  | (name, v) :: bound, w => by
    obtain ⟨warnings, hdefine⟩ := define_snd w scope name (.value (.constant v))
    obtain ⟨warnings', hrest⟩ := foldl_define scope bound (w.define scope name (.value (.constant v))).2
    refine ⟨warnings', ?_⟩
    rw [List.foldl_cons, hrest, hdefine]
    have twice := updateScope_updateScope w scope.here.id (fun s => s.insert name (.value (.constant v)))
      (fun s => s.insertAll (bound.map (fun b => (b.1, .value (.constant b.2)))))
    exact congrArg (fun u : Workspace => { u with warnings := warnings' }) twice

theorem valueEnv_snd (w : Workspace) (env : Env) (bound : List (String × Value)) :
    ∃ warnings, (w.valueEnv env bound).2 =
      { w.addScope (.ofList (bound.map (fun b => (b.1, .value (.constant b.2))))) with warnings } := by
  obtain ⟨warnings, hfold⟩ := foldl_define (w.childEnv env).1 bound (w.childEnv env).2
  exact ⟨warnings, hfold.trans (congrArg (fun u : Workspace => { u with warnings }) (updateScope_addScope w .empty _))⟩

theorem Inlined.refl (ι : Inlining) : ι.workspace.Inlined ι ι.workspace where
  left := .refl _
  right := .refl _
  scopes := rfl
  bodies := rfl
  scope i hi := by
    rw [scope_eq_empty hi]
    exact .nil
  body i hi := by
    rw [Array.getElem?_eq_none hi]
    exact .none

end Workspace

namespace Inlining

variable (ι : Inlining) {params : List String} (full : params.length = ι.args.length)

include full

/-- **The scope of the parameters, and the scope of the constants.** -/
theorem start : (ι.workspace.functionEnv ι.env params).2.Inlined ι (ι.workspace.valueEnv ι.env (params.zip ι.args)).2 := by
  obtain ⟨warnings, hvalues⟩ := ι.workspace.valueEnv_snd ι.env (params.zip ι.args)
  rw [hvalues]
  refine ((Workspace.Inlined.refl ι).addScope (.ofList ?_)).warned _ warnings
  rw [List.forall₂_iff_get]
  refine ⟨by simp [full], fun i hi _ => ?_⟩
  have hi : i < params.length := by simpa using hi
  have given : ι.args[i]? = some ι.args[i] := List.getElem?_eq_getElem (full ▸ hi)
  simpa [Inlining.depth] using Binding.Inlined.own (ι := ι) rfl given

omit full in
theorem mirrors (n : Nat) (body : Expr) :
    ι.correspondence.Mirrors ι.correspondence.node () (compile .standard n body (ι.workspace.functionEnv ι.env params).1)
      (compile .standard n body (ι.workspace.valueEnv ι.env (params.zip ι.args)).1) :=
  Correspondence.mirrors_compile (Correspondence.suits_standard (fun _ => Node.respects_inlined ι)) n body Env.Inlined.body

/-- **A body that compiles in the scope of the parameters** compiles to an inlined node in the scope of the constants. -/
theorem makes_values {body : Expr} {x : Node} {w : Workspace}
    (made : Makes .standard (ι.workspace.functionEnv ι.env params).2 (ι.workspace.functionEnv ι.env params).1 body x w) :
    ∃ x' w', Makes .standard (ι.workspace.valueEnv ι.env (params.zip ι.args)).2
      (ι.workspace.valueEnv ι.env (params.zip ι.args)).1 body x' w' ∧ x.Inlined ι true x' ∧ w.Inlined ι w' := by
  obtain ⟨n, made⟩ := made
  obtain ⟨x', w', _, made', hw, hx⟩ := (ι.mirrors n body).gives (ι.start full) made
  exact ⟨x', w', ⟨n, made'⟩, hx, hw⟩

/-- **A body that compiles in the scope of the constants** compiles in the scope of the parameters. -/
theorem makes_params {body : Expr} {x' : Node} {w' : Workspace}
    (made : Makes .standard (ι.workspace.valueEnv ι.env (params.zip ι.args)).2
      (ι.workspace.valueEnv ι.env (params.zip ι.args)).1 body x' w') :
    ∃ x w, Makes .standard (ι.workspace.functionEnv ι.env params).2 (ι.workspace.functionEnv ι.env params).1 body x w := by
  obtain ⟨n, made⟩ := made
  obtain ⟨x, w, _, made', -, -⟩ := (ι.mirrors n body).gives' (ι.start full) made
  exact ⟨x, w, n, made'⟩

end Inlining

end ChainCalc
