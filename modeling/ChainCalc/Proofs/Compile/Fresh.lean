import ChainCalc.Proofs.Compile.Outcome
import ChainCalc.Proofs.Workspace.Extends
/-!
# Compilation works on what is new

However an expression nests its blocks and functions, and however its compilation ends, every scope and every body that
was there before is left alone (`compile_extends`): definitions go to scopes made on the way, and bodies to functions
declared on the way.
-/
namespace ChainCalc

open CompileM

namespace CompileM

variable {α β : Type}

def Keeps (w₀ : Workspace) (x : CompileM α) : Prop :=
  ∀ w r w', w₀.Extends w → x.run w = some (r, w') → w₀.Extends w'

variable {w₀ : Workspace}

theorem keeps_outOfSteps : (outOfSteps : CompileM α).Keeps w₀ := by
  intro w r w' _ h
  cases h

theorem keeps_settled (r : Except CompileError α) : (settled r).Keeps w₀ := by
  intro w r w' hw h
  cases h
  exact hw

theorem keeps_pure (a : α) : (pure a : CompileM α).Keeps w₀ := keeps_settled (.ok a)

theorem keeps_fail (e : CompileError) : (fail e : CompileM α).Keeps w₀ := keeps_settled _

theorem Keeps.bind {x : CompileM α} {f : α → CompileM β} (hx : x.Keeps w₀) (hf : ∀ a, (f a).Keeps w₀) :
    (x >>= f).Keeps w₀ := by
  intro w r w' hw h
  rw [run_bind] at h
  split at h
  · cases h
  · rename_i hr
    cases h
    exact hx _ _ _ hw hr
  · rename_i hr
    exact hf _ _ _ _ (hx _ _ _ hw hr) h

theorem keeps_update_bind {f : Workspace → α × Workspace} {g : α → CompileM β}
    (h : ∀ w, w₀.Extends w → w₀.Extends (f w).2 ∧ (g (f w).1).Keeps w₀) : (update f >>= g).Keeps w₀ := by
  intro w r w' hw hr
  rw [run_bind] at hr
  exact (h w hw).2 _ _ _ (h w hw).1 hr

theorem keeps_view_bind {f : Workspace → α} {g : α → CompileM β} (h : ∀ a, (g a).Keeps w₀) : (view f >>= g).Keeps w₀ :=
  keeps_update_bind (fun w hw => ⟨hw, h (f w)⟩)

theorem Keeps.onError {x : CompileM α} {cleanup : Workspace → Workspace} (hx : x.Keeps w₀)
    (hc : ∀ w, w₀.Extends w → w₀.Extends (cleanup w)) : (onError x cleanup).Keeps w₀ := by
  intro w r w' hw h
  rw [run_onError] at h
  split at h
  · rename_i hr
    cases h
    exact hc _ (hx _ _ _ hw hr)
  · exact hx _ _ _ hw h

theorem keeps_mapM {f : α → CompileM β} (h : ∀ a, (f a).Keeps w₀) : ∀ as : List α, (as.mapM f).Keeps w₀
  | [] => by
    rw [List.mapM_nil]
    exact keeps_pure _
  | a :: as => by
    rw [List.mapM_cons]
    exact (h a).bind (fun _ => (keeps_mapM h as).bind (fun _ => keeps_pure _))

end CompileM

/-! ### The parts of the compiler -/

section

variable {registry : Registry} {sub : Expr → Env → CompileM Node} {w₀ : Workspace} (keeps : ∀ e env, (sub e env).Keeps w₀)

include keeps

theorem keeps_compileAll (es : List Expr) (env : Env) : (compileAll sub es env).Keeps w₀ :=
  keeps_mapM (fun e => keeps e env) es

theorem keeps_fromRegistry (c : Expr) (env : Env) : (fromRegistry registry sub c env).Keeps w₀ := by
  unfold fromRegistry compileCaptures
  split
  · exact keeps_pure _
  · refine Keeps.bind ?_ (fun _ => (keeps_settled _).bind (fun _ => keeps_pure _))
    exact (keeps_mapM (fun (g : String × List Expr) => (keeps_compileAll keeps g.2 env).bind (fun _ => keeps_pure _)) _).bind
      (fun _ => keeps_pure _)

theorem keeps_fromRegistryOr (c : Expr) (env : Env) (error : CompileError) :
    (fromRegistryOr registry sub c env error).Keeps w₀ := by
  refine (keeps_fromRegistry keeps c env).bind (fun r => ?_)
  cases r with
  | some node => exact keeps_pure node
  | none => exact keeps_fail error

omit keeps in
theorem keeps_formCapture (c : Captures) (placeholder : String) : (formCapture c placeholder).Keeps w₀ := by
  unfold formCapture
  split
  · exact keeps_pure _
  · exact keeps_fail _

omit keeps in
theorem keeps_paramNames (problem : FormProblem) (whole : Expr) (args : List Expr) :
    (paramNames problem whole args).Keeps w₀ := by
  unfold paramNames
  split
  · exact keeps_pure _
  · exact keeps_fail _

theorem keeps_compileBody (body : Expr) (scope : Env) {d : Definition} (fresh : w₀.bodies.size ≤ d.id) :
    (compileBody sub body scope d).Keeps w₀ :=
  (keeps body scope).bind (fun node => keeps_update_bind (fun _ hw => ⟨hw.setBody fresh node, keeps_pure _⟩))

theorem keeps_compileDefine (e : Expr) {env : Env} (fresh : w₀.scopes.size ≤ env.here.id) :
    (compileDefine sub e env).Keeps w₀ := by
  unfold compileDefine
  split
  · exact keeps_fail _
  · refine (keeps_formCapture _ _).bind (fun target => (keeps_formCapture _ _).bind (fun value => ?_))
    split
    · refine (keeps value env).bind (fun node => keeps_update_bind (fun w hw => ⟨hw.define fresh _ _, keeps_pure _⟩))
    · exact keeps_fail _
    · refine (keeps_paramNames _ _ _).bind (fun params => ?_)
      refine keeps_update_bind (fun w hw => ⟨hw.trans (w.extends_addScope _), ?_⟩)
      refine keeps_update_bind (fun w hw => ⟨hw.trans (w.extends_declare _ _ _), ?_⟩)
      refine keeps_update_bind (fun w' hw' => ⟨hw'.define fresh _ _, ?_⟩)
      refine Keeps.bind ?_ (fun _ => keeps_pure _)
      refine (keeps_compileBody keeps value _ hw.bodies).onError (fun w hw => ?_)
      rw [Workspace.restore_eq]
      exact hw.updateScope fresh _

theorem keeps_compileStatements {env : Env} (fresh : w₀.scopes.size ≤ env.here.id) : ∀ (ss : List Expr) (ends : Bool),
    (compileStatements sub env ss ends).Keeps w₀
  | [], ends => keeps_pure _
  | s :: rest, ends => by
    unfold compileStatements compileStatement
    refine Keeps.bind ?_ (fun r => ?_)
    · split
      · exact (keeps_compileDefine keeps s fresh).bind (fun _ => keeps_pure _)
      · exact (keeps s env).bind (fun _ => keeps_pure _)
    · cases r with
      | defined name => exact keeps_compileStatements fresh rest false
      | expr node => exact (keeps_compileStatements fresh rest true).bind (fun _ => keeps_pure _)

theorem keeps_compileLambda (args : List Expr) (e : Expr) (env : Env) : (compileLambda sub args e env).Keeps w₀ := by
  unfold compileLambda
  split
  · exact keeps_fail _
  · refine (keeps_paramNames _ _ _).bind (fun params => ?_)
    refine keeps_update_bind (fun w hw => ⟨hw.trans (w.extends_addScope _), ?_⟩)
    refine (keeps _ _).bind (fun node => ?_)
    refine keeps_update_bind (fun w hw => ⟨hw.trans (w.extends_declare _ _ _), ?_⟩)
    exact keeps_update_bind (fun w' hw' => ⟨hw'.setBody hw.bodies node, keeps_pure _⟩)

theorem keeps_compileBlock (statements : List Expr) (e : Expr) (env : Env) :
    (compileBlock sub statements e env).Keeps w₀ := by
  refine keeps_update_bind (fun w hw => ⟨hw.trans (w.extends_addScope _), ?_⟩)
  refine (keeps_compileStatements keeps hw.scopes statements false).bind (fun r => ?_)
  obtain ⟨nodes, ends⟩ := r
  dsimp only
  split
  · exact keeps_pure _
  · exact keeps_fail _

theorem keeps_compileName (name : String) (e : Expr) (env : Env) : (compileName registry sub name e env).Keeps w₀ := by
  refine keeps_view_bind (fun b => ?_)
  split
  · exact keeps_pure _
  · exact keeps_pure _
  · exact keeps_pure _
  · split
    · exact keeps_fail _
    · exact keeps_fromRegistryOr keeps e env _

theorem keeps_compileBoundCall (name : String) (args : List Expr) (e : Expr) (env : Env) :
    (compileBoundCall registry sub name args e env).Keeps w₀ := by
  refine keeps_view_bind (fun b => ?_)
  split
  · exact (keeps_compileAll keeps args env).bind (fun _ => keeps_pure _)
  · exact (keeps_compileAll keeps args env).bind (fun _ => keeps_pure _)
  · exact (keeps_compileAll keeps args env).bind (fun _ => keeps_pure _)
  · exact keeps_fromRegistryOr keeps e env _

omit keeps in
theorem keeps_formCaptures (form candidate : Expr) : (formCaptures form candidate).Keeps w₀ := by
  unfold formCaptures
  split
  · exact keeps_pure _
  · exact keeps_fail _

theorem keeps_compileCall (name : String) (args : List Expr) (e : Expr) (env : Env) :
    (compileCall registry sub name args e env).Keeps w₀ := by
  unfold compileCall
  split
  · exact keeps_fail _
  · split
    · exact (keeps_formCaptures _ _).bind (fun _ => keeps_compileLambda keeps _ e env)
    · split
      · exact (keeps_formCaptures _ _).bind (fun _ => keeps_compileBlock keeps _ e env)
      · exact keeps_compileBoundCall keeps name args e env

theorem keeps_compileStep (e : Expr) (env : Env) : (compileStep registry sub e env).Keeps w₀ := by
  unfold compileStep
  split
  · refine (keeps_fromRegistry keeps _ env).bind (fun r => ?_)
    split
    · exact keeps_pure _
    · split
      · exact keeps_fail _
      · exact keeps_fromRegistryOr keeps _ env _
  · unfold compileOperand
    split
    · exact keeps_pure _
    · exact keeps_compileName keeps _ _ env
    · exact keeps_compileCall keeps _ _ _ env
    · exact keeps _ env
    · exact keeps_fromRegistryOr keeps _ env _

end

theorem keeps_compile (registry : Registry) {w₀ : Workspace} : ∀ (n : Nat) (e : Expr) (env : Env),
    (compile registry n e env).Keeps w₀
  | 0, _, _ => keeps_outOfSteps
  | n + 1, e, env => keeps_compileStep (keeps_compile registry n) e env

/-- **Compiling an expression changes nothing that was there**, whether it succeeds or fails. -/
theorem compile_extends {registry : Registry} {n : Nat} {e : Expr} {env : Env} {w w' : Workspace}
    {r : Except CompileError Node} (h : (compile registry n e env).run w = some (r, w')) : w.Extends w' :=
  keeps_compile registry n e env w r w' (.refl w) h

end ChainCalc
