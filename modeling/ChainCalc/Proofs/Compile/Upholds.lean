import ChainCalc.Proofs.Compile.Discipline
/-!
# The compiler upholds a discipline

Where a discipline holds of a workspace, it holds after every compilation of an expression, a statement or a unit that
heeds its rules; what is compiled fits the discipline, and a failure is one that it allows (`upholds_compileUnit`).

`x.Upholds D n P` says this of a computation in every workspace of at least `n` scopes; `P` is about its result and the
number of scopes there are then.
-/
namespace ChainCalc

open CompileM

namespace CompileM

variable {α β : Type} {D : Discipline} {n m : Nat} {P : Nat → α → Prop} {Q : Nat → β → Prop}

/-- **The discipline holds after the computation if it held before**, scopes are never taken away, `P` holds of the result,
and an error is one of the discipline. -/
def Upholds (D : Discipline) (n : Nat) (x : CompileM α) (P : Nat → α → Prop) : Prop :=
  ∀ w r w', D.Holds w → n ≤ w.scopes.size → x.run w = some (r, w') → D.Holds w' ∧ w.scopes.size ≤ w'.scopes.size ∧
    (∀ a, r = .ok a → P w'.scopes.size a) ∧ ∀ e, r = .error e → D.error e

theorem Upholds.later {x : CompileM α} (h : x.Upholds D n P) (le : n ≤ m) : x.Upholds D m P :=
  fun w r w' hw hm => h w r w' hw (Nat.le_trans le hm)

theorem Upholds.imp {x : CompileM α} {P' : Nat → α → Prop} (h : x.Upholds D n P) (imp : ∀ m a, P m a → P' m a) :
    x.Upholds D n P' := by
  intro w r w' hw hn hr
  obtain ⟨hw', grows, ok, error⟩ := h w r w' hw hn hr
  exact ⟨hw', grows, fun a ha => imp _ a (ok a ha), error⟩

theorem upholds_outOfSteps : (outOfSteps : CompileM α).Upholds D n P := by
  intro w r w' _ _ h
  cases h

theorem upholds_settled {r : Except CompileError α} (ok : ∀ a, r = .ok a → ∀ m, n ≤ m → P m a)
    (error : ∀ e, r = .error e → D.error e) : (settled r).Upholds D n P := by
  intro w r' w' hw hn h
  cases h
  exact ⟨hw, Nat.le_refl _, fun a ha => ok a ha _ hn, error⟩

theorem upholds_pure {a : α} (h : ∀ m, n ≤ m → P m a) : (pure a : CompileM α).Upholds D n P :=
  upholds_settled (fun _ ha m hm => by cases ha; exact h m hm) (fun _ he => by cases he)

theorem upholds_fail {e : CompileError} (h : D.error e) : (fail e : CompileM α).Upholds D n P :=
  upholds_settled (fun _ ha => by cases ha) (fun _ he => by cases he; exact h)

theorem Upholds.bind {x : CompileM α} {f : α → CompileM β} (hx : x.Upholds D n P)
    (hf : ∀ m a, n ≤ m → P m a → (f a).Upholds D m Q) : (x >>= f).Upholds D n Q := by
  intro w r w' hw hn h
  rw [run_bind] at h
  split at h
  · cases h
  · rename_i e w₁ hr
    cases h
    obtain ⟨hw₁, grows, -, error⟩ := hx _ _ _ hw hn hr
    exact ⟨hw₁, grows, (fun a ha => by cases ha), fun e' he => (by cases he; exact error e rfl)⟩
  · rename_i a w₁ hr
    obtain ⟨hw₁, grows, ok, -⟩ := hx _ _ _ hw hn hr
    obtain ⟨hw', grows', rest⟩ := hf _ a (Nat.le_trans hn grows) (ok a rfl) _ _ _ hw₁ (Nat.le_refl _) h
    exact ⟨hw', Nat.le_trans grows grows', rest⟩

theorem upholds_update_bind {f : Workspace → α × Workspace} {g : α → CompileM β}
    (h : ∀ w, D.Holds w → n ≤ w.scopes.size → D.Holds (f w).2 ∧ w.scopes.size ≤ (f w).2.scopes.size ∧
      (g (f w).1).Upholds D (f w).2.scopes.size Q) : (update f >>= g).Upholds D n Q := by
  intro w r w' hw hn hr
  rw [run_bind] at hr
  obtain ⟨hw₁, grows, rest⟩ := h w hw hn
  obtain ⟨hw', grows', rest⟩ := rest _ _ _ hw₁ (Nat.le_refl _) hr
  exact ⟨hw', Nat.le_trans grows grows', rest⟩

theorem upholds_view_bind {f : Workspace → α} {g : α → CompileM β}
    (h : ∀ w, D.Holds w → n ≤ w.scopes.size → (g (f w)).Upholds D w.scopes.size Q) : (view f >>= g).Upholds D n Q :=
  upholds_update_bind (fun w hw hn => ⟨hw, Nat.le_refl _, h w hw hn⟩)

theorem Upholds.onError {x : CompileM α} {cleanup : Workspace → Workspace} (hx : x.Upholds D n P)
    (hc : ∀ w, D.Holds w → n ≤ w.scopes.size → D.Holds (cleanup w) ∧ w.scopes.size ≤ (cleanup w).scopes.size) :
    (onError x cleanup).Upholds D n P := by
  intro w r w' hw hn h
  rw [run_onError] at h
  split at h
  · rename_i e w₁ hr
    cases h
    obtain ⟨hw₁, grows, -, error⟩ := hx _ _ _ hw hn hr
    obtain ⟨hw', grows'⟩ := hc w₁ hw₁ (Nat.le_trans hn grows)
    exact ⟨hw', Nat.le_trans grows grows', (fun a ha => by cases ha), fun e' he => (by cases he; exact error e rfl)⟩
  · exact hx _ _ _ hw hn h

/-- One after another: `R` relates what goes in to what comes out, and `P` holds of all that comes out. -/
theorem upholds_mapM {f : α → CompileM β} {R : α → β → Prop} (mono : ∀ {m m' b}, m ≤ m' → Q m b → Q m' b) :
    ∀ (as : List α) {n : Nat}, (∀ a ∈ as, (f a).Upholds D n (fun m b => R a b ∧ Q m b)) →
      (as.mapM f).Upholds D n (fun m bs => List.Forall₂ R as bs ∧ ∀ b ∈ bs, Q m b)
  | [], n, _ => by
    rw [List.mapM_nil]
    exact upholds_pure (fun _ _ => ⟨.nil, fun _ hb => by cases hb⟩)
  | a :: as, n, h => by
    rw [List.forall_mem_cons] at h
    rw [List.mapM_cons]
    refine h.1.bind (fun m b hm hb => ?_)
    refine (upholds_mapM mono as (fun a ha => (h.2 a ha).later hm)).bind (fun m' bs hm' hbs => ?_)
    refine upholds_pure (fun k hk => ⟨.cons hb.1 hbs.1, List.forall_mem_cons.2 ⟨?_, fun x hx => mono hk (hbs.2 x hx)⟩⟩)
    exact mono (Nat.le_trans hm' hk) hb.2

end CompileM

/-! ### The parts of the compiler -/

section

variable {D : Discipline} (lawful : D.Lawful) {sub : Expr → Env → CompileM Node}
  (upholds : ∀ e env n, e.Heeds D.rules → env.Below n → (sub e env).Upholds D n D.Fits) {env : Env} {n : Nat}
  (below : env.Below n)

include upholds below

theorem upholds_compileAll {es : List Expr} (heed : ∀ e ∈ es, e.Heeds D.rules) :
    (compileAll sub es env).Upholds D n (fun m nodes => nodes.length = es.length ∧ ∀ x ∈ nodes, D.Fits m x) := by
  have all := upholds_mapM (D := D) (R := fun _ _ => True) (Q := D.Fits) (fun le fits => fits.mono le) es (fun e he =>
    (upholds e env n (heed e he) below).imp (fun _ _ fits => ⟨trivial, fits⟩))
  exact all.imp (fun _ _ h => ⟨h.1.length_eq.symm, h.2⟩)

theorem upholds_compileCaptures {c : Captures} (heed : c.Heed D.rules) :
    (compileCaptures sub c env).Upholds D n (fun m t => ∃ made, t = .ofList made ∧ Parallel c.entries made ∧
      ∀ g ∈ made, ∀ x ∈ g.2, D.Fits m x) := by
  have groups := upholds_mapM (D := D) (n := n) (R := fun (g : String × List Expr) h => h.1 = g.1 ∧ h.2.length = g.2.length)
    (Q := fun m h => ∀ x ∈ h.2, D.Fits m x) (fun le h x hx => (h x hx).mono le) c.entries (fun g hg =>
      (upholds_compileAll upholds below (heed g hg)).bind (fun m nodes _ h =>
        upholds_pure (a := (g.1, nodes)) (fun k hk => ⟨⟨rfl, h.1⟩, fun x hx => (h.2 x hx).mono hk⟩)))
  refine groups.bind (fun m made _ h => upholds_pure (fun k hk => ⟨made, rfl, h.1, ?_⟩))
  exact fun g hg x hx => (h.2 g hg x hx).mono hk

include lawful

theorem upholds_fromRegistry {candidate : Expr} (heeds : candidate.Heeds D.rules) (whole : candidate.placeholder? = none) :
    (fromRegistry .standard sub candidate env).Upholds D n (fun m r => ∀ node, r = some node → D.Fits m node) := by
  unfold fromRegistry
  split
  · exact upholds_pure (fun _ _ _ h => by cases h)
  · rename_i entry captures found
    refine (upholds_compileCaptures upholds below (lawful.mild.heeds_of_find? heeds found)).bind (fun m t _ h => ?_)
    obtain ⟨made, rfl, parallel, fits⟩ := h
    have standard := Standard.isStandard_of_find? found
    refine Upholds.bind (P := D.Fits) (upholds_settled (fun node hnode k hk => ?_) (fun e he => ?_))
      (fun m' node _ h => upholds_pure (fun k hk x hx => by cases hx; exact h.mono hk))
    · refine .mk ⟨lawful.built heeds whole found parallel _ hnode, (Standard.product_of_isStandard standard hnode).reaches k⟩ (fun x hx => ?_)
      obtain ⟨g, hg, hx⟩ := (Standard.sound_of_isStandard standard).children hnode x hx
      obtain ⟨⟨name, g'⟩, hmem, rfl⟩ := List.mem_map.1 hg
      exact (fits _ (Table.mem_ofList hmem) x hx).mono hk
    · exact lawful.unbuilt heeds whole found parallel _ he

theorem upholds_fromRegistryOr {candidate : Expr} (heeds : candidate.Heeds D.rules) (whole : candidate.placeholder? = none)
    {error : CompileError} (allowed : error.isInternal = false) : (fromRegistryOr .standard sub candidate env error).Upholds D n D.Fits := by
  refine (upholds_fromRegistry lawful upholds below heeds whole).bind (fun m r _ h => ?_)
  cases r with
  | some node => exact upholds_pure (fun k hk => (h node rfl).mono hk)
  | none => exact upholds_fail (lawful.refusal allowed)

omit lawful below in
theorem upholds_compileBody {body : Expr} (heeds : body.Heeds D.rules) {scope : Env} (inside : scope.Below n) (d : Definition) :
    (compileBody sub body scope d).Upholds D n D.Fits := by
  refine (upholds body scope n heeds inside).bind (fun m node hm fits => ?_)
  refine upholds_update_bind (fun w hw hn => ⟨hw.setBody d (fits.mono hn), Nat.le_refl _, ?_⟩)
  exact upholds_pure (fun k hk => fits.mono (Nat.le_trans hn hk))

omit lawful upholds below in
theorem upholds_paramNames (lawful : D.Lawful) {problem : FormProblem} {whole : Expr} {args : List Expr} :
    (paramNames problem whole args).Upholds D n (fun _ names => args.mapM Expr.asIdent? = some names) := by
  unfold paramNames
  split
  · exact upholds_pure (fun _ _ => ‹_›)
  · exact upholds_fail (lawful.refusal rfl)

theorem upholds_compileDefine {e : Expr} (is : e.isDefine = true) (heeds : e.Heeds D.rules) :
    (compileDefine sub e env).Upholds D n (fun m r => ∀ b, r.2 = some b → D.Binds m r.1 b) := by
  obtain ⟨args, hargs⟩ := Expr.isDefine_iff.1 is
  have heeds := heeds.bare
  rw [hargs, Expr.heeds_call] at heeds
  unfold compileDefine
  cases hc : defineForm.captures? e with
  | none => exact upholds_fail (lawful.refusal rfl)
  | some c =>
    have hbare : defineForm.captures? (.call "define" args) = some c := by rw [← hargs, Captures.captures?_bare, hc]
    dsimp only
    unfold formCapture
    cases ht : (c.of "_name").head? with
    | none => exact upholds_fail (lawful.unnamed heeds.1 hbare (.inl rfl) ht)
    | some target =>
      rw [pure_bind]
      cases hv : (c.of "_value").head? with
      | none => exact upholds_fail (lawful.unnamed heeds.1 hbare (.inr rfl) hv)
      | some value =>
        rw [pure_bind]
        obtain ⟨t, v, rest, hargs', rfl, rfl, -, -, -⟩ := args_of_defines is ⟨c, hc, ht, hv⟩
        cases hargs.symm.trans hargs'
        have hvalue : v.bare.Heeds D.rules := (heeds.2 v (by simp)).bare
        rw [Expr.asIdent?_bare, Expr.asCall?_bare]
        split
        · rename_i name _ hname
          refine (upholds v.bare env n hvalue below).bind (fun m node _ fits => upholds_update_bind (fun w hw hm => ?_))
          refine ⟨hw.define env ⟨lawful.value heeds.1 hname, fits.mono hm⟩, ?_, ?_⟩
          · rw [Workspace.size_scopes_define]
          · refine upholds_pure (fun k hk b hb => ?_)
            rw [Workspace.size_scopes_define] at hk
            exact (hw.binding (Table.mem_of_get? hb)).mono hk
        · exact upholds_fail (lawful.refusal rfl)
        · rename_i name names _ hcall
          refine (upholds_paramNames lawful).bind (fun m params hm named => ?_)
          have hfunction := lawful.function heeds.1 hcall named
          refine upholds_update_bind (fun w hw hn => ⟨hw.addParams _ params, (w.extends_addScope _).scopes, ?_⟩)
          have inside := (below.mono (Nat.le_trans hm hn)).functionEnv params
          generalize (w.functionEnv env params).1 = scope at inside
          generalize (w.functionEnv env params).2.scopes.size = k at inside
          refine upholds_update_bind (fun w hw hn => ⟨hw.declare _ _ _, Nat.le_refl _, ?_⟩)
          refine upholds_update_bind (fun w' hw' hn' => ⟨hw'.define env hfunction, (w'.size_scopes_define _ _ _).ge, ?_⟩)
          rw [Workspace.size_scopes_define]
          have previous : ∀ b, (w'.define env name (.function (w.declare name params scope.depth).1)).1 = some b →
              D.Binds w'.scopes.size name b := fun b hb => hw'.binding (Table.mem_of_get? hb)
          refine Upholds.bind (P := D.Fits) ?_ (fun m _ hm _ => upholds_pure (fun l hl b hb =>
            (previous b hb).mono (Nat.le_trans hm hl)))
          refine (upholds_compileBody upholds hvalue (inside.mono (Nat.le_trans hn hn')) _).onError (fun w'' hw'' hn'' => ?_)
          refine ⟨hw''.restore env (fun b hb => (previous b hb).mono hn''), ?_⟩
          rw [Workspace.restore_eq, Workspace.size_scopes_updateScope]

omit below in
theorem upholds_compileStatements : ∀ {ss : List Expr} {ends : Bool} {n : Nat}, env.Below n → (∀ s ∈ ss, s.Heeds D.rules) →
    (compileStatements sub env ss ends).Upholds D n (fun m r => ∀ x ∈ r.1, D.Fits m x)
  | [], ends, n, _, _ => upholds_pure (fun _ _ _ hx => by cases hx)
  | s :: rest, ends, n, below, heed => by
    rw [List.forall_mem_cons] at heed
    unfold compileStatements compileStatement
    refine Upholds.bind (P := fun m st => ∀ node, st = .expr node → D.Fits m node) ?_ (fun m st hm hst => ?_)
    · split
      · exact (upholds_compileDefine lawful upholds below ‹_› heed.1).bind (fun _ _ _ _ => upholds_pure (fun _ _ _ h => by cases h))
      · exact (upholds s env n heed.1 below).bind (fun _ _ _ h => upholds_pure (fun _ hk _ hx => by cases hx; exact h.mono hk))
    · cases st with
      | defined name => exact upholds_compileStatements (below.mono hm) heed.2
      | expr node =>
        refine (upholds_compileStatements (below.mono hm) heed.2).bind (fun m' r hm' h => upholds_pure (fun k hk => ?_))
        exact List.forall_mem_cons.2 ⟨(hst node rfl).mono (Nat.le_trans hm' hk), fun x hx => (h x hx).mono hk⟩

theorem upholds_compileLambda {args : List Expr} (e : Expr) (spelled : D.rules.call "lambda" args)
    (heed : ∀ a ∈ args, a.Heeds D.rules) : (compileLambda sub (args.map Expr.bare) e env).Upholds D n D.Fits := by
  unfold compileLambda
  split
  · exact upholds_fail (lawful.refusal rfl)
  · rename_i body hlast
    have hbody : body.Heeds D.rules := by
      obtain ⟨a, ha, rfl⟩ := List.mem_map.1 (List.mem_of_getLast? hlast)
      exact (heed a ha).bare
    refine (upholds_paramNames lawful).bind (fun m params hm named => ?_)
    refine upholds_update_bind (fun w hw hn => ⟨hw.addParams _ params, (w.extends_addScope _).scopes, ?_⟩)
    refine (upholds body _ _ hbody ((below.mono (Nat.le_trans hm hn)).functionEnv params)).bind (fun m node _ fits => ?_)
    refine upholds_update_bind (fun w hw hn => ⟨hw.declare _ _ _, Nat.le_refl _, ?_⟩)
    refine upholds_update_bind (fun w' hw' hn' => ⟨hw'.setBody _ (fits.mono (Nat.le_trans hn hn')), Nat.le_refl _, ?_⟩)
    exact upholds_pure (fun k _ => .mk ⟨lawful.lambda spelled named rfl _, trivial⟩ (fun x hx => by cases hx))

theorem upholds_compileBlock {statements : List Expr} (e : Expr) (heed : ∀ s ∈ statements, s.Heeds D.rules) :
    (compileBlock sub statements e env).Upholds D n D.Fits := by
  refine upholds_update_bind (fun w hw hn => ⟨hw.addScope (fun h => by cases h), (w.extends_addScope _).scopes, ?_⟩)
  refine (upholds_compileStatements lawful upholds ((below.mono hn).childEnv) heed).bind (fun m r _ h => ?_)
  obtain ⟨nodes, ends⟩ := r
  dsimp only
  split
  · exact upholds_pure (fun k hk => .mk ⟨lawful.sequence _ _, trivial⟩ (fun x hx => (h x hx).mono hk))
  · exact upholds_fail (lawful.refusal rfl)

theorem upholds_compileName {name : String} (heeds : (Expr.ident name).Heeds D.rules) :
    (compileName .standard sub name (.ident name) env).Upholds D n D.Fits := by
  refine upholds_view_bind (fun w hw hn => ?_)
  split
  · exact upholds_pure (fun k hk => (hw.lookup_value ‹_›).mono hk)
  · exact upholds_pure (fun k _ => .mk ⟨lawful.param _ _ _, trivial⟩ (fun x hx => by cases hx))
  · refine upholds_pure (fun k hk => .mk ⟨lawful.reference (hw.lookup_function ‹_›) env, ?_⟩ (fun x hx => by cases hx))
    exact below.mono (Nat.le_trans hn hk)
  · split
    · exact upholds_fail (lawful.refusal rfl)
    · rename_i plain
      exact upholds_fromRegistryOr lawful upholds (below.mono hn) heeds (by simpa using plain) rfl

theorem upholds_compileBoundCall {name : String} {args : List Expr} (heeds : (Expr.call name args).Heeds D.rules)
    (heed : ∀ a ∈ args, a.Heeds D.rules) : (compileBoundCall .standard sub name args (.call name args) env).Upholds D n D.Fits := by
  refine upholds_view_bind (fun w hw hn => ?_)
  have all := upholds_compileAll upholds (below.mono hn) heed
  split
  · refine all.bind (fun m nodes hm h => upholds_pure (fun k hk => ?_))
    refine .mk ⟨lawful.invocation (hw.lookup_function ‹_›) _ env nodes, ?_⟩ (fun x hx => (h.2 x hx).mono hk)
    exact below.mono (Nat.le_trans hn (Nat.le_trans hm hk))
  · refine all.bind (fun m nodes hm h => upholds_pure (fun k hk => .mk ⟨lawful.application _ _ nodes, trivial⟩ ?_))
    exact List.forall_mem_cons.2 ⟨(hw.lookup_value ‹_›).mono (Nat.le_trans hm hk), fun x hx => (h.2 x hx).mono hk⟩
  · refine all.bind (fun m nodes hm h => upholds_pure (fun k hk => .mk ⟨lawful.application _ _ nodes, trivial⟩ ?_))
    refine List.forall_mem_cons.2 ⟨.mk ⟨lawful.param _ _ _, trivial⟩ (fun x hx => by cases hx), fun x hx => ?_⟩
    exact (h.2 x hx).mono hk
  · refine upholds_fromRegistryOr lawful upholds (below.mono hn) heeds rfl ?_
    split <;> rfl

theorem upholds_compileCall {name : String} {args : List Expr} (heeds : (Expr.call name args).Heeds D.rules) :
    (compileCall .standard sub name args (.call name args) env).Upholds D n D.Fits := by
  obtain ⟨spelled, heed⟩ := Expr.heeds_call.1 heeds
  by_cases hd : name = "define"
  · subst hd
    exact upholds_fail (lawful.refusal rfl)
  by_cases hl : name = "lambda"
  · subst hl
    rw [compileCall_lambda]
    exact upholds_compileLambda lawful upholds below _ spelled heed
  by_cases hb : name = "block"
  · subst hb
    rw [compileCall_block]
    refine upholds_compileBlock lawful upholds below _ (fun s hs => ?_)
    obtain ⟨a, ha, rfl⟩ := List.mem_map.1 hs
    exact (heed a ha).bare
  · rw [compileCall_plain .standard sub (by simp [isSpecial, hd, hl, hb])]
    exact upholds_compileBoundCall lawful upholds below heeds heed

theorem upholds_compileChain {e : Expr} (chain : e.isChain = true) (heeds : e.Heeds D.rules) :
    (compileChain .standard sub e env).Upholds D n D.Fits := by
  refine (upholds_fromRegistry lawful upholds below heeds (Expr.placeholder?_of_isChain chain)).bind (fun m r hm h => ?_)
  split
  · exact upholds_pure (fun k hk => (h _ rfl).mono hk)
  · split
    · exact upholds_fail (lawful.refusal rfl)
    · rename_i grouped hgrouped
      have whole : grouped.placeholder? = none := by
        obtain ⟨_, _, _, _, -, rfl, -, -⟩ := regroup?_spec hgrouped
        exact Expr.placeholder?_of_isChain rfl
      exact upholds_fromRegistryOr lawful upholds (below.mono hm) (lawful.mild.heeds_regroup heeds hgrouped) whole rfl

theorem upholds_compileStep {e : Expr} (heeds : e.Heeds D.rules) : (compileStep .standard sub e env).Upholds D n D.Fits := by
  have bare := heeds.bare
  unfold compileStep
  split
  · exact upholds_compileChain lawful upholds below ‹_› bare
  · rename_i short
    have hbare := Expr.bare_eq_ofOperand (by simpa using short)
    rw [hbare] at bare ⊢
    unfold compileOperand
    dsimp only [Expr.ofOperand]
    split
    · exact upholds_pure (fun k _ => .mk ⟨lawful.literal _, trivial⟩ (fun x hx => by cases hx))
    · rename_i name hfirst
      rw [hfirst] at bare ⊢
      exact upholds_compileName lawful upholds below bare
    · rename_i f args hfirst
      rw [hfirst] at bare ⊢
      exact upholds_compileCall lawful upholds below bare
    · rename_i inner hfirst
      rw [hfirst, Expr.heeds_ofOperand, Operand.Heeds] at bare
      exact upholds inner env n bare below
    · rename_i hfirst
      rw [hfirst] at bare ⊢
      exact upholds_fromRegistryOr lawful upholds below bare rfl rfl

end

/-! ### Expressions and units -/

theorem Discipline.Holds.rollback {D : Discipline} (env : Env) : ∀ {undo : List (String × Option Binding)} {w : Workspace},
    D.Holds w → (∀ d ∈ undo, ∀ b, d.2 = some b → D.Binds w.scopes.size d.1 b) →
    D.Holds (rollback env undo w) ∧ w.scopes.size ≤ (rollback env undo w).scopes.size
  | [], w, hw, _ => ⟨hw, Nat.le_refl _⟩
  | (name, previous) :: undo, w, hw, binds => by
    rw [List.forall_mem_cons] at binds
    have hsize : (w.restore env name previous).scopes.size = w.scopes.size := by
      rw [Workspace.restore_eq, Workspace.size_scopes_updateScope]
    have binds' : ∀ d ∈ undo, ∀ b, d.2 = some b → D.Binds (w.restore env name previous).scopes.size d.1 b := by
      rw [hsize]
      exact binds.2
    have rest := (hw.restore env binds.1).rollback env binds'
    rw [hsize] at rest
    exact rest

namespace Discipline.Lawful

variable {D : Discipline} (lawful : D.Lawful)

include lawful

/-- **Compiling an expression that heeds the rules upholds the discipline.** -/
theorem upholds_compile : ∀ (steps : Nat) (e : Expr) (env : Env) (n : Nat), e.Heeds D.rules → env.Below n →
    (compile .standard steps e env).Upholds D n D.Fits
  | 0, _, _, _, _, _ => upholds_outOfSteps
  | steps + 1, _, _, _, heeds, below => upholds_compileStep lawful (upholds_compile steps) below heeds

theorem upholds_unitNodes (steps : Nat) {env : Env} : ∀ {ss : List Expr} {undo : List (String × Option Binding)} {n : Nat},
    env.Below n → (∀ s ∈ ss, s.Heeds D.rules) → (∀ d ∈ undo, ∀ b, d.2 = some b → D.Binds n d.1 b) →
    (unitNodes .standard steps env ss undo).Upholds D n (fun m nodes => ∀ x ∈ nodes, D.Fits m x)
  | [], undo, n, _, _, _ => upholds_pure (fun _ _ _ hx => by cases hx)
  | s :: rest, undo, n, below, heed, binds => by
    rw [List.forall_mem_cons] at heed
    have cleanup : ∀ w, D.Holds w → n ≤ w.scopes.size →
        D.Holds (rollback env undo w) ∧ w.scopes.size ≤ (rollback env undo w).scopes.size :=
      fun w hw hn => hw.rollback env (fun d hd b hb => (binds d hd b hb).mono hn)
    unfold unitNodes
    split
    · refine ((upholds_compileDefine lawful (lawful.upholds_compile steps) below ‹_› heed.1).onError cleanup).bind
        (fun m defined hm h => upholds_unitNodes steps (below.mono hm) heed.2 ?_)
      exact List.forall_mem_cons.2 ⟨h, fun d hd b hb => (binds d hd b hb).mono hm⟩
    · refine ((lawful.upholds_compile steps s env n heed.1 below).onError cleanup).bind (fun m node hm fits => ?_)
      refine (upholds_unitNodes steps (below.mono hm) heed.2 (fun d hd b hb => (binds d hd b hb).mono hm)).bind
        (fun m' nodes hm' h => upholds_pure (fun k hk => ?_))
      exact List.forall_mem_cons.2 ⟨fits.mono (Nat.le_trans hm' hk), fun x hx => (h x hx).mono hk⟩

/-- **Compiling a unit upholds the discipline**, and its main function takes no arguments. -/
theorem upholds_compileUnit (steps : Nat) {env : Env} {n : Nat} (below : env.Below n) {ss : List Expr}
    (heed : ∀ s ∈ ss, s.Heeds D.rules) : (compileUnit .standard steps ss env).Upholds D n
      (fun _ main => main.definition.params = [] ∧ main.captured = [] ∧ main.applied = []) := by
  refine (lawful.upholds_unitNodes steps below heed (fun _ hd => by cases hd)).bind (fun m nodes _ h => ?_)
  refine upholds_update_bind (fun w hw hn => ⟨hw.declare _ _ _, Nat.le_refl _, ?_⟩)
  refine upholds_update_bind (fun w' hw' hn' => ⟨hw'.setBody _ ?_, Nat.le_refl _, ?_⟩)
  · exact .mk ⟨lawful.sequence _ _, trivial⟩ (fun x hx => (h x hx).mono (Nat.le_trans hn hn'))
  · exact upholds_pure (fun _ _ => ⟨rfl, rfl, rfl⟩)

end Discipline.Lawful

end ChainCalc
