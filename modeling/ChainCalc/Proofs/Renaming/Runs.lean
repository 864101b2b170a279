import ChainCalc.Proofs.Addressing.History
import ChainCalc.Proofs.Compile.Sessions
import ChainCalc.Proofs.Expr.Equality
import ChainCalc.Proofs.Renaming.Compile
import ChainCalc.Proofs.Renaming.Neutral
/-!
# Renamed programs are run alike

A program in which a parameter was renamed runs wherever the program does, and ends with the same value unless that is a
function (`renaming_is_invisible`).  The new name may be a placeholder for patterns; what it may not be is an ellipsis
where the matcher would take it for one.  There the renaming shows (`renaming_to_ellipsis_is_visible`): an operand is
dropped, a call or a definition is refused.
-/
namespace ChainCalc

/-! ### Workspaces before the program -/

/-- Nodes that compute without looking at names; of sources nothing is asked. -/
def Discipline.blind : Discipline where
  rules := ⟨fun _ _ => True, fun _ _ => True⟩
  node
    | .kernel _ _ _ compute => compute.Blind
    | _ => True
  value _ := True
  function _ _ := True
  error _ := True

mutual

theorem Operand.heeds_blind : ∀ x : Operand, x.Heeds Discipline.blind.rules
  | .lit _ | .ident _ => by simp [Operand.Heeds]
  | .call _ args => by rw [Operand.Heeds]; exact ⟨trivial, Expr.allHeed_blind args⟩
  | .paren inner => by rw [Operand.Heeds]; exact Expr.heeds_blind inner
  | .unary _ x => by rw [Operand.Heeds]; exact Operand.heeds_blind x

theorem Expr.heeds_blind : ∀ e : Expr, e.Heeds Discipline.blind.rules
  | ⟨first, rest⟩ => by rw [Expr.Heeds]; exact ⟨Operand.heeds_blind first, Link.heed_blind first rest⟩

theorem Link.heed_blind : ∀ (x : Operand) (ls : List Link), Link.Heed Discipline.blind.rules x ls
  | _, [] => by rw [Link.Heed]; trivial
  | _, ⟨_, y⟩ :: ls => by rw [Link.Heed]; exact ⟨trivial, Operand.heeds_blind y, Link.heed_blind y ls⟩

theorem Expr.allHeed_blind : ∀ es : List Expr, Expr.AllHeed Discipline.blind.rules es
  | [] => by rw [Expr.AllHeed]; trivial
  | e :: es => by rw [Expr.AllHeed]; exact ⟨Expr.heeds_blind e, Expr.allHeed_blind es⟩

end

theorem Discipline.lawful_blind : Discipline.blind.Lawful where
  mild := ⟨fun _ _ => trivial, fun _ _ _ => trivial, fun _ _ => trivial⟩
  literal _ := trivial
  param _ _ _ := trivial
  reference _ _ := trivial
  invocation _ _ _ _ := trivial
  application _ _ _ := trivial
  sequence _ _ := trivial
  lambda _ _ _ _ _ := trivial
  value _ _ := trivial
  function _ _ _ := trivial
  built _ _ found _ _ made := by
    cases Standard.product_of_find? found made with
    | kernel known => exact Standard.blind_of_isKernel known
    | _ => trivial
  unbuilt _ _ _ _ _ _ := trivial
  unnamed _ _ _ _ := trivial
  refusal _ := trivial

theorem Discipline.Fits.good {n : Nat} {node : Node} (h : Discipline.blind.Fits n node) : node.Good (fun _ env => env.Below n) := by
  induction h with
  | @mk node here _ ih =>
    refine .mk ?_ ih
    cases node with
    | kernel name label operands compute => exact here.1
    | functionRef name env => exact here.2
    | invoke name site env args => exact here.2
    | _ => trivial

section

variable {w : Workspace} (holds : Discipline.blind.Holds w) (x y : String)

theorem usable_old {name : String} {env : Env} (below : env.Below w.scopes.size) : Usable w.scopes.size x y w name env :=
  ⟨below, fun _ => below, fun _ => Workspace.renamedAt_old below⟩

include holds

/-- **A workspace is its own mirror before anything is renamed in it**, whatever the names mean there. -/
theorem mirror_self : w.Mirror w.scopes.size x y w := by
  have good : ∀ {node : Node}, Discipline.blind.Fits w.scopes.size node → node.Sim (Usable w.scopes.size x y w) node :=
    fun fits => ⟨rfl, fits.good.mono (fun _ _ => usable_old x y)⟩
  have sim : ∀ i name, Option.Rel (Binding.Sim (Usable w.scopes.size x y w)) ((w.scope i).get? name) ((w.scope i).get? name) := by
    intro i name
    cases hb : (w.scope i).get? name with
    | none => exact .none
    | some b =>
      have binds := holds.binding (Table.mem_of_get? hb)
      cases b with
      | value node => exact .some (.value (good binds.2))
      | function d => exact .some (.function rfl)
      | param depth index => exact .some (.param depth index)
  have new : ∀ i, ¬ i < w.scopes.size → (w.scope i).get? y = none := by
    intro i hi
    rw [Workspace.scope_eq_empty (Nat.not_lt.1 hi)]
    rfl
  refine ⟨Nat.le_refl _, rfl, rfl, rfl, fun i => ⟨fun name _ _ => sim i name, .inl ⟨new i, sim i x⟩⟩, fun i => ?_⟩
  cases hb : (w.bodies[i]?).join with
  | none => exact .none
  | some node => exact .some (good (holds.body hb))

theorem stage_self {env : Env} (below : env.Below w.scopes.size) : Stage w.scopes.size x y false env w w where
  mirror := mirror_self holds x y
  within := below
  layered := List.pairwise_iff_forall_sublist.2 (fun h _ => below _ (h.subset (by simp)))
  flag := Workspace.renamedAt_old below

end

/-! ### Runs -/

/-- The second source is the first one with `x` renamed to `y` in some of the forms that bind it. -/
def Renames (care : Care) (x y source source' : String) : Prop :=
  ∃ ss ss', Program.parse source = .ok ss ∧ Program.parse source' = .ok ss' ∧ StatementsRenamed care x y false ss ss'

theorem Engine.run_eq_ok {e : Engine} {n : Nat} {source : String} {ss : List Expr} {w w₁ : Workspace} {v : Value}
    (read : Program.parse source = .ok ss) :
    (e.run n source).run w = some (.ok v, w₁) ↔ ∃ main, (compileUnit e.registry n ss e.globals).Gives w main w₁ ∧
      (ChainCalc.call w₁ n main [] (e.context w₁) main.definition.name).run = some (.ok v) := by
  rw [run_run]
  constructor
  · intro h
    split at h
    · cases h
    · cases h
    · rename_i main w₂ hcompile
      obtain ⟨rfl, ⟨u, hu, hcall⟩ | ⟨_, herror, -⟩⟩ := run_of_callAt h
      · cases hu
        exact ⟨main, gives_of_compile read hcompile, hcall⟩
      · cases herror
  · rintro ⟨main, gives, hcall⟩
    rw [run_compile read, show (compileUnit e.registry n ss e.globals).run w = some (.ok main, w₁) from gives]
    dsimp only
    rw [run_callAt, hcall]

/-- **A renaming does not show in what a program gives.**  After any history, an engine runs the renamed source wherever it
runs the source, in as many steps, and both have the same value unless it is a function.  The new name is fresh, no special
form and no call of the registry; it may be a placeholder, and an ellipsis where the matcher does not take it for one. -/
theorem renaming_is_invisible {x y source source' : String} {w w₁ : Workspace} {es : List Engine} {vs : List Value}
    {log : List Event} (past : History w es vs log) {e : Engine} (mem : e ∈ es) {n : Nat} {v : Value} (hxy : x ≠ y)
    (special : isSpecial y = false) (primitive : Registry.standard.isCallName y = false)
    (renames : Renames (.asked x y) x y source source') (accepted : (e.run n source).run w = some (.ok v, w₁))
    (plain : v.asFunction? = none) : ∃ w₁', (e.run n source').run w = some (.ok v, w₁') := by
  obtain ⟨holds, placed⟩ := past.orderly.holds Discipline.lawful_blind (fun _ _ _ s _ => s.heeds_blind)
    (fun _ => ⟨trivial, trivial⟩)
  obtain ⟨standard, below⟩ := placed e mem
  obtain ⟨ss, ss', read, read', renamed⟩ := renames
  obtain ⟨main, gives, hcall⟩ := (Engine.run_eq_ok read).1 accepted
  rw [standard] at gives
  obtain ⟨w₁', gives', mirror⟩ := compileUnit_renamed (suits_asked primitive) hxy special renamed (stage_self holds x y below)
    (fun old => absurd (below e.globals.here List.mem_cons_self) (Nat.not_lt.2 old)) gives
  -- both start to evaluate the same function in the same context
  have context : Context.Same (e.context w₁) (e.context w₁') := ⟨rfl, rfl, mirror.store, rfl⟩
  obtain ⟨v', hcall', same⟩ := ((mirror.alike.lawful.inStep n).call rfl .nil context trivial).result hcall
  obtain rfl := Value.eq_of_anon_eq same plain
  rw [← standard] at gives'
  exact ⟨w₁', (Engine.run_eq_ok read').2 ⟨main, gives', hcall'⟩⟩

/-! ### Programs compared -/

/-- A program that defines a function of one parameter and calls it with a literal, renamed. -/
theorem renames_of_body {care : Care} {x y source source' : String} (f : String) (l : Literal) (body body' : Expr)
    (read : Program.parse source = .ok [.call "define" [.call f [.ident x], body], .call f [.lit l]])
    (read' : Program.parse source' = .ok [.call "define" [.call f [.ident y], body'], .call f [.lit l]])
    (hxy : x ≠ y) (hf : f ≠ y) (plain : isSpecial f = false) (safe : care.call "define" [.call f [.ident x], body])
    (safe' : care.call "define" [.call f [.ident y], body']) (called : care.call f [.lit l])
    (inside : ExprRenamed care x y true body body') : Renames care x y source source' := by
  have named : [Expr.ident x].mapM Expr.asIdent? = some [x] := rfl
  have named' : [Expr.ident y].mapM Expr.asIdent? = some (renamedParams x y true [x]) := by
    rw [show renamedParams x y true [x] = [y] by simp [renamedParams]]
    rfl
  have inner : ExprRenamed care x y (if x ∈ [x] then true else false && f != x) body body' := by
    rw [if_pos (List.mem_singleton.2 rfl)]
    exact inside
  have tail : StatementsRenamed care x y (false && f != x) [.call f [.lit l]] [.call f [.lit l]] :=
    .expr (.ofOperand (.call plain hf (fun _ => rfl) called called (.cons (.ofOperand (.lit _ l)) (.nil _)))) (.nil _)
  exact ⟨_, _, read, read', .function rfl rfl safe safe' rfl rfl hf named named' (by simpa using hxy.symm) inner (.nil _) tail⟩

def endsPlain (r : Option (Except Failure Value × Workspace)) : Bool :=
  r.any (fun p => p.1.toOption.any (fun v => v.asFunction?.isNone))

theorem exists_of_endsPlain {r : Option (Except Failure Value × Workspace)} (h : endsPlain r = true) :
    ∃ v w, r = some (.ok v, w) ∧ v.asFunction? = none := by
  rcases r with _ | ⟨_ | v, w⟩
  · cases h
  · cases h
  · exact ⟨v, w, rfl, Option.isNone_iff_eq_none.1 h⟩

theorem renaming_is_invisible_product :
    let source := "define(f(x), x * 2 + 1); f(3)"
    let source' := "define(f(__k), __k * 2 + 1); f(3)"
    let (e, w) := Engine.new .standard {} {}
    Renames (.asked "x" "__k") "x" "__k" source source' ∧ History w [e] [] [] ∧
      ∃ v w₁ w₁', (e.run 20 source).run w = some (.ok v, w₁) ∧ v.asFunction? = none ∧
        (e.run 20 source').run w = some (.ok v, w₁') := by
  intro source source'
  let body (k : String) : Expr := ⟨.ident k, [⟨.mul, .lit (.int 2)⟩, ⟨.add, .lit (.int 1)⟩]⟩
  have asked : Care.asked "x" "__k" = .spelled "x" := if_neg (by decide +kernel)
  have safe : ∀ k : String, (Care.spelled "x").call "define" [.call "f" [.ident k], body k] := by
    intro k
    refine ⟨fun _ a ha => ?_, fun h => absurd h (by decide +kernel)⟩
    simp only [List.mem_cons, List.not_mem_nil, or_false] at ha
    rcases ha with rfl | rfl <;> rfl
  have called : (Care.spelled "x").call "f" [.lit (.int 3)] := by
    refine ⟨fun _ a ha => ?_, fun h => absurd h (by decide +kernel)⟩
    cases List.mem_singleton.1 ha
    rfl
  have renames : Renames (.asked "x" "__k") "x" "__k" source source' := by
    rw [asked]
    refine renames_of_body "f" (.int 3) (body "x") (body "__k") (by decide +kernel) (by decide +kernel) (by decide) (by decide)
      rfl (safe "x") (safe "__k") called ?_
    exact .mk .parameter (.cons _ (.lit _ _) rfl rfl (.cons _ (.lit _ _) rfl rfl (.nil _)))
  have past : History (Engine.new .standard {} {}).2 [(Engine.new .standard {} {}).1] [] [] := .engine .start {}
  obtain ⟨v, w₁, accepted, plain⟩ := exists_of_endsPlain
    (show endsPlain (((Engine.new .standard {} {}).1.run 20 source).run (Engine.new .standard {} {}).2) = true by decide +kernel)
  obtain ⟨w₁', accepted'⟩ := renaming_is_invisible past List.mem_cons_self (by decide) (by decide) (by decide +kernel) renames
    accepted plain
  exact ⟨renames, past, v, w₁, w₁', accepted, plain, accepted'⟩

/-! ### Renamings that show -/

def answer (source : String) : Option (Except Failure String) := (runSource 20 source).map (Except.map Value.text)

/-- **Renamings that show.**  An ellipsis as last operand is dropped, as an argument it is refused by the pattern, and as the
value of a definition it confuses the form.  A call of a placeholder finds the name of the pattern among the parameters. -/
theorem renaming_to_ellipsis_is_visible :
    (Renames .none "x" "__x" "define(f(x), 1 + 2 + x); f(10)" "define(f(__x), 1 + 2 + __x); f(10)" ∧
      answer "define(f(x), 1 + 2 + x); f(10)" = some (.ok "13") ∧
      answer "define(f(__x), 1 + 2 + __x); f(10)" = some (.ok "3")) ∧
    (Renames .none "x" "__x" "define(f(x), if(x, 1, 2)); f(true)" "define(f(__x), if(__x, 1, 2)); f(true)" ∧
      answer "define(f(x), if(x, 1, 2)); f(true)" = some (.ok "1") ∧
      answer "define(f(__x), if(__x, 1, 2)); f(true)" = some (.error (.compile (.noMatchingPattern "if(__x, 1, 2)")))) ∧
    (Renames .none "x" "__x" "define(f(x), x); f(10)" "define(f(__x), __x); f(10)" ∧
      answer "define(f(x), x); f(10)" = some (.ok "10") ∧
      (answer "define(f(__x), __x); f(10)").any (fun r => r.toOption.isNone) = true) ∧
    (Renames .none "if" "k" "define(f(if), _then(true, 2, 3)); f(7)" "define(f(k), _then(true, 2, 3)); f(7)" ∧
      answer "define(f(if), _then(true, 2, 3)); f(7)" = some (.ok "7") ∧
      answer "define(f(k), _then(true, 2, 3)); f(7)" = some (.error (.compile (.unbound "if" "if")))) ∧
    isSpecial "__x" = false ∧ Registry.standard.isCallName "__x" = false ∧
      isSpecial "k" = false ∧ Registry.standard.isCallName "k" = false := by
  let sum (k : String) : Expr := ⟨.lit (.int 1), [⟨.add, .lit (.int 2)⟩, ⟨.add, .ident k⟩]⟩
  let choice (k : String) : Expr := .call "if" [.ident k, .lit (.int 1), .lit (.int 2)]
  let call : Expr := .call "_then" [.lit (.bool true), .lit (.int 2), .lit (.int 3)]
  have literal : ∀ {x y : String} {on : Bool} (l : Literal), ExprRenamed .none x y on (.lit l) (.lit l) :=
    fun l => .ofOperand (.lit _ l)
  refine ⟨⟨?_, by decide +kernel, by decide +kernel⟩, ⟨?_, by decide +kernel, by decide +kernel⟩,
    ⟨?_, by decide +kernel, by decide +kernel⟩, ⟨?_, by decide +kernel, by decide +kernel⟩, by decide, by decide +kernel,
    by decide, by decide +kernel⟩
  · refine renames_of_body "f" (.int 10) (sum "x") (sum "__x") (by decide +kernel) (by decide +kernel) (by decide) (by decide)
      rfl trivial trivial trivial ?_
    exact .mk (.lit _ _) (.cons _ (.lit _ _) trivial trivial (.cons _ .parameter trivial trivial (.nil _)))
  · refine renames_of_body "f" (.bool true) (choice "x") (choice "__x") (by decide +kernel) (by decide +kernel) (by decide)
      (by decide) rfl trivial trivial trivial ?_
    exact .ofOperand (.call rfl (by decide) (by decide) trivial trivial
      (.cons (.ofOperand .parameter) (.cons (literal _) (.cons (literal _) (.nil _)))))
  · exact renames_of_body "f" (.int 10) (.ident "x") (.ident "__x") (by decide +kernel) (by decide +kernel) (by decide)
      (by decide) rfl trivial trivial trivial (.ofOperand .parameter)
  · refine renames_of_body "f" (.int 7) call call (by decide +kernel) (by decide +kernel) (by decide) (by decide) rfl trivial
      trivial trivial ?_
    exact .ofOperand (.call rfl (by decide) (by decide) trivial trivial
      (.cons (literal _) (.cons (literal _) (.cons (literal _) (.nil _)))))

end ChainCalc
