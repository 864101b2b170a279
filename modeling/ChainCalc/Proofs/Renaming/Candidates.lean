import ChainCalc.Proofs.Compile.Forms
import ChainCalc.Proofs.Renaming.Spelling
/-!
# Candidates of renamed programs

The registry is asked about chains, calls and operators in front.  It takes no notice of a renaming if no ellipsis stands
where the matcher would take it for one (`suits_spelled`).  If neither name is an ellipsis itself nor stands in a pattern,
it takes no notice whatever else the program has in it (`suits_none`).
-/
namespace ChainCalc

def SettledAlike (S : Expr → Expr → Prop) (c c' : Expr) : Prop :=
  Option.Rel (fun found found' => found.1 = found'.1 ∧ SameCaptures S found.2 found'.2) (Registry.standard.find? c)
    (Registry.standard.find? c')

/-- **With this care, neither the registry nor the form of a definition takes notice of the renaming.** -/
structure Care.Suits (care : Care) (x y : String) : Prop where
  group : ∀ {e : Expr}, care.behind e.first → care.behind (.group e)
  chain : ∀ {on : Bool} {c c' : Expr}, c.isChain = true → ExprRenamed care x y on c c' →
    SettledAlike (ExprRenamed care x y on) c c'
  call : ∀ {on : Bool} {f : String} {args args' : List Expr}, List.Forall₂ (ExprRenamed care x y on) args args' →
    care.call f args → care.call f args' → SettledAlike (ExprRenamed care x y on) (.call f args) (.call f args')
  define : ∀ {on : Bool} {args args' : List Expr} {a a' : Expr}, care.call "define" args → care.call "define" args' →
    a ∈ args → a' ∈ args' → ExprRenamed care x y on a a' → a'.ellipsis?.isSome = a.ellipsis?.isSome

section

variable {care : Care} {x y : String} {on : Bool}

theorem settledAlike_of_form {c c' : Expr}
    (form : SameForm (OperandRenamed care x y on) (BehindRenamed care x y on) (ExprRenamed care x y on) c c') :
    SettledAlike (ExprRenamed care x y on) c c' :=
  find?_parallel (fun h => h.1) (fun h => (exprRenamed_iff.2 h).bare) form

theorem settledAlike_unary (op : Operator) {o o' : Operand} (h : OperandRenamed care x y on o o') :
    SettledAlike (ExprRenamed care x y on) (.ofOperand (.unary op o)) (.ofOperand (.unary op o')) :=
  settledAlike_of_form (.unary op (ExprRenamed.ofOperand h).bare)

theorem settledAlike_name {f : String} (plain : Placeholder.classify f = none) :
    SettledAlike (ExprRenamed care x y on) (.ident f) (.ident f) := settledAlike_of_form (.name plain)

end

/-! ### No ellipsis where it would be taken for one -/

/-- **No name of an ellipsis where it would be taken for one**: behind an operator, or among the arguments of a call that
the registry may settle.  A call of a placeholder captures the name of the pattern; then the renamed parameter must not
be such a name. -/
def Care.spelled (x : String) : Care where
  behind o := o.isEllipsis = false
  call f args :=
    (f = "define" ∨ Registry.standard.isCallName f = true ∨ Registry.standard.isHole f = true →
      ∀ a ∈ args, a.ellipsis? = Option.none) ∧
    (Registry.standard.isHole f = true → Registry.standard.isCallName x = false)

theorem Operand.isEllipsis_group {e : Expr} (h : e.first.isEllipsis = false) : (Operand.group e).isEllipsis = false := by
  obtain ⟨first, rest⟩ := e
  cases rest with
  | nil => exact h
  | cons l ls => rfl

section

variable {x y : String} {on : Bool}

theorem ExprRenamed.steady {e e' : Expr} (h : ExprRenamed (.spelled x) x y on e e') :
    (Cursor.start e).Steady ∧ (Cursor.start e').Steady := by
  have hrest := (exprRenamed_iff.1 h).2
  rw [Cursor.steady_start, Cursor.steady_start]
  generalize e.rest = ls at hrest
  generalize e'.rest = ls' at hrest
  induction hrest with
  | nil => exact ⟨fun _ hl => (by cases hl), fun _ hl => (by cases hl)⟩
  | cons head _ ih =>
    rw [List.forall_mem_cons, List.forall_mem_cons]
    exact ⟨⟨head.2.2.1, ih.1⟩, head.2.2.2, ih.2⟩

theorem suits_spelled (hname : Registry.standard.isCallName y = false) : (Care.spelled x).Suits x y where
  group := Operand.isEllipsis_group
  chain long renamed := settledAlike_of_form (.chain long renamed.steady.1 renamed.steady.2 (exprRenamed_iff.1 renamed))
  call := by
    intro on f args args' renamed safe safe'
    by_cases known : Registry.standard.isCallName f = true ∨ Registry.standard.isHole f = true
    · refine settledAlike_of_form (.call (renamed.imp (fun _ _ h => h.bare)) (safe.1 (.inr known)) (safe'.1 (.inr known)) ?_)
      -- a name of the registry that is captured is not the renamed parameter, before or after
      intro hole g hg
      refine .ofOperand (.name ?_ (fun heq => ?_))
      · rintro rfl
        rw [hname] at hg
        cases hg
      · rw [heq, safe.2 hole] at hg
        cases hg
    · have unknown : ∀ as, Registry.standard.find? (.call f as) = none := by
        intro as
        cases hf : Registry.standard.find? (.call f as) with
        | none => rfl
        | some found => exact absurd (name_of_find?_call hf) known
      unfold SettledAlike
      rw [unknown, unknown]
      exact .none
  define := by
    intro on args args' a a' safe safe' ha ha' _
    rw [safe.1 (.inl rfl) a ha, safe'.1 (.inl rfl) a' ha']

end

end ChainCalc
