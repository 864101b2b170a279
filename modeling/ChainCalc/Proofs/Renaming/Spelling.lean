import ChainCalc.Proofs.Compile.Steps
import ChainCalc.Proofs.Standard.Patterns
/-!
# Renamed programs — one parameter under another name

A program and the same program with a parameter `x` renamed to `y`, wherever `x` stands for that parameter.  Each of the
forms that bind `x` as a parameter may be renamed or left alone; a name that is bound nearer hides the parameter as it
does for the compiler.
-/
namespace ChainCalc

/-- What is asked of the places where a name could be taken for a placeholder: operands behind an operator, and calls. -/
structure Care where
  behind : Operand → Prop
  call : String → List Expr → Prop

def Care.none : Care := ⟨fun _ => True, fun _ _ => True⟩

def renamedParams (x y : String) (chosen : Bool) (params : List String) : List String :=
  if chosen then params.map (fun p => if p = x then y else p) else params

section

variable (care : Care) (x y : String)

mutual

/-- An operand with `x` renamed to `y`; `on` says whether `x` stands for the renamed parameter here. -/
inductive OperandRenamed : Bool → Operand → Operand → Prop
  | lit (on : Bool) (value : Literal) : OperandRenamed on (.lit value) (.lit value)
  | name {on : Bool} {z : String} (fresh : z ≠ y) (other : z = x → on = false) : OperandRenamed on (.ident z) (.ident z)
  | parameter : OperandRenamed true (.ident x) (.ident y)
  | call {on : Bool} {f : String} {args args' : List Expr} (plain : isSpecial f = false) (fresh : f ≠ y)
      (other : f = x → on = false) (safe : care.call f args) (safe' : care.call f args')
      (inside : ExprsRenamed on args args') : OperandRenamed on (.call f args) (.call f args')
  | callParameter {args args' : List Expr} (plain : isSpecial x = false) (inside : ExprsRenamed true args args') :
      OperandRenamed true (.call x args) (.call y args')
  | lambda {on chosen : Bool} {names names' : List Expr} {params : List String} {body body' : Expr}
      (named : names.mapM Expr.asIdent? = some params)
      (named' : names'.mapM Expr.asIdent? = some (renamedParams x y chosen params)) (fresh : y ∉ params)
      (inside : ExprRenamed (if x ∈ params then chosen else on) body body') :
      OperandRenamed on (.call "lambda" (names ++ [body])) (.call "lambda" (names' ++ [body']))
  | block {on : Bool} {ss ss' : List Expr} (inside : StatementsRenamed on ss ss') :
      OperandRenamed on (.call "block" ss) (.call "block" ss')
  | paren {on : Bool} {e e' : Expr} (inside : ExprRenamed on e e') : OperandRenamed on (.paren e) (.paren e')
  | unary {on : Bool} {o o' : Operand} (op : Operator) (inside : OperandRenamed on o o') :
      OperandRenamed on (.unary op o) (.unary op o')

inductive ExprRenamed : Bool → Expr → Expr → Prop
  | mk {on : Bool} {first first' : Operand} {rest rest' : List Link} (head : OperandRenamed on first first')
      (tail : LinksRenamed on rest rest') : ExprRenamed on ⟨first, rest⟩ ⟨first', rest'⟩

inductive LinksRenamed : Bool → List Link → List Link → Prop
  | nil (on : Bool) : LinksRenamed on [] []
  | cons {on : Bool} {o o' : Operand} {rest rest' : List Link} (op : Operator) (head : OperandRenamed on o o')
      (safe : care.behind o) (safe' : care.behind o') (tail : LinksRenamed on rest rest') :
      LinksRenamed on (⟨op, o⟩ :: rest) (⟨op, o'⟩ :: rest')

inductive ExprsRenamed : Bool → List Expr → List Expr → Prop
  | nil (on : Bool) : ExprsRenamed on [] []
  | cons {on : Bool} {e e' : Expr} {rest rest' : List Expr} (head : ExprRenamed on e e') (tail : ExprsRenamed on rest rest') :
      ExprsRenamed on (e :: rest) (e' :: rest')

/-- Statements with `x` renamed to `y`.  A statement that defines `x` itself hides the parameter from there on. -/
inductive StatementsRenamed : Bool → List Expr → List Expr → Prop
  | nil (on : Bool) : StatementsRenamed on [] []
  | expr {on : Bool} {s s' : Expr} {rest rest' : List Expr} (head : ExprRenamed on s s')
      (tail : StatementsRenamed on rest rest') : StatementsRenamed on (s :: rest) (s' :: rest')
  | value {on : Bool} {z : String} {s s' t t' v v' : Expr} {more more' rest rest' : List Expr}
      (form : s.bare = .call "define" (t :: v :: more)) (form' : s'.bare = .call "define" (t' :: v' :: more'))
      (safe : care.call "define" (t :: v :: more)) (safe' : care.call "define" (t' :: v' :: more'))
      (named : t.asIdent? = some z) (named' : t'.asIdent? = some z) (fresh : z ≠ y) (inside : ExprRenamed on v v')
      (after : ExprsRenamed on more more') (tail : StatementsRenamed (on && z != x) rest rest') :
      StatementsRenamed on (s :: rest) (s' :: rest')
  | function {on chosen : Bool} {f : String} {params : List String} {s s' t t' v v' : Expr}
      {names names' more more' rest rest' : List Expr}
      (form : s.bare = .call "define" (t :: v :: more)) (form' : s'.bare = .call "define" (t' :: v' :: more'))
      (safe : care.call "define" (t :: v :: more)) (safe' : care.call "define" (t' :: v' :: more'))
      (called : t.asCall? = some (f, names)) (called' : t'.asCall? = some (f, names')) (fresh : f ≠ y)
      (named : names.mapM Expr.asIdent? = some params)
      (named' : names'.mapM Expr.asIdent? = some (renamedParams x y chosen params)) (free : y ∉ params)
      (inside : ExprRenamed (if x ∈ params then chosen else on && f != x) v v') (after : ExprsRenamed on more more')
      (tail : StatementsRenamed (on && f != x) rest rest') : StatementsRenamed on (s :: rest) (s' :: rest')

end

end

section

variable {care : Care} {x y : String} {on : Bool}

theorem ExprsRenamed.forall₂ {es es' : List Expr} (h : ExprsRenamed care x y on es es') :
    List.Forall₂ (ExprRenamed care x y on) es es' := by
  induction es generalizing es' with
  | nil => cases h; exact .nil
  | cons e es ih =>
    cases h with
    | cons head tail => exact .cons head (ih tail)

def BehindRenamed (care : Care) (x y : String) (on : Bool) (o o' : Operand) : Prop :=
  OperandRenamed care x y on o o' ∧ care.behind o ∧ care.behind o'

theorem linksRenamed_iff {ls ls' : List Link} :
    LinksRenamed care x y on ls ls' ↔ List.Forall₂ (Link.Parallel (BehindRenamed care x y on)) ls ls' := by
  constructor
  · intro h
    induction ls generalizing ls' with
    | nil => cases h; exact .nil
    | cons l ls ih =>
      cases h with
      | cons op head safe safe' tail => exact .cons ⟨rfl, head, safe, safe'⟩ (ih tail)
  · intro h
    induction h with
    | nil => exact .nil on
    | @cons l l' ls ls' head _ ih =>
      obtain ⟨op, o⟩ := l
      obtain ⟨op', o'⟩ := l'
      obtain ⟨hop, hrenamed, safe, safe'⟩ := head
      obtain rfl : op = op' := hop
      exact .cons op hrenamed safe safe' ih

theorem exprRenamed_iff {e e' : Expr} :
    ExprRenamed care x y on e e' ↔ e.Parallel (OperandRenamed care x y on) (BehindRenamed care x y on) e' := by
  obtain ⟨first, rest⟩ := e
  obtain ⟨first', rest'⟩ := e'
  constructor
  · intro h
    cases h with
    | mk head tail => exact ⟨head, linksRenamed_iff.1 tail⟩
  · rintro ⟨head, tail⟩
    exact .mk head (linksRenamed_iff.2 tail)

theorem ExprRenamed.ofOperand {o o' : Operand} (h : OperandRenamed care x y on o o') :
    ExprRenamed care x y on (.ofOperand o) (.ofOperand o') := .mk h (.nil on)

theorem ExprRenamed.operand {o : Operand} {e' : Expr} (h : ExprRenamed care x y on (.ofOperand o) e') :
    ∃ o', e' = .ofOperand o' ∧ OperandRenamed care x y on o o' := by
  cases h with
  | mk head tail =>
    cases tail
    exact ⟨_, rfl, head⟩

theorem ExprRenamed.bare {e e' : Expr} (h : ExprRenamed care x y on e e') : ExprRenamed care x y on e.bare e'.bare := by
  fun_induction Expr.bare e generalizing e' with
  | case1 e ih =>
    cases h with
    | mk head tail =>
      cases tail
      cases head with
      | paren inside =>
        have hinner := ih inside
        exact hinner
  | case2 e hne =>
    have hne' : ∀ inner, e' ≠ ⟨.paren inner, []⟩ := by
      rintro inner rfl
      cases h with
      | mk head tail =>
        cases tail
        cases head with
        | paren inside => exact hne _ rfl
    rw [Expr.bare_of_ne_paren hne']
    exact h

theorem OperandRenamed.ne_define {o o' : Operand} (hy : isSpecial y = false) (h : OperandRenamed care x y on o o') :
    (∀ args, o ≠ .call "define" args) ∧ ∀ args, o' ≠ .call "define" args := by
  have special : isSpecial "define" = true := by decide
  have other : ∀ {f : String} {args as : List Expr}, isSpecial f = false → Operand.call f args ≠ .call "define" as := by
    rintro f args as hf heq
    cases heq
    rw [special] at hf
    cases hf
  cases h with
  | call plain _ _ _ _ _ => exact ⟨fun _ => other plain, fun _ => other plain⟩
  | callParameter plain _ => exact ⟨fun _ => other plain, fun _ => other hy⟩
  | lambda _ _ _ _ => exact ⟨by simp, by simp⟩
  | block _ => exact ⟨by simp, by simp⟩
  | lit | name | parameter | paren | unary => exact ⟨by simp, by simp⟩

/-- No renamed expression is a definition; those are statements. -/
theorem ExprRenamed.isDefine {e e' : Expr} (hy : isSpecial y = false) (h : ExprRenamed care x y on e e') :
    e.isDefine = false ∧ e'.isDefine = false := by
  have hfirst := (exprRenamed_iff.1 h.bare).1.ne_define hy
  constructor
  · rw [Bool.eq_false_iff]
    intro hdefine
    obtain ⟨args, heq⟩ := Expr.isDefine_iff.1 hdefine
    exact hfirst.1 args (congrArg Expr.first heq)
  · rw [Bool.eq_false_iff]
    intro hdefine
    obtain ⟨args, heq⟩ := Expr.isDefine_iff.1 hdefine
    exact hfirst.2 args (congrArg Expr.first heq)

theorem StatementsRenamed.bare {ss ss' : List Expr} (h : StatementsRenamed care x y on ss ss') :
    StatementsRenamed care x y on (ss.map Expr.bare) (ss'.map Expr.bare) := by
  induction ss generalizing on ss' with
  | nil => cases h; exact .nil on
  | cons s ss ih =>
    cases h with
    | expr head tail => exact .expr head.bare (ih tail)
    | value form form' safe safe' named named' fresh inside after tail =>
      exact .value (by rw [Expr.bare_bare, form]) (by rw [Expr.bare_bare, form']) safe safe' named named' fresh inside after
        (ih tail)
    | function form form' safe safe' called called' fresh named named' free inside after tail =>
      exact .function (by rw [Expr.bare_bare, form]) (by rw [Expr.bare_bare, form']) safe safe' called called' fresh named
        named' free inside after (ih tail)

end

/-! ### Chains regrouped -/

theorem ExprRenamed.group {care : Care} {x y : String} {on : Bool} {e e' : Expr} (h : ExprRenamed care x y on e e') :
    OperandRenamed care x y on (.group e) (.group e') := by
  cases h with
  | mk head tail =>
    cases tail with
    | nil => exact head
    | cons op o safe safe' tail => exact .paren (.mk head (.cons op o safe safe' tail))

theorem splitLoosest_parallel {Q : Operand → Operand → Prop} {ls ls' : List Link} (h : List.Forall₂ (Link.Parallel Q) ls ls') :
    Option.Rel (fun cut cut' => List.Forall₂ (Link.Parallel Q) cut.1 cut'.1 ∧ Link.Parallel Q cut.2.1 cut'.2.1 ∧
      List.Forall₂ (Link.Parallel Q) cut.2.2 cut'.2.2) (Link.splitLoosest ls) (Link.splitLoosest ls') := by
  induction h with
  | nil => exact .none
  | @cons l l' ls ls' head tail ih =>
    rw [Link.splitLoosest, Link.splitLoosest]
    generalize Link.splitLoosest ls = cut at ih ⊢
    generalize Link.splitLoosest ls' = cut' at ih ⊢
    cases ih with
    | none => exact .some ⟨.nil, head, tail⟩
    | @some cut cut' hcut =>
      obtain ⟨before, loosest, after⟩ := cut
      obtain ⟨before', loosest', after'⟩ := cut'
      obtain ⟨hbefore, hloosest, hafter⟩ := hcut
      show Option.Rel _ (if loosest.op.precedence ≤ l.op.precedence then _ else _)
        (if loosest'.op.precedence ≤ l'.op.precedence then _ else _)
      rw [hloosest.1, head.1]
      split
      · exact .some ⟨.cons head hbefore, hloosest, hafter⟩
      · exact .some ⟨.nil, head, tail⟩

/-- **A renamed chain is regrouped like the chain.** -/
theorem ExprRenamed.regroup {care : Care} {x y : String} {on : Bool} {e e' grouped : Expr}
    (inner : ∀ {e : Expr}, care.behind e.first → care.behind (.group e)) (h : ExprRenamed care x y on e e')
    (hg : e.regroup? = some grouped) :
    ∃ grouped', e'.regroup? = some grouped' ∧ grouped.isChain = true ∧ ExprRenamed care x y on grouped grouped' := by
  have hbare := h.bare
  unfold Expr.regroup? at hg ⊢
  generalize e.bare = b at hbare hg
  generalize e'.bare = b' at hbare ⊢
  cases hbare with
  | @mk _ first first' rest rest' head tail =>
    have hrest := linksRenamed_iff.1 tail
    have hsplit := splitLoosest_parallel hrest
    dsimp only at hg ⊢
    rw [← hrest.length_eq]
    split at hg
    · cases hg
    · rename_i hlong
      rw [if_neg hlong]
      generalize Link.splitLoosest rest = cut at hsplit hg
      generalize Link.splitLoosest rest' = cut' at hsplit ⊢
      cases hsplit with
      | none => cases hg
      | @some cut cut' hcut =>
        obtain ⟨before, loosest, after⟩ := cut
        obtain ⟨before', loosest', after'⟩ := cut'
        obtain ⟨op, o⟩ := loosest
        obtain ⟨op', o'⟩ := loosest'
        obtain ⟨hbefore, ⟨hop, ho, safe, safe'⟩, hafter⟩ := hcut
        obtain rfl : op = op' := hop
        cases hg
        refine ⟨_, rfl, rfl, .mk (ExprRenamed.group (.mk head (linksRenamed_iff.2 hbefore))) ?_⟩
        exact .cons op (ExprRenamed.group (.mk ho (linksRenamed_iff.2 hafter))) (inner safe) (inner safe')
          (.nil on)

end ChainCalc
