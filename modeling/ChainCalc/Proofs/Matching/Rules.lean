import ChainCalc.Proofs.Precedence.Tree
import ChainCalc.Proofs.Standard.Patterns
/-!
# Rules of spelling — what holds of the parts of an expression

Rules say which calls may be written and which operand may stand behind which.  An expression that heeds them hands them
on to everything that is compiled in its place: what a match captures is a part of the candidate, a part of the pattern
or the name of a call (`captured_of_mem`), so nothing else is captured by the standard registry (`heeds_of_find?`).
-/
namespace ChainCalc

structure Rules where
  call : String → List Expr → Prop
  beside : Operand → Operand → Prop

section

variable (R : Rules)

mutual

def Operand.Heeds : Operand → Prop
  | .lit _ => True
  | .ident _ => True
  | .call name args => R.call name args ∧ Expr.AllHeed args
  | .paren inner => inner.Heeds
  | .unary _ operand => operand.Heeds

def Expr.Heeds : Expr → Prop
  | ⟨first, rest⟩ => first.Heeds ∧ Link.Heed first rest

def Link.Heed (before : Operand) : List Link → Prop
  | [] => True
  | ⟨_, operand⟩ :: rest => R.beside before operand ∧ operand.Heeds ∧ Link.Heed operand rest

def Expr.AllHeed : List Expr → Prop
  | [] => True
  | e :: es => e.Heeds ∧ Expr.AllHeed es

end

end

section

variable {R : Rules}

theorem Expr.allHeed_iff {es : List Expr} : Expr.AllHeed R es ↔ ∀ e ∈ es, e.Heeds R := by
  induction es with
  | nil => simp [Expr.AllHeed]
  | cons e es ih => simp [Expr.AllHeed, ih]

theorem Expr.heeds_mk {first : Operand} {rest : List Link} :
    (⟨first, rest⟩ : Expr).Heeds R ↔ first.Heeds R ∧ Link.Heed R first rest := by rw [Expr.Heeds]

theorem Expr.heeds_ident (name : String) : (Expr.ident name).Heeds R := by
  simp [Expr.ident, Expr.ofOperand, Expr.Heeds, Operand.Heeds, Link.Heed]

theorem Expr.heeds_ofOperand {x : Operand} : (Expr.ofOperand x).Heeds R ↔ x.Heeds R := by
  simp [Expr.ofOperand, Expr.Heeds, Link.Heed]

theorem Expr.heeds_call {name : String} {args : List Expr} :
    (Expr.call name args).Heeds R ↔ R.call name args ∧ ∀ e ∈ args, e.Heeds R := by
  rw [Expr.call, Expr.heeds_ofOperand, Operand.Heeds, Expr.allHeed_iff]

/-! ### Parts of an expression -/

theorem Link.heed_append {ms : List Link} : ∀ {x : Operand} {ls : List Link}, Link.Heed R x (ls ++ ms) → Link.Heed R x ls
  | _, [], _ => by
    rw [Link.Heed]
    trivial
  | _, ⟨op, y⟩ :: ls, h => by
    rw [List.cons_append, Link.Heed] at h
    rw [Link.Heed]
    exact ⟨h.1, h.2.1, Link.heed_append h.2.2⟩

/-- **Parts of what heeds the rules heed them.** -/
theorem Expr.handedDown_heeds : HandedDown (Expr.Heeds R) where
  inner h := by
    rw [Expr.heeds_ofOperand, Operand.Heeds] at h
    exact h
  front h := Expr.heeds_mk.2 ⟨(Expr.heeds_mk.1 h).1, Link.heed_append (Expr.heeds_mk.1 h).2⟩
  back {x l ls} h := by
    obtain ⟨op, y⟩ := l
    rw [Expr.heeds_mk, Link.Heed] at h
    exact Expr.heeds_mk.2 h.2.2
  unary h := by
    rw [Expr.heeds_ofOperand, Operand.Heeds] at h
    exact Expr.heeds_ofOperand.2 h
  name _ := Expr.heeds_ident _
  args h := (Expr.heeds_call.1 h).2

theorem Expr.Heeds.bare {e : Expr} (h : e.Heeds R) : e.bare.Heeds R := Expr.handedDown_heeds.bare h

theorem Operand.Heeds.bare {x : Operand} (h : x.Heeds R) : x.bare.Heeds R :=
  Expr.heeds_ofOperand.1 (Expr.handedDown_heeds.bareOperand (Expr.heeds_ofOperand.2 h))

/-! ### What the standard registry captures -/

def Captures.Heed (R : Rules) (c : Captures) : Prop := ∀ g ∈ c.entries, ∀ e ∈ g.2, e.Heeds R

/-- Rules that the patterns of the standard registry heed, and every chain that is regrouped: a call of a primitive may
always be written, and an ellipsis alone could be forbidden behind an operand, never behind a chain in parentheses. -/
structure Rules.Mild (R : Rules) : Prop where
  primitive : ∀ {f}, Registry.standard.isCallName f = true → ∀ args, R.call f args
  single : ∀ x {y : Operand}, y.isEllipsis = false → R.beside x y
  grouped : ∀ {e : Expr}, e.isChain = true → ∀ y, R.beside (.paren e) y

namespace Rules.Mild

variable (mild : R.Mild)

include mild

theorem heeds_pattern {entry : Entry} (he : entry ∈ Registry.standard.entries) {p : Pattern} (hp : p ∈ entry.patterns) :
    p.expr.Heeds R := by
  have hole : ∀ name, (Operand.ident name).Heeds R := fun name => by rw [Operand.Heeds]; trivial
  have beside : ∀ {x : Operand} {op : Operator} {name : String} {ls : List Link}, (Operand.ident name).isEllipsis = false →
      Link.Heed R (.ident name) ls → Link.Heed R x (⟨op, .ident name⟩ :: ls) := by
    intro x op name ls single tail
    rw [Link.Heed]
    exact ⟨mild.single x single, hole name, tail⟩
  have last : ∀ {x : Operand}, Link.Heed R x [] := by
    intro x
    rw [Link.Heed]
    trivial
  cases Standard.isPattern_of_mem he p hp with
  | binary op => exact Expr.heeds_mk.2 ⟨hole "_1", beside (by decide) last⟩
  | fused => exact Expr.heeds_mk.2 ⟨hole "_a", beside (by decide) (beside (by decide) last)⟩
  | unary op =>
    refine Expr.heeds_ofOperand.2 ?_
    rw [Operand.Heeds]
    exact hole "_1"
  | name plain => exact Expr.heeds_ident _
  | @call f holes plain hole =>
    refine Expr.heeds_call.2 ⟨mild.primitive (Registry.isCallName_of_mem he hp rfl) _, fun e he => ?_⟩
    obtain ⟨name, -, rfl⟩ := List.mem_map.1 he
    exact Expr.heeds_ident name

/-- **What the standard registry captures heeds the rules.** -/
theorem heeds_of_find? {candidate : Expr} (hc : candidate.Heeds R) {entry : Entry} {captures : Captures}
    (found : Registry.standard.find? candidate = some (entry, captures)) : captures.Heed R := by
  obtain ⟨he, p, hp, found⟩ := Standard.exists_of_find? found
  obtain ⟨log, -, rfl, captured⟩ := Pattern.exists_log_of_capture? Expr.handedDown_heeds Expr.handedDown_heeds
    (mild.heeds_pattern he hp) hc found
  intro g hg e hge
  exact (captured _ (Captures.mem_of_collect hg hge)).1.part.elim And.right And.right

theorem heeds_regroup {e grouped : Expr} (he : e.Heeds R) (h : e.regroup? = some grouped) : grouped.Heeds R := by
  have long : 2 ≤ e.bare.rest.length := by
    unfold Expr.regroup? at h
    generalize e.bare = b at h ⊢
    obtain ⟨first, rest⟩ := b
    dsimp only at h ⊢
    split at h
    · cases h
    · omega
  obtain ⟨first, before, loosest, after, hc, rfl, -, -⟩ := regroup?_spec h
  have he := he.bare
  rw [hc] at he long
  obtain ⟨hfirst, hrest⟩ := Expr.heeds_mk.1 he
  have hbefore := Link.heed_append hrest
  have hafter := Expr.handedDown_heeds.after he
  have left : (Operand.group ⟨first, before⟩).Heeds R := by
    unfold Operand.group
    split
    · exact hfirst
    · rw [Operand.Heeds]
      exact Expr.heeds_mk.2 ⟨hfirst, hbefore⟩
  have right : (Operand.group ⟨loosest.operand, after⟩).Heeds R := by
    unfold Operand.group
    split
    · exact (Expr.heeds_mk.1 hafter).1
    · rw [Operand.Heeds]
      exact hafter
  have neighbours : R.beside (.group ⟨first, before⟩) (.group ⟨loosest.operand, after⟩) := by
    cases before with
    | cons l ls => exact mild.grouped rfl _
    | nil =>
      cases after with
      | nil => simp at long
      | cons l ls => exact mild.single _ rfl
  rw [Expr.heeds_mk, Link.Heed, Link.Heed]
  exact ⟨left, neighbours, right, trivial⟩

end Rules.Mild

end

end ChainCalc
