import Mathlib
import ChainCalc.Proofs.Matching.Chains
import ChainCalc.Proofs.Matching.Filling
/-!
# Instances of a pattern — a filled pattern is matched by the pattern

A pattern whose ellipses stand only at the end of argument lists matches each of its instances, and the captures are what
was filled in, from left to right (`instances_match`).  In a chain the operators of the instance are those of the pattern,
and what is filled in stands in parentheses, so a placeholder never takes more than its own operand
(`Cursor.segment_of_same_head`).
-/
namespace ChainCalc

/-! ### Literals that equal themselves -/

theorem float_beq_self (x : Float) : (x == x) = !x.isNaN := by
  rw [Bool.eq_iff_iff, Float.beq_self_iff, Float.isNaN_eq_decide_eq_nan]
  simp

def Literal.isProper : Literal → Bool
  | .float x => !x.isNaN
  | _ => true

theorem Literal.beq_self {l : Literal} (h : l.isProper = true) : (l == l) = true := by
  cases l with
  | float x => exact (float_beq_self x).trans h
  | bool b => exact beq_self_eq_true b
  | int n => exact beq_self_eq_true n
  | str s => exact beq_self_eq_true s

/-! ### Patterns that can be filled in one way -/

def isEllipsisName (name : String) : Bool := (Placeholder.classify name).any Placeholder.isEllipsis

mutual

/-- No NaN among the literals, and every ellipsis is the last argument of a call. -/
def Operand.isRegular : Operand → Bool
  | .lit value => value.isProper
  | .ident name => !isEllipsisName name
  | .call name args => !isEllipsisName name && Expr.areRegular args
  | .paren inner => inner.isRegular
  | .unary _ operand => operand.isRegular

def Expr.isRegular : Expr → Bool
  | ⟨first, rest⟩ => first.isRegular && Link.areRegular rest

def Link.areRegular : List Link → Bool
  | [] => true
  | ⟨_, operand⟩ :: rest => operand.isRegular && Link.areRegular rest

def Expr.areRegular : List Expr → Bool
  | [] => true
  | e :: es => (e.isRegular || (es.isEmpty && e.ellipsis?.isSome)) && Expr.areRegular es

end

/-! ### Instances have no placeholders -/

theorem classify_of_isSome_eq_false {name : String} (h : ¬ (Placeholder.classify name).isSome) :
    (Operand.ident name).holes = [] := by
  rw [Operand.holes, if_neg h]

theorem kindOf_of_not_ellipsis {name : String} {h : Placeholder} (hname : Placeholder.classify name = some h)
    (single : isEllipsisName name = false) : Placeholder.kindOf name = .single := by
  unfold isEllipsisName at single
  unfold Placeholder.classify at hname single
  split at hname
  · rename_i hopen
    rw [if_pos hopen] at single
    cases hk : Placeholder.kindOf name with
    | single => rfl
    | ellipsis => simp [Placeholder.isEllipsis, hk] at single
  · cases hname

theorem exists_of_takes_one {R : Site → List Expr → Prop} {s : Site} {filling : Filling}
    (takes : List.Forall₂ R [s] filling) : ∃ es, filling = [es] := by
  cases takes with
  | cons _ rest =>
    cases rest
    exact ⟨_, rfl⟩

theorem takes_single {name : String} {called : Bool} {h : Placeholder} {filling : Filling}
    (hname : Placeholder.classify name = some h) (single : isEllipsisName name = false)
    (takes : List.Forall₂ Site.Takes [⟨name, called⟩] filling) : ∃ e, filling = [[e]] ∧ Site.Takes ⟨name, called⟩ [e] := by
  obtain ⟨es, rfl⟩ := exists_of_takes_one takes
  obtain ⟨own, -⟩ := List.forall₂_cons.1 takes
  obtain ⟨e, rfl⟩ := own.one (kindOf_of_not_ellipsis hname single)
  exact ⟨e, rfl, own⟩

theorem fillName_of_takes {name : String} {filling : Filling} (single : isEllipsisName name = false)
    (takes : List.Forall₂ Site.Takes (sitesOfName true name) filling) :
    Placeholder.classify (fillName name filling) = none := by
  cases hname : Placeholder.classify name with
  | none =>
    rw [sitesOfName, hname] at takes
    cases takes
    exact hname
  | some h =>
    rw [sitesOfName, hname] at takes
    obtain ⟨e, rfl, own⟩ := takes_single hname single takes
    obtain ⟨f, hf⟩ := own.name rfl
    cases hf
    exact classify_of_holes (Expr.holes_eq_nil.1 (own.plain (.ident f) List.mem_cons_self)).1

theorem Operand.isEllipsis_of_isRegular : ∀ {x : Operand}, x.isRegular = true → x.isEllipsis = false
  | .lit _, _ => rfl
  | .call _ _, _ => rfl
  | .unary _ _, _ => rfl
  | .ident name, h => by
    have single : isEllipsisName name = false := by simpa [Operand.isRegular] using h
    exact single
  | .paren ⟨_, _ :: _⟩, _ => rfl
  | .paren ⟨x, []⟩, h => by
    have hx : x.isRegular = true := by simpa [Operand.isRegular, Expr.isRegular, Link.areRegular] using h
    exact Operand.isEllipsis_of_isRegular (x := x) hx

theorem Expr.ellipsis?_of_isRegular {e : Expr} (h : e.isRegular = true) : e.ellipsis? = none := by
  unfold Expr.ellipsis? Expr.placeholder?
  fun_induction Expr.bare e with
  | case1 inner ih => exact ih (by simpa [Expr.isRegular, Operand.isRegular, Link.areRegular] using h)
  | case2 e _ =>
    obtain ⟨x, rest⟩ := e
    cases rest with
    | cons l ls => rfl
    | nil =>
      have hx : x.isRegular = true := by simpa [Expr.isRegular, Link.areRegular] using h
      have single := Operand.isEllipsis_of_isRegular hx
      unfold Operand.isEllipsis at single
      cases hp : x.placeholder? with
      | none => simp [hp]
      | some h => simpa [hp] using single

mutual

theorem Operand.holes_fill {filling : Filling} : ∀ {x : Operand}, x.isRegular = true →
    List.Forall₂ Site.Takes x.sites filling → (x.fill filling).holes = []
  | .lit _, _, _ => rfl
  | .ident name, regular, takes => by
    have single : isEllipsisName name = false := by simpa [Operand.isRegular] using regular
    rw [Operand.sites, sitesOfName] at takes
    rw [Operand.fill]
    cases hname : Placeholder.classify name with
    | none => exact classify_of_isSome_eq_false (by simp [hname])
    | some h =>
      rw [hname] at takes
      obtain ⟨e, rfl, own⟩ := takes_single hname single takes
      simpa [fillHole] using own.plain e List.mem_cons_self
  | .call name args, regular, takes => by
    obtain ⟨single, regular⟩ : isEllipsisName name = false ∧ Expr.areRegular args = true := by
      simpa [Operand.isRegular] using regular
    obtain ⟨takesName, takesArgs⟩ := takes_split takes
    rw [Operand.fill, Operand.holes, fillName_of_takes single takesName]
    exact Expr.holesAll_eq_nil.2 (Expr.holes_fillAll regular takesArgs)
  | .paren inner, regular, takes => Expr.holes_fill (e := inner) regular takes
  | .unary _ operand, regular, takes => Operand.holes_fill (x := operand) regular takes

theorem Expr.holes_fill {filling : Filling} : ∀ {e : Expr}, e.isRegular = true →
    List.Forall₂ Site.Takes e.sites filling → (e.fill filling).holes = []
  | ⟨first, rest⟩, regular, takes => by
    obtain ⟨regularFirst, regularRest⟩ : first.isRegular = true ∧ Link.areRegular rest = true := by
      simpa [Expr.isRegular] using regular
    obtain ⟨takesFirst, takesRest⟩ := takes_split takes
    exact Expr.holes_eq_nil.2 ⟨Operand.holes_fill regularFirst takesFirst, Link.holes_fillAll regularRest takesRest⟩

theorem Link.holes_fillAll {filling : Filling} : ∀ {ls : List Link}, Link.areRegular ls = true →
    List.Forall₂ Site.Takes (Link.sitesAll ls) filling → ∀ l ∈ Link.fillAll filling ls, l.operand.holes = []
  | [], _, _ => by simp [Link.fillAll]
  | ⟨op, x⟩ :: ls, regular, takes => by
    obtain ⟨regularHere, regularRest⟩ : x.isRegular = true ∧ Link.areRegular ls = true := by
      simpa [Link.areRegular] using regular
    obtain ⟨takesHere, takesRest⟩ := takes_split takes
    rw [Link.fillAll, Operand.isEllipsis_of_isRegular regularHere]
    exact List.forall_mem_cons.2 ⟨Operand.holes_fill regularHere takesHere, Link.holes_fillAll regularRest takesRest⟩

theorem Expr.holes_fillAll {filling : Filling} : ∀ {es : List Expr}, Expr.areRegular es = true →
    List.Forall₂ Site.Takes (Expr.sitesAll es) filling → ∀ e ∈ Expr.fillAll filling es, e.holes = []
  | [], _, _ => by simp [Expr.fillAll]
  | e :: es, regular, takes => by
    rw [Expr.areRegular, Bool.and_eq_true] at regular
    obtain ⟨takesHere, takesRest⟩ := takes_split takes
    have rest := Expr.holes_fillAll regular.2 takesRest
    rw [Expr.fillAll]
    split
    · exact List.forall_mem_append.2 ⟨plain_of_takes takesHere, rest⟩
    · rename_i hslot
      have regularHere : e.isRegular = true := by
        have := regular.1
        simp only [Expr.isSlot, Bool.or_eq_true, not_or] at hslot
        simpa [hslot.1] using this
      exact List.forall_mem_cons.2 ⟨Expr.holes_fill regularHere takesHere, rest⟩

end

/-! ### Matches that report -/

def record : OnCapture (List (String × Expr)) := fun name e log => (true, log ++ [(name, e)])

def Attempt.Reports (a : Attempt (List (String × Expr))) (log : List (String × Expr)) : Prop :=
  ∀ before, a before = (true, before ++ log)

theorem reports_record (name : String) (e : Expr) : Attempt.Reports (record name e) [(name, e)] := fun _ => rfl

theorem reports_verdict {b : Bool} (h : b = true) : Attempt.Reports (Attempt.verdict b) [] := fun before => by
  rw [h, List.append_nil]
  rfl

theorem Attempt.Reports.andThen {a b : Attempt (List (String × Expr))} {log log' : List (String × Expr)} (ha : a.Reports log)
    (hb : b.Reports log') : (a.andThen b).Reports (log ++ log') := fun before => by
  rw [Attempt.andThen_of_true (ha before), hb, List.append_assoc]

theorem reports_bare_split (a b : List Site) (filling : Filling) : reports (a ++ b) filling.bare =
    reports a (Filling.bare (filling.take a.length)) ++ reports b (Filling.bare (filling.drop a.length)) := by
  rw [reports_split]
  simp [Filling.bare, List.map_take, List.map_drop]

/-! ### Chains with the same operators -/

/-- **Where the next operator is the same on both sides, a placeholder takes one operand.** -/
theorem Cursor.segment_of_same_head {p c : Cursor} (same : c.after.head?.map Link.op = p.after.head?.map Link.op) :
    c.segment p.floor = ⟨c.here, []⟩ ∧ c.segmentEnd p.floor = c := by
  obtain ⟨pb, x, xs⟩ := p
  obtain ⟨cb, y, ys⟩ := c
  cases ys with
  | nil => exact ⟨rfl, rfl⟩
  | cons l ys =>
    obtain ⟨op, z⟩ := l
    cases xs with
    | nil => cases same
    | cons l' xs =>
      obtain ⟨op', x'⟩ := l'
      obtain rfl : op = op' := by simpa using same
      have hfloor : ¬ Cursor.floor ⟨pb, x, ⟨op, x'⟩ :: xs⟩ < op.precedence := by
        rw [Cursor.floor_step]
        omega
      constructor
      · rw [Cursor.segment, List.takeWhile_cons_of_neg (by simpa using hfloor)]
      · rw [Cursor.segmentEnd, Cursor.walk, if_neg hfloor]

theorem Link.head?_fillAll {filling : Filling} {ls : List Link} (regular : Link.areRegular ls = true) :
    (Link.fillAll filling ls).head?.map Link.op = ls.head?.map Link.op := by
  cases ls with
  | nil => rfl
  | cons l ls =>
    obtain ⟨op, x⟩ := l
    have single : x.isEllipsis = false := Operand.isEllipsis_of_isRegular (by simp_all [Link.areRegular])
    rw [Link.fillAll, single]
    rfl

theorem Link.fillAll_eq_nil {filling : Filling} {ls : List Link} (regular : Link.areRegular ls = true) :
    Link.fillAll filling ls = [] ↔ ls = [] := by
  have hhead : (Link.fillAll filling ls).head?.map Link.op = ls.head?.map Link.op := Link.head?_fillAll regular
  rw [← List.head?_eq_none_iff, ← List.head?_eq_none_iff, ← Option.map_eq_none_iff (f := Link.op), hhead, Option.map_eq_none_iff]

/-! ### A pattern against its instance -/

theorem reports_single {h : Placeholder} {filling : Filling} (hname : Placeholder.classify h.name = some h)
    (single : h.isEllipsis = false) (takes : List.Forall₂ Site.Takes [⟨h.name, false⟩] filling) :
    ∃ e, filling = [[e]] ∧ reports [⟨h.name, false⟩] filling.bare = [(h.name, e.bare)] := by
  obtain ⟨e, rfl, -⟩ := takes_single hname (by simpa [isEllipsisName, hname] using single) takes
  exact ⟨e, rfl, rfl⟩

theorem Operand.reports_hole {x : Operand} {h : Placeholder} {filling : Filling} (hx : x.placeholder? = some h)
    (regular : x.isRegular = true) (takes : List.Forall₂ Site.Takes x.sites filling) :
    (matchOperand record x (x.fill filling)).Reports (reports x.sites filling.bare) := by
  have single : h.isEllipsis = false := by simpa [Operand.isEllipsis, hx] using Operand.isEllipsis_of_isRegular regular
  obtain ⟨hsites, hfill⟩ := Operand.of_placeholder? hx
  rw [hsites] at takes ⊢
  obtain ⟨e, rfl, hlog⟩ := reports_single (Operand.classify_of_placeholder? hx) single takes
  rw [matchOperand_hole record hx, hfill, hlog]
  exact reports_record _ _

theorem Expr.reports_hole {e : Expr} {h : Placeholder} {filling : Filling} (he : e.placeholder? = some h)
    (regular : e.isRegular = true) (takes : List.Forall₂ Site.Takes e.sites filling) :
    (matchExpr record e (e.fill filling)).Reports (reports e.sites filling.bare) := by
  have single : h.isEllipsis = false := by simpa [Expr.ellipsis?, he] using Expr.ellipsis?_of_isRegular regular
  obtain ⟨hsites, hfill⟩ := Expr.of_placeholder? he
  rw [hsites] at takes ⊢
  obtain ⟨c, rfl, hlog⟩ := reports_single (Expr.classify_of_placeholder? he) single takes
  rw [matchExpr_hole record he, hfill, hlog]
  exact reports_record _ _

theorem reports_fillName {name : String} {filling : Filling} (single : isEllipsisName name = false)
    (takes : List.Forall₂ Site.Takes (sitesOfName true name) filling) :
    (matchName record name (fillName name filling)).Reports (reports (sitesOfName true name) filling.bare) := by
  cases hname : Placeholder.classify name with
  | none =>
    rw [sitesOfName, hname] at takes ⊢
    cases takes
    show (matchName record name name).Reports []
    rw [matchName_plain record hname hname]
    exact reports_verdict (beq_self_eq_true name)
  | some h =>
    rw [sitesOfName, hname] at takes ⊢
    obtain ⟨e, rfl, own⟩ := takes_single hname single takes
    obtain ⟨f, hf⟩ := own.name rfl
    cases hf
    have hreport : matchName record name f = record name (.ident f) := by
      unfold matchName
      rw [hname]
      dsimp only
      rw [Placeholder.name_of_classify hname]
    show (matchName record name f).Reports [(name, .ident f)]
    rw [hreport]
    exact reports_record _ _

theorem reports_lone_ellipsis {p : Expr} {h : Placeholder} (hp : p.ellipsis? = some h) (cs : List Expr) :
    (matchArgs record [p] cs).Reports (cs.map (fun c => (h.name, c.bare))) := by
  induction cs with
  | nil =>
    rw [matchArgs_none]
    exact reports_verdict (by rw [exhausted, hp]; rfl)
  | cons c cs ih =>
    rw [matchArgs_ellipsis record hp]
    exact (reports_record _ _).andThen ih

theorem reports_chain {x : Operand} {ls : List Link} {own others : Filling} {log : List (String × Expr)}
    {before before' : Option Operator} (regular : x.isRegular = true) (regularRest : Link.areRegular ls = true)
    (takes : List.Forall₂ Site.Takes x.sites own)
    (here : (matchOperand record x (x.fill own)).Reports (reports x.sites own.bare))
    (rest : (matchRest record ⟨before, x, ls⟩ ⟨before', x.fill own, Link.fillAll others ls⟩).Reports log) :
    (matchChain record ⟨before, x, ls⟩ ⟨before', x.fill own, Link.fillAll others ls⟩).Reports
      (reports x.sites own.bare ++ log) := by
  cases hx : x.placeholder? with
  | some h =>
    obtain ⟨hseg, hend⟩ := Cursor.segment_of_same_head (p := ⟨before, x, ls⟩)
      (c := ⟨before', x.fill own, Link.fillAll others ls⟩) (Link.head?_fillAll regularRest)
    rw [matchOperand_hole record hx] at here
    rw [matchChain_hole record hx, hseg, hend]
    exact here.andThen rest
  | none =>
    rw [matchChain_operand record hx (Operand.placeholder?_of_holes (Operand.holes_fill regular takes))]
    exact here.andThen rest

theorem Expr.isRegular_or_ellipsis {e : Expr} {es : List Expr} (h : Expr.areRegular (e :: es) = true) :
    (e.isRegular = true ∧ Expr.areRegular es = true) ∨ es = [] ∧ ∃ h, e.ellipsis? = some h := by
  simp only [Expr.areRegular, Bool.and_eq_true, Bool.or_eq_true, List.isEmpty_iff, Option.isSome_iff_exists] at h
  tauto

/-- An instance has parentheses around the whole of it only where the pattern has. -/
theorem Expr.bare_fill {first : Operand} {rest : List Link} (filling : Filling) (hole : (⟨first, rest⟩ : Expr).placeholder? = none)
    (hparen : ∀ inner, (⟨first, rest⟩ : Expr) ≠ ⟨.paren inner, []⟩) (regular : Link.areRegular rest = true) :
    (Expr.fill filling ⟨first, rest⟩).bare = Expr.fill filling ⟨first, rest⟩ := by
  refine Expr.bare_of_ne_paren (fun inner hfill => ?_)
  rw [Expr.fill, Expr.mk.injEq, Link.fillAll_eq_nil regular] at hfill
  obtain ⟨hfirst, rfl⟩ := hfill
  cases first with
  | paren inner => exact hparen inner rfl
  | ident name =>
    have hname : Placeholder.classify name = none := hole
    rw [Operand.fill, hname] at hfirst
    cases hfirst
  | lit value => cases hfirst
  | call name args => cases hfirst
  | unary op x => cases hfirst

theorem Expr.fill_argument {e : Expr} {filling : Filling} (regular : e.isRegular = true)
    (takes : List.Forall₂ Site.Takes e.sites filling) :
    ∃ c, (if e.isSlot then filling.flatten else [e.fill filling]) = [c] ∧ c.bare = (e.fill filling).bare := by
  split
  · rename_i hslot
    unfold Expr.isSlot at hslot
    rw [Expr.ellipsis?_of_isRegular regular, Option.isSome_none, Bool.false_or] at hslot
    split at hslot
    · rename_i name
      obtain ⟨h, hname⟩ := Option.isSome_iff_exists.1 hslot
      have single : isEllipsisName name = false := by simpa [Expr.isRegular, Operand.isRegular, Link.areRegular] using regular
      have hsites : (⟨.ident name, []⟩ : Expr).sites = [⟨name, false⟩] := by
        simp [Expr.sites, Operand.sites, Link.sitesAll, sitesOfName, hname]
      rw [hsites] at takes
      obtain ⟨c, rfl, -⟩ := takes_single hname single takes
      have hfill := (Expr.of_placeholder? (e := ⟨.ident name, []⟩) hname).2 c
      exact ⟨c, rfl, hfill.symm⟩
    · cases hslot
  · exact ⟨_, rfl, rfl⟩

theorem reports_flatten (name : String) (es : List Expr) :
    reports [⟨name, false⟩] (Filling.bare [es]) = es.map (fun c => (name, c.bare)) := by
  simp [reports, Filling.bare]

theorem Expr.reports_parts {first : Operand} {rest : List Link} {filling : Filling}
    (regular : (⟨first, rest⟩ : Expr).isRegular = true) (takes : List.Forall₂ Site.Takes (⟨first, rest⟩ : Expr).sites filling)
    (hparen : ∀ inner, (⟨first, rest⟩ : Expr) ≠ ⟨.paren inner, []⟩)
    (here : (matchOperand record first (first.fill (filling.take first.sites.length))).Reports
      (reports first.sites (Filling.bare (filling.take first.sites.length))))
    (behind : ∀ y, (matchRest record ⟨none, first, rest⟩ ⟨none, y, Link.fillAll (filling.drop first.sites.length) rest⟩).Reports
      (reports (Link.sitesAll rest) (Filling.bare (filling.drop first.sites.length)))) :
    (matchExpr record ⟨first, rest⟩ (Expr.fill filling ⟨first, rest⟩)).Reports
      (reports (⟨first, rest⟩ : Expr).sites filling.bare) := by
  cases hole : (⟨first, rest⟩ : Expr).placeholder? with
  | some h => exact Expr.reports_hole hole regular takes
  | none =>
    obtain ⟨regularFirst, regularRest⟩ : first.isRegular = true ∧ Link.areRegular rest = true := by
      simpa [Expr.isRegular] using regular
    obtain ⟨takesFirst, -⟩ := takes_split takes
    rw [matchExpr_chain record hole (Expr.placeholder?_of_holes (Expr.holes_fill regular takes)),
      Expr.bare_of_ne_paren hparen, Expr.bare_fill filling hole hparen regularRest, Expr.sites, reports_bare_split]
    exact reports_chain regularFirst regularRest takesFirst here (behind _)

mutual

theorem Operand.reports_fill {filling : Filling} : ∀ {x : Operand}, x.isRegular = true →
    List.Forall₂ Site.Takes x.sites filling → (matchOperand record x (x.fill filling)).Reports (reports x.sites filling.bare)
  | .lit value, regular, takes => by
    have self : (value == value) = true := Literal.beq_self regular
    rw [Operand.fill, matchOperand_lit, self]
    exact reports_verdict rfl
  | .ident name, regular, takes => by
    cases hname : Placeholder.classify name with
    | some h => exact Operand.reports_hole hname regular takes
    | none =>
      rw [Operand.fill, hname, Operand.sites, sitesOfName, hname]
      show (matchOperand record (.ident name) (.ident name)).Reports []
      rw [matchOperand_ident record hname hname]
      exact reports_verdict (beq_self_eq_true name)
  | .call name args, regular, takes => by
    obtain ⟨single, regularArgs⟩ : isEllipsisName name = false ∧ Expr.areRegular args = true := by
      simpa [Operand.isRegular] using regular
    obtain ⟨takesName, takesArgs⟩ := takes_split takes
    rw [Operand.fill, matchOperand_call, Operand.sites, reports_bare_split]
    exact (reports_fillName single takesName).andThen (Expr.reports_fillAll regularArgs takesArgs)
  | .paren ⟨x, []⟩, regular, takes => by
    have regularHere : x.isRegular = true := by simpa [Operand.isRegular, Expr.isRegular, Link.areRegular] using regular
    have takesHere : List.Forall₂ Site.Takes x.sites filling := by
      simpa [Operand.sites, Expr.sites, Link.sitesAll] using takes
    have here := Operand.reports_fill regularHere takesHere
    rw [Operand.fill, Expr.fill, Link.fillAll, take_of_takes takesHere, matchOperand_paren, Operand.sites, Expr.sites,
      Link.sitesAll, List.append_nil]
    exact here
  | .paren ⟨x, ⟨op, y⟩ :: ls⟩, regular, takes => by
    have regularRest : Link.areRegular (⟨op, y⟩ :: ls) = true := by
      have : (⟨x, ⟨op, y⟩ :: ls⟩ : Expr).isRegular = true := regular
      simp only [Expr.isRegular, Bool.and_eq_true] at this
      exact this.2
    have inner := Expr.reports_fill (e := ⟨x, ⟨op, y⟩ :: ls⟩) regular takes
    obtain ⟨m, ms, hms⟩ := List.exists_cons_of_ne_nil
      (mt (@Link.fillAll_eq_nil (filling.drop x.sites.length) _ regularRest).1 (by simp))
    rw [Expr.fill, hms] at inner
    rw [Operand.fill, Expr.fill, hms, matchOperand_group]
    exact inner
  | .unary op x, regular, takes => by
    rw [Operand.fill, matchOperand_unary]
    exact Operand.reports_fill (x := x) regular takes

theorem Expr.reports_fill {filling : Filling} : ∀ {e : Expr}, e.isRegular = true →
    List.Forall₂ Site.Takes e.sites filling → (matchExpr record e (e.fill filling)).Reports (reports e.sites filling.bare)
  | ⟨first, rest⟩, regular, takes => by
    obtain ⟨regularFirst, regularRest⟩ : first.isRegular = true ∧ Link.areRegular rest = true := by
      simpa [Expr.isRegular] using regular
    obtain ⟨takesFirst, takesRest⟩ := takes_split takes
    have chain := fun hparen => Expr.reports_parts regular takes hparen (Operand.reports_fill regularFirst takesFirst)
      (fun _ => Link.reports_fillAll regularRest takesRest)
    cases first with
    | paren inner =>
      cases rest with
      | cons l ls => exact chain (by simp)
      | nil =>
        have takesInner : List.Forall₂ Site.Takes inner.sites filling := by
          simpa [Operand.sites, Expr.sites, Link.sitesAll] using takes
        have here := Expr.reports_fill (e := inner) regularFirst takesInner
        rw [Expr.fill, Operand.fill, Link.fillAll, Operand.sites, take_of_takes takesInner, matchExpr_paren, Expr.sites,
          Operand.sites, Link.sitesAll, List.append_nil]
        exact here
    | _ => exact chain (by simp)

theorem Link.reports_fillAll {filling : Filling} {before before' : Option Operator} {x y : Operand} :
    ∀ {ls : List Link}, Link.areRegular ls = true → List.Forall₂ Site.Takes (Link.sitesAll ls) filling →
      (matchRest record ⟨before, x, ls⟩ ⟨before', y, Link.fillAll filling ls⟩).Reports
        (reports (Link.sitesAll ls) filling.bare)
  | [], _, _ => by
    rw [Link.fillAll, matchRest_nil_nil]
    exact reports_verdict rfl
  | ⟨op, z⟩ :: ls, regular, takes => by
    obtain ⟨regularHere, regularRest⟩ : z.isRegular = true ∧ Link.areRegular ls = true := by
      simpa [Link.areRegular] using regular
    obtain ⟨takesHere, takesRest⟩ := takes_split takes
    rw [Link.fillAll, Operand.isEllipsis_of_isRegular regularHere, Link.sitesAll, reports_bare_split]
    show (matchRest record ⟨before, x, ⟨op, z⟩ :: ls⟩ ⟨before', y, ⟨op, _⟩ :: _⟩).Reports _
    rw [matchRest_same]
    exact reports_chain regularHere regularRest takesHere (Operand.reports_fill regularHere takesHere)
      (Link.reports_fillAll regularRest takesRest)

theorem Expr.reports_fillAll {filling : Filling} : ∀ {es : List Expr}, Expr.areRegular es = true →
    List.Forall₂ Site.Takes (Expr.sitesAll es) filling →
      (matchArgs record es (Expr.fillAll filling es)).Reports (reports (Expr.sitesAll es) filling.bare)
  | [], _, _ => by
    rw [Expr.fillAll, matchArgs_nil]
    exact reports_verdict rfl
  | e :: es, regular, takes => by
    obtain ⟨takesHere, takesRest⟩ := takes_split takes
    rw [Expr.fillAll, Expr.sitesAll, reports_bare_split]
    obtain ⟨regularHere, regularRest⟩ | ⟨rfl, h, he⟩ := Expr.isRegular_or_ellipsis regular
    · obtain ⟨c, hc, hbare⟩ := Expr.fill_argument regularHere takesHere
      have here := Expr.reports_fill regularHere takesHere
      rw [← matchExpr_bare, ← hbare, matchExpr_bare] at here
      have plain : c.holes = [] := by rw [← Expr.holes_bare, hbare, Expr.holes_bare, Expr.holes_fill regularHere takesHere]
      rw [hc, List.singleton_append,
        matchArgs_each record (Expr.ellipsis?_of_isRegular regularHere) (Expr.ellipsis?_of_holes plain)]
      exact here.andThen (Expr.reports_fillAll regularRest takesRest)
    · have hslot : e.isSlot = true := by simp [Expr.isSlot, he]
      obtain ⟨hsites, -⟩ := Expr.of_placeholder? (Option.filter_eq_some_iff.1 he).1
      rw [hsites] at takesHere
      obtain ⟨es, hes⟩ := exists_of_takes_one takesHere
      rw [if_pos hslot, Expr.fillAll, List.append_nil, hsites, hes, reports_flatten, Expr.sitesAll, reports,
        List.zip_nil_left, List.flatMap_nil, List.append_nil, List.flatten_singleton]
      exact reports_lone_ellipsis he es

end

/-- **A filled pattern is matched by the pattern, and the captures are what it was filled with.**  The pattern has no NaN
among its literals and ellipses only at the end of argument lists; the captures come from left to right, each under the
name of its placeholder and without outer parentheses. -/
theorem instances_match {p : Expr} {filling : Filling} (regular : p.isRegular = true)
    (takes : List.Forall₂ Site.Takes p.sites filling) :
    p.matchLog (fun _ _ => true) (p.fill filling) = (true, reports p.sites filling.bare) :=
  Expr.reports_fill regular takes []

theorem instances_match_product :
    let p : Expr := ⟨.unary .sub (.ident "_a"), [⟨.mul, .call "_g" [.ident "_x", .ident "__more"]⟩]⟩
    let sum : Expr := .binary (.ident "b") .add (.lit (.int 1))
    let filling : Filling := [[sum], [.ident "max"], [.unary .sub sum], [.ident "c", sum]]
    p.matchLog (fun _ _ => true) (p.fill filling) =
      (true, [("_a", sum), ("_g", .ident "max"), ("_x", .unary .sub sum), ("__more", .ident "c"), ("__more", sum)]) :=
  @instances_match _ [[_], [_], [_], [_, _]] (by decide)
    (.cons ⟨by decide, fun _ => ⟨_, rfl⟩, nofun⟩
      (.cons ⟨by decide, fun _ => ⟨_, rfl⟩, fun _ => ⟨"max", rfl⟩⟩
        (.cons ⟨by decide, fun _ => ⟨_, rfl⟩, nofun⟩ (.cons ⟨by decide, nofun, nofun⟩ .nil))))

end ChainCalc
