import Mathlib.Data.List.Forall2
import ChainCalc.Pattern
import ChainCalc.Proofs.Matching.Steps
/-!
# Filled patterns — expressions put back where placeholders stand

A filling has one list of expressions for each placeholder of a pattern, from left to right.  An operand is filled by an
expression in parentheses, an argument by the expression itself.  An ellipsis takes any number: among arguments they are
spliced in, and behind an operator each of them gets that operator, so that an ellipsis that takes nothing goes away with
its operator.
-/
namespace ChainCalc

/-! ### Where placeholders stand -/

/-- A placeholder of a pattern: its name, and whether it stands for the name of a call. -/
structure Site where
  name : String
  called : Bool
  deriving DecidableEq, Repr, Inhabited

def sitesOfName (called : Bool) (name : String) : List Site :=
  if (Placeholder.classify name).isSome then [⟨name, called⟩] else []

mutual

def Operand.sites : Operand → List Site
  | .lit _ => []
  | .ident name => sitesOfName false name
  | .call name args => sitesOfName true name ++ Expr.sitesAll args
  | .paren inner => inner.sites
  | .unary _ operand => operand.sites

def Expr.sites : Expr → List Site
  | ⟨first, rest⟩ => first.sites ++ Link.sitesAll rest

def Link.sitesAll : List Link → List Site
  | [] => []
  | ⟨_, operand⟩ :: rest => operand.sites ++ Link.sitesAll rest

def Expr.sitesAll : List Expr → List Site
  | [] => []
  | e :: es => e.sites ++ Expr.sitesAll es

end

/-- What a placeholder may be filled with: expressions without placeholders, exactly one unless it is an ellipsis, and
only a name for the name of a call. -/
structure Site.Takes (s : Site) (es : List Expr) : Prop where
  plain : ∀ e ∈ es, e.holes = []
  one : Placeholder.kindOf s.name = .single → ∃ e, es = [e]
  name : s.called = true → ∃ f, es = [.ident f]

/-- One list of expressions for each placeholder. -/
abbrev Filling := List (List Expr)

/-- **The captures that a filling stands for**, each under the name of its placeholder, from left to right. -/
def reports (sites : List Site) (filling : Filling) : List (String × Expr) :=
  (sites.zip filling).flatMap (fun (s, es) => es.map (fun e => (s.name, e)))

def Filling.bare (filling : Filling) : Filling := filling.map (List.map Expr.bare)

/-! ### Filling -/

def fillName (name : String) : Filling → String
  | [[e]] => e.asIdent?.getD name
  | _ => name

def fillHole (name : String) : Filling → Operand
  | [[e]] => .group e
  | _ => .ident name

def Expr.isSlot (e : Expr) : Bool :=
  e.ellipsis?.isSome ||
    match e with
    | ⟨.ident name, []⟩ => (Placeholder.classify name).isSome
    | _ => false

mutual

def Operand.fill (filling : Filling) : Operand → Operand
  | .lit value => .lit value
  | .ident name => if (Placeholder.classify name).isSome then fillHole name filling else .ident name
  | .call name args =>
    let own := (sitesOfName true name).length
    .call (fillName name (filling.take own)) (Expr.fillAll (filling.drop own) args)
  | .paren inner => .paren (inner.fill filling)
  | .unary op operand => .unary op (operand.fill filling)

/-- **An expression with its placeholders filled.** -/
def Expr.fill (filling : Filling) : Expr → Expr
  | ⟨first, rest⟩ => ⟨first.fill (filling.take first.sites.length), Link.fillAll (filling.drop first.sites.length) rest⟩

/-- Links with their placeholders filled; an ellipsis becomes a link for each expression. -/
def Link.fillAll (filling : Filling) : List Link → List Link
  | [] => []
  | ⟨op, operand⟩ :: rest =>
    let own := filling.take operand.sites.length
    (if operand.isEllipsis then own.flatten.map (fun e => ⟨op, .group e⟩) else [⟨op, operand.fill own⟩]) ++
      Link.fillAll (filling.drop operand.sites.length) rest

/-- Arguments with their placeholders filled; an ellipsis becomes an argument for each expression. -/
def Expr.fillAll (filling : Filling) : List Expr → List Expr
  | [] => []
  | e :: es =>
    let own := filling.take e.sites.length
    (if e.isSlot then own.flatten else [e.fill own]) ++ Expr.fillAll (filling.drop e.sites.length) es

end

/-! ### Fillings in parts -/

theorem takes_split {R : Site → List Expr → Prop} {a b : List Site} {filling : Filling}
    (h : List.Forall₂ R (a ++ b) filling) :
    List.Forall₂ R a (filling.take a.length) ∧ List.Forall₂ R b (filling.drop a.length) :=
  ⟨(List.forall₂_take_append filling a b h.flip).flip, (List.forall₂_drop_append filling a b h.flip).flip⟩

theorem take_of_takes {R : Site → List Expr → Prop} {sites : List Site} {filling : Filling}
    (h : List.Forall₂ R sites filling) : filling.take sites.length = filling :=
  List.take_of_length_le (Nat.le_of_eq h.length_eq.symm)

theorem reports_split (a b : List Site) (filling : Filling) :
    reports (a ++ b) filling = reports a (filling.take a.length) ++ reports b (filling.drop a.length) := by
  induction a generalizing filling with
  | nil => rfl
  | cons s a ih =>
    cases filling with
    | nil => simp [reports]
    | cons es rest =>
      have := ih rest
      simp only [reports, List.cons_append, List.zip_cons_cons, List.flatMap_cons, List.length_cons, List.take_succ_cons,
        List.drop_succ_cons, List.append_assoc] at this ⊢
      rw [this]

/-! ### The names of placeholders -/

theorem map_name_sitesOfName (called : Bool) (name : String) :
    (sitesOfName called name).map Site.name = if (Placeholder.classify name).isSome then [name] else [] := by
  unfold sitesOfName
  split <;> rfl

mutual

theorem Operand.map_name_sites : ∀ x : Operand, x.sites.map Site.name = x.holes
  | .lit _ => rfl
  | .ident name => by rw [Operand.sites, Operand.holes, map_name_sitesOfName]
  | .call name args => by
    rw [Operand.sites, Operand.holes, List.map_append, map_name_sitesOfName, Expr.map_name_sitesAll args]
  | .paren inner => by rw [Operand.sites, Operand.holes, Expr.map_name_sites inner]
  | .unary _ x => by rw [Operand.sites, Operand.holes, Operand.map_name_sites x]

theorem Expr.map_name_sites : ∀ e : Expr, e.sites.map Site.name = e.holes
  | ⟨first, rest⟩ => by
    rw [Expr.sites, Expr.holes, List.map_append, Operand.map_name_sites first, Link.map_name_sitesAll rest]

theorem Link.map_name_sitesAll : ∀ ls : List Link, (Link.sitesAll ls).map Site.name = Link.holesAll ls
  | [] => rfl
  | ⟨_, x⟩ :: ls => by
    rw [Link.sitesAll, Link.holesAll, List.map_append, Operand.map_name_sites x, Link.map_name_sitesAll ls]

theorem Expr.map_name_sitesAll : ∀ es : List Expr, (Expr.sitesAll es).map Site.name = Expr.holesAll es
  | [] => rfl
  | e :: es => by
    rw [Expr.sitesAll, Expr.holesAll, List.map_append, Expr.map_name_sites e, Expr.map_name_sitesAll es]

end

theorem names_reports_cons (s : Site) (sites : List Site) (es : List Expr) (filling : Filling) :
    (reports (s :: sites) (es :: filling)).map Prod.fst = es.map (fun _ => s.name) ++ (reports sites filling).map Prod.fst := by
  simp [reports, Function.comp_def]

theorem mem_names_of_reports {name : String} : ∀ {sites : List Site} {filling : Filling},
    name ∈ (reports sites filling).map Prod.fst → name ∈ sites.map Site.name
  | [], _, h => h
  | _ :: _, [], h => by simp [reports] at h
  | s :: sites, es :: filling, h => by
    rw [names_reports_cons, List.mem_append] at h
    rcases h with h | h
    · obtain ⟨_, -, rfl⟩ := List.mem_map.1 h
      exact List.mem_cons_self
    · exact List.mem_cons_of_mem _ (mem_names_of_reports h)

/-! ### Expressions without placeholders -/

@[simp] theorem Link.holesAll_eq_nil {ls : List Link} : Link.holesAll ls = [] ↔ ∀ l ∈ ls, l.operand.holes = [] := by
  induction ls with
  | nil => simp [Link.holesAll]
  | cons l ls ih =>
    obtain ⟨op, x⟩ := l
    rw [Link.holesAll, List.append_eq_nil_iff, ih, List.forall_mem_cons]

@[simp] theorem Expr.holesAll_eq_nil {es : List Expr} : Expr.holesAll es = [] ↔ ∀ e ∈ es, e.holes = [] := by
  induction es with
  | nil => simp [Expr.holesAll]
  | cons e es ih => rw [Expr.holesAll, List.append_eq_nil_iff, ih, List.forall_mem_cons]

theorem Expr.holes_eq_nil {first : Operand} {rest : List Link} :
    (⟨first, rest⟩ : Expr).holes = [] ↔ first.holes = [] ∧ ∀ l ∈ rest, l.operand.holes = [] := by
  rw [Expr.holes, List.append_eq_nil_iff, Link.holesAll_eq_nil]

@[simp] theorem Operand.holes_group (e : Expr) : (Operand.group e).holes = e.holes := by
  obtain ⟨first, rest⟩ := e
  unfold Operand.group
  cases rest with
  | nil => simp [Expr.holes, Link.holesAll]
  | cons l ls => rw [if_neg (by simp), Operand.holes]

theorem Operand.holes_bare (x : Operand) : x.bare.holes = x.holes := by
  fun_induction Operand.bare x with
  | case1 x ih => rw [ih, Operand.holes, Expr.holes, Link.holesAll, List.append_nil]
  | case2 x _ => rfl

theorem Expr.holes_bare (e : Expr) : e.bare.holes = e.holes := by
  fun_induction Expr.bare e with
  | case1 e ih => rw [ih, Expr.holes, Operand.holes, Link.holesAll, List.append_nil]
  | case2 e _ => rfl

theorem classify_of_holes {name : String} (h : (Operand.ident name).holes = []) : Placeholder.classify name = none := by
  rw [Operand.holes] at h
  split at h
  · cases h
  · rename_i hnone
    rwa [Option.not_isSome_iff_eq_none] at hnone

theorem Operand.placeholder?_of_holes {x : Operand} (h : x.holes = []) : x.placeholder? = none := by
  rw [← Operand.holes_bare] at h
  unfold Operand.placeholder?
  split
  · rename_i name hb
    rw [hb] at h
    exact classify_of_holes h
  · rfl

theorem Operand.isEllipsis_of_holes {x : Operand} (h : x.holes = []) : x.isEllipsis = false :=
  isEllipsis_of_placeholder?_eq_none (placeholder?_of_holes h)

theorem Expr.placeholder?_of_holes {e : Expr} (h : e.holes = []) : e.placeholder? = none := by
  rw [← Expr.holes_bare] at h
  unfold Expr.placeholder?
  split
  · rename_i x hb
    rw [hb] at h
    exact Operand.placeholder?_of_holes (Expr.holes_eq_nil.1 h).1
  · rfl

theorem Expr.ellipsis?_of_holes {e : Expr} (h : e.holes = []) : e.ellipsis? = none := by
  unfold Expr.ellipsis?
  rw [Expr.placeholder?_of_holes h]
  rfl

theorem plain_of_takes {sites : List Site} {filling : Filling} (h : List.Forall₂ Site.Takes sites filling) :
    ∀ e ∈ filling.flatten, e.holes = [] := by
  induction h with
  | nil => simp
  | cons takes _ ih =>
    rw [List.flatten_cons, List.forall_mem_append]
    exact ⟨takes.plain, ih⟩

/-! ### An operand that is a placeholder -/

theorem Operand.of_placeholder? : ∀ {x : Operand} {h : Placeholder}, x.placeholder? = some h →
    x.sites = [⟨h.name, false⟩] ∧ ∀ e, (Expr.ofOperand (x.fill [[e]])).bare = e.bare
  | .ident name, h, hx => by
    have hname : Placeholder.classify name = some h := hx
    refine ⟨?_, fun e => ?_⟩
    · rw [Operand.sites, sitesOfName, hname, Placeholder.name_of_classify hname]
      rfl
    · rw [Operand.fill, hname]
      exact Expr.bare_group e
  | .paren ⟨x, []⟩, h, hx => by
    obtain ⟨hsites, hfill⟩ := Operand.of_placeholder? (x := x) hx
    refine ⟨?_, fun e => ?_⟩
    · rw [Operand.sites, Expr.sites, hsites, Link.sitesAll]
      rfl
    · rw [Operand.fill, Expr.fill, hsites, Link.fillAll]
      exact hfill e

theorem Expr.of_placeholder? {e : Expr} {h : Placeholder} (he : e.placeholder? = some h) :
    e.sites = [⟨h.name, false⟩] ∧ ∀ c, (e.fill [[c]]).bare = c.bare := by
  fun_induction Expr.bare e with
  | case1 inner ih =>
    obtain ⟨hsites, hfill⟩ := ih he
    refine ⟨?_, fun c => ?_⟩
    · simp [Expr.sites, Operand.sites, Link.sitesAll, hsites]
    · simp only [Expr.fill, Operand.fill, Operand.sites, Link.fillAll, hsites, Expr.bare]
      exact hfill c
  | case2 e hbare =>
    obtain ⟨x, rest⟩ := e
    unfold Expr.placeholder? at he
    rw [Expr.bare_of_ne_paren (fun inner => hbare inner)] at he
    cases rest with
    | cons l ls => cases he
    | nil =>
      obtain ⟨hsites, hfill⟩ := Operand.of_placeholder? he
      refine ⟨?_, fun c => ?_⟩
      · simp [Expr.sites, Link.sitesAll, hsites]
      · simp only [Expr.fill, Link.fillAll, hsites]
        exact hfill c

end ChainCalc
