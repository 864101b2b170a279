import ChainCalc.Proofs.Compile.Forms
import ChainCalc.Proofs.Standard.Patterns
/-!
# What factories are handed — which placeholders, and how many captures in all

A pattern whose placeholders stand for one subtree each captures once for each of them, whatever the candidate is
(`Spread.each`), with two exceptions.  The name of a call may be a placeholder of the pattern, and captures the name in the
pattern on top of that (`Spread.named`).  And a placeholder followed by an ellipsis takes the whole of a pattern that has no
operators, so that nothing else is captured (`Spread.lone`).
-/
namespace ChainCalc

/-! ### Captures counted -/

namespace Captures

def count (c : Captures) : Nat := c.values.flatten.length

theorem count_push (c : Captures) (name : String) (e : Expr) : (c.push name e).count = c.count + 1 := by
  obtain ⟨l⟩ := c
  show ((Table.put name ((l.lookup name).getD [] ++ [e]) l).map Prod.snd).flatten.length = (l.map Prod.snd).flatten.length + 1
  induction l with
  | nil => rfl
  | cons g l ih =>
    obtain ⟨k, es⟩ := g
    by_cases hk : k = name
    · subst hk
      simp [Table.put]
      omega
    · have hne : (name == k) = false := by simpa using Ne.symm hk
      simp only [List.lookup_cons, hne, Table.put, hk, beq_iff_eq, if_false, List.map_cons, List.flatten_cons,
        List.length_append]
      omega

theorem nodup_keys_push {c : Captures} (h : c.keys.Nodup) (name : String) (e : Expr) : (c.push name e).keys.Nodup :=
  Table.nodup_keys_insert h name _

structure Grows (hs : List String) (c c' : Captures) : Prop where
  distinct : c.keys.Nodup → c'.keys.Nodup
  count : c'.count = c.count + hs.length
  bound : ∀ h, h ∈ hs ∨ c.of h ≠ [] → c'.of h ≠ []

theorem Grows.refl (c : Captures) : Grows [] c c := ⟨fun h => h, rfl, fun h hh => hh.resolve_left (by simp)⟩

theorem grows_push (c : Captures) (name : String) (e : Expr) : Grows [name] c (c.push name e) where
  distinct h := nodup_keys_push h name e
  count := count_push c name e
  bound h hh := by
    by_cases hn : h = name
    · subst hn
      rw [of_push_self]
      simp
    · rw [of_push_ne c hn]
      exact hh.resolve_left (by simpa using hn)

theorem Grows.trans {hs hs' : List String} {c c' c'' : Captures} (h : Grows hs c c') (h' : Grows hs' c' c'') :
    Grows (hs ++ hs') c c'' where
  distinct hc := h'.distinct (h.distinct hc)
  count := by rw [h'.count, h.count, List.length_append, Nat.add_assoc]
  bound x hx := by
    rw [List.mem_append] at hx
    rcases hx with (hx | hx) | hx
    · exact h'.bound x (.inr (h.bound x (.inl hx)))
    · exact h'.bound x (.inl hx)
    · exact h'.bound x (.inr (h.bound x (.inr hx)))

end Captures

/-! ### Attempts that capture for given placeholders -/

namespace Attempt

def Names (x : Attempt Captures) (hs : List String) : Prop := ∀ c c', x c = (true, c') → Captures.Grows hs c c'

theorem names_verdict (b : Bool) : (verdict b).Names [] := by
  intro c c' h
  obtain ⟨-, rfl⟩ := verdict_eq_true.1 h
  exact .refl c'

theorem names_false (hs : List String) : (verdict false).Names hs := fun _ _ h => by cases h

theorem Names.andThen {x y : Attempt Captures} {hs hs' : List String} (hx : x.Names hs) (hy : y.Names hs') :
    (x.andThen y).Names (hs ++ hs') := by
  intro c c' h
  obtain ⟨c₁, h₁, h₂⟩ := andThen_eq_true.1 h
  exact (hx c c₁ h₁).trans (hy c₁ c' h₂)

end Attempt

open Attempt

def IsSingle (h : String) : Prop := Placeholder.classify h = some ⟨h, .single⟩

instance (h : String) : Decidable (IsSingle h) := inferInstanceAs (Decidable (_ = _))

theorem IsSingle.placeholder? {h : String} (hh : IsSingle h) : (Operand.ident h).placeholder? = some ⟨h, .single⟩ := hh

theorem IsSingle.isEllipsis {h : String} (hh : IsSingle h) : (Operand.ident h).isEllipsis = false := by
  unfold Operand.isEllipsis
  rw [Operand.placeholder?_ident, hh]
  rfl

section

variable (p : Pattern) (candidate : Expr)

theorem names_keepOwn (name : String) (e : Expr) : (p.keepOwn candidate name e).Names [name] := by
  intro c c' h
  unfold Pattern.keepOwn at h
  split at h
  · cases h
  · cases h
    exact Captures.grows_push c name e

variable {p} (single : ∀ h ∈ p.holes, IsSingle h)

include single

/-- **Arguments against placeholders**: an ellipsis among the arguments would capture under its own name. -/
theorem names_matchArgs {holes : List String} (own : ∀ h ∈ holes, IsSingle h) (cs : List Expr) :
    (matchArgs (p.keepOwn candidate) (holes.map Expr.ident) cs).Names holes := by
  induction holes generalizing cs with
  | nil =>
    rw [List.map_nil, matchArgs_nil]
    exact names_verdict _
  | cons h holes ih =>
    obtain ⟨hh, own⟩ := List.forall_mem_cons.1 own
    have plain : (Expr.ident h).ellipsis? = none := by
      unfold Expr.ellipsis?
      rw [Expr.placeholder?_ident, hh]
      rfl
    rw [List.map_cons]
    cases cs with
    | nil =>
      have short : exhausted (Expr.ident h :: holes.map Expr.ident) = false := by
        cases holes with
        | nil => simp [exhausted, plain]
        | cons _ _ => rfl
      rw [matchArgs_none, short]
      exact names_false _
    | cons c cs =>
      cases hc : c.ellipsis? with
      | some k =>
        rw [matchArgs_candidate_ellipsis _ plain hc]
        intro s s' hm
        obtain ⟨s₁, hreport, -⟩ := andThen_eq_true.1 hm
        obtain ⟨hk, many⟩ := Option.filter_eq_some_iff.1 hc
        have one := (Expr.classify_of_placeholder? hk).symm.trans (single k.name (Pattern.binds_iff.1 (Pattern.binds_of_keepOwn hreport)))
        rw [Option.some.inj one] at many
        cases many
      | none =>
        rw [matchArgs_each _ plain hc, matchExpr_hole _ (p := .ident h) hh]
        exact (names_keepOwn p candidate h _).andThen (ih own cs)

omit single in
/-- **A chain of placeholders against any chain**: all of them are used up, unless the match fails. -/
theorem names_matchChain (links : List (Operator × String)) {before : Option Operator} {h : String} (hh : IsSingle h)
    (own : ∀ l ∈ links, IsSingle l.2) (c : Cursor) :
    (matchChain (p.keepOwn candidate) ⟨before, .ident h, links.map (fun l => ⟨l.1, .ident l.2⟩)⟩ c).Names
      (h :: links.map Prod.snd) := by
  induction links generalizing before h c with
  | nil =>
    rw [matchChain_hole _ hh.placeholder?]
    refine (names_keepOwn p candidate h _).andThen ?_
    generalize c.segmentEnd _ = c'
    obtain ⟨cb, ch, _ | ⟨l, ls⟩⟩ := c'
    · rw [List.map_nil, matchRest_nil_nil]
      exact names_verdict _
    · rw [List.map_nil, matchRest_nil_cons _ _ _ _ _ _ hh.isEllipsis]
      exact names_verdict _
  | cons link links ih =>
    obtain ⟨op, next⟩ := link
    obtain ⟨hnext, own⟩ := List.forall_mem_cons.1 own
    have tail : ∀ c, (matchChain (p.keepOwn candidate) ⟨some op, .ident next, links.map (fun l => ⟨l.1, .ident l.2⟩)⟩ c).Names
        (next :: links.map Prod.snd) := fun c => ih hnext own c
    rw [matchChain_hole _ hh.placeholder?]
    refine (names_keepOwn p candidate h _).andThen ?_
    generalize c.segmentEnd _ = c'
    obtain ⟨cb, ch, _ | ⟨⟨op', y⟩, ls⟩⟩ := c'
    · rw [List.map_cons, matchRest]
      split
      · exact tail _
      · have short : trailingEllipsis (⟨op, .ident next⟩ :: links.map (fun l => ⟨l.1, .ident l.2⟩)) = false := by
          cases links with
          | nil => exact hnext.isEllipsis
          | cons _ _ => rfl
        rw [short]
        exact names_false _
    · rw [List.map_cons, matchRest, if_neg (c := Cursor.repeats _ _ = true) (by simp [Cursor.repeats, hh.isEllipsis])]
      split
      · exact tail _
      · split
        · exact tail _
        · exact names_false _

end

/-! ### Patterns of placeholders for one subtree each -/

/-- **For which placeholders of a pattern a candidate is captured**, each as often as it is named here. -/
inductive Pattern.Spread (p : Pattern) (candidate : Expr) : List String → Prop
  | each : Spread p candidate p.holes
  | named {f : String} {args : List Expr} (isCall : p.expr.asCall?.isSome = true)
      (called : candidate.bare.first.bare = .call f args) (own : f ∈ p.holes) : Spread p candidate (f :: p.holes)
  | lone {x y : Operand} {op : Operator} {h : Placeholder} (short : p.expr.isChain = false)
      (pair : candidate.bare = ⟨x, [⟨op, y⟩]⟩) (hole : x.placeholder? = some h) (more : y.isEllipsis = true)
      (own : h.name ∈ p.holes) : Spread p candidate [h.name]

section

variable {p : Pattern} {candidate : Expr} {caps : Captures}

/-- A pattern of one operand: the candidate's first operand is matched with it, or takes it as a whole. -/
theorem spread_of_operand {x : Operand} (hp : p.expr = .ofOperand x) (hx : x.placeholder? = none)
    (bare : (Expr.ofOperand x).bare = .ofOperand x) (whole : candidate.placeholder? = none)
    (captured : p.capture? candidate = some caps)
    (matched : ∀ {c c'}, candidate.bare.first.placeholder? = none →
      matchOperand (p.keepOwn candidate) x candidate.bare.first c = (true, c') →
        ∃ hs, Captures.Grows hs c c' ∧ p.Spread candidate hs) :
    ∃ hs, Captures.Grows hs .none caps ∧ p.Spread candidate hs := by
  have hpattern : (Expr.ofOperand x).placeholder? = none := by
    unfold Expr.placeholder?
    rw [bare]
    exact hx
  rw [Pattern.capture?_eq_some, hp, matchExpr_chain _ hpattern whole, bare] at captured
  change matchChain _ ⟨none, x, []⟩ _ _ = _ at captured
  have long : ∀ {h}, candidate.bare.first.placeholder? = some h → candidate.bare.rest ≠ [] := by
    intro h hfirst hrest
    unfold Expr.placeholder? at whole
    generalize candidate.bare = b at hfirst hrest whole
    obtain ⟨first, rest⟩ := b
    obtain rfl : rest = [] := hrest
    cases hfirst.symm.trans whole
  cases hbare : candidate.bare with
  | mk first rest =>
    rw [hbare] at captured matched long
    change matchChain _ ⟨none, x, []⟩ ⟨none, first, rest⟩ _ = _ at captured
    have noEllipsis := Operand.isEllipsis_of_placeholder?_eq_none hx
    cases hfirst : first.placeholder? with
    | none =>
      rw [matchChain_operand _ (p := ⟨none, x, []⟩) (c := ⟨none, first, rest⟩) hx hfirst, andThen_eq_true] at captured
      obtain ⟨c, hm, hrest⟩ := captured
      have same : caps = c := by
        cases rest with
        | nil => rw [matchRest_nil_nil] at hrest; exact (verdict_eq_true.1 hrest).2
        | cons l ls => rw [matchRest_nil_cons _ _ _ _ _ _ noEllipsis] at hrest; exact (verdict_eq_true.1 hrest).2
      rw [same]
      exact matched hfirst hm
    | some h =>
      cases rest with
      | nil => exact absurd rfl (long hfirst)
      | cons l ls =>
        obtain ⟨op, y⟩ := l
        rw [matchChain_candidate_hole _ (p := ⟨none, x, []⟩) (c := ⟨none, first, ⟨op, y⟩ :: ls⟩) hx hfirst, andThen_eq_true] at captured
        obtain ⟨c, hreport, hrest⟩ := captured
        change matchRest _ ⟨none, x, []⟩ _ _ = _ at hrest
        rw [matchRest_nil_cons _ _ _ _ _ _ noEllipsis, verdict_eq_true] at hrest
        obtain ⟨trailing, rfl⟩ := hrest
        cases ls with
        | nil =>
          refine ⟨_, names_keepOwn p candidate _ _ _ _ hreport, .lone (by rw [hp]; rfl) hbare hfirst trailing ?_⟩
          exact Pattern.binds_iff.1 (Pattern.binds_of_keepOwn hreport)
        | cons _ _ => cases trailing

/-- **A pattern of the standard registry that has no ellipsis.** -/
theorem Standard.spread (hp : IsPattern p) (single : ∀ h ∈ p.holes, IsSingle h) (whole : candidate.placeholder? = none)
    (captured : p.capture? candidate = some caps) : ∃ hs, Captures.Grows hs .none caps ∧ p.Spread candidate hs := by
  cases hp with
  | binary op =>
    rw [Pattern.capture?_eq_some] at captured
    change matchExpr _ ⟨.ident "_1", [⟨op, .ident "_2"⟩]⟩ _ _ = _ at captured
    rw [matchExpr_chain _ (Expr.placeholder?_of_isChain rfl) whole] at captured
    exact ⟨_, names_matchChain candidate [(op, "_2")] (by decide) (by simp; decide) _ _ _ captured, .each⟩
  | fused =>
    rw [Pattern.capture?_eq_some] at captured
    change matchExpr _ ⟨.ident "_a", [⟨.mul, .ident "_b"⟩, ⟨.add, .ident "_c"⟩]⟩ _ _ = _ at captured
    rw [matchExpr_chain _ (Expr.placeholder?_of_isChain rfl) whole] at captured
    exact ⟨_, names_matchChain candidate [(.mul, "_b"), (.add, "_c")] (by decide) (by decide) _ _ _ captured, .each⟩
  | unary op =>
    refine spread_of_operand rfl rfl rfl whole captured (fun {c c'} hy hm => ?_)
    rw [matchOperand_bare _ rfl hy] at hm
    change matchBare _ (.unary op (.ident "_1")) _ _ = _ at hm
    generalize candidate.bare.first.bare = y at hm
    cases y with
    | unary op' y =>
      rw [matchBare] at hm
      split at hm
      · rw [matchOperand_hole _ (h := ⟨"_1", .single⟩) (by decide)] at hm
        exact ⟨_, names_keepOwn _ candidate _ _ _ _ hm, .each⟩
      · cases hm
    | _ => simp [matchBare] at hm; cases hm
  | @name f plain =>
    refine spread_of_operand (x := .ident f) rfl plain rfl whole captured (fun {c c'} hy hm => ?_)
    rw [matchOperand_bare _ (p := .ident f) plain hy] at hm
    change matchBare _ (.ident f) _ _ = _ at hm
    generalize candidate.bare.first.bare = y at hm
    cases y with
    | ident g =>
      rw [matchBare] at hm
      have none : (Pattern.ofExpr (.ident f)).holes = [] := by
        simp [Pattern.ofExpr, Expr.ident, Expr.ofOperand, Expr.holes, Operand.holes, Link.holesAll, plain]
      exact ⟨_, names_verdict _ _ _ hm, none ▸ .each⟩
    | _ => simp [matchBare] at hm; cases hm
  | @call f holes plain hole =>
    have bound : (Pattern.ofExpr (.call f (holes.map Expr.ident))).holes = holes := by
      simp [Pattern.ofExpr, Expr.call, Expr.ofOperand, Expr.holes, Operand.holes, Link.holesAll, plain, holesAll_ident hole]
    have own : ∀ h ∈ holes, IsSingle h := fun h hh => single h (by rw [bound]; exact hh)
    refine spread_of_operand (x := .call f (holes.map Expr.ident)) rfl rfl rfl whole captured (fun {c c'} hy hm => ?_)
    rw [matchOperand_bare _ rfl hy] at hm
    change matchBare _ (.call f (holes.map Expr.ident)) _ _ = _ at hm
    cases hfirst : candidate.bare.first.bare with
    | call g args =>
      rw [hfirst, matchBare, andThen_eq_true] at hm
      obtain ⟨c₁, hname, hargs⟩ := hm
      have rest := names_matchArgs candidate single own args c₁ c' hargs
      rw [← bound] at rest
      cases hg : Placeholder.classify g with
      | none =>
        rw [matchName_plain _ plain hg] at hname
        obtain ⟨-, rfl⟩ := verdict_eq_true.1 hname
        exact ⟨_, rest, .each⟩
      | some k =>
        rw [matchName_candidate_hole _ plain hg, Placeholder.name_of_classify hg] at hname
        refine ⟨_, (names_keepOwn _ candidate _ _ _ _ hname).trans rest, .named rfl hfirst ?_⟩
        exact Pattern.binds_iff.1 (Pattern.binds_of_keepOwn hname)
    | _ => rw [hfirst] at hm; simp [matchBare] at hm; cases hm

end

/-! ### Captures compiled -/

section

variable {hs : List String} {c : Captures} (grows : Captures.Grows hs .none c) {made : List (String × List Node)}
  (parallel : List.Forall₂ (fun g h => h.1 = g.1 ∧ h.2.length = g.2.length) c.entries made)

include grows parallel

theorem parallel_made : Table.Parallel (fun es nodes => nodes.length = es.length) c (Table.ofList made) := by
  have same := Table.Parallel.ofList (R := fun es nodes => nodes.length = es.length)
    (parallel.imp (fun _ _ h => ⟨h.1.symm, h.2⟩))
  rwa [Table.ofList_entries (grows.distinct List.nodup_nil)] at same

theorem Bound.length_ordered (primitive : String) : (Bound.mk primitive (.ofList made)).ordered.length = hs.length := by
  have lengths : c.values.map List.length = (Table.ofList made).values.map List.length := by
    have same := (parallel_made grows parallel).values
    generalize c.values = groups at same ⊢
    generalize (Table.ofList made).values = nodes at same ⊢
    induction same with
    | nil => rfl
    | cons head _ ih => simp [head, ih]
  have count := grows.count
  unfold Captures.count at count
  unfold Bound.ordered
  rw [List.length_flatten, ← lengths, ← List.length_flatten, count]
  exact Nat.zero_add _

theorem Bound.one_of_mem (primitive : String) {h : String} (mem : h ∈ hs) :
    ∃ node, (Bound.mk primitive (.ofList made)).one h = .ok node := by
  have bound := grows.bound h (.inl mem)
  have same := (parallel_made grows parallel).get? h
  unfold Captures.of at bound
  cases hc : c.get? h with
  | none => rw [hc] at bound; exact absurd rfl bound
  | some es =>
    rw [hc] at same bound
    obtain ⟨nodes, hnodes, length⟩ : ∃ nodes, (Table.ofList made).get? h = some nodes ∧ nodes.length = es.length := by
      cases hm : (Table.ofList made).get? h with
      | none => rw [hm] at same; cases same
      | some nodes => rw [hm] at same; cases same with | some h => exact ⟨nodes, rfl, h⟩
    cases nodes with
    | nil => exact absurd (List.eq_nil_of_length_eq_zero length.symm) bound
    | cons node nodes => exact ⟨node, by simp [Bound.one, hnodes]⟩

end

end ChainCalc
