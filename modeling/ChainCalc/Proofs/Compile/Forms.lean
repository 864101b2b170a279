import ChainCalc.Compile
import ChainCalc.Proofs.Matching.Steps
/-!
# Special forms — what their placeholders stand for

`lambda(__params)` and `block(__statements)` capture every argument, whatever its spelling (`captures_manyForm`).
`define(_name, _value)` captures its first two arguments unless one of them is itself an ellipsis; a definition that is
accepted at all names its first argument and says its second (`args_of_defines`).
-/
namespace ChainCalc

namespace Captures

theorem of_push_self (c : Captures) (name : String) (e : Expr) : (c.push name e).of name = c.of name ++ [e] := by
  unfold push of
  rw [Table.get?_insert_self]
  rfl

theorem of_push_ne (c : Captures) {name other : String} (h : other ≠ name) (e : Expr) :
    (c.push name e).of other = c.of other := by
  unfold push of
  rw [Table.get?_insert_ne _ h]

theorem of_foldl_push (name : String) : ∀ (es : List Expr) (c : Captures),
    (es.foldl (fun c e => c.push name e) c).of name = c.of name ++ es
  | [], c => by rw [List.foldl_nil, List.append_nil]
  | e :: es, c => by
    rw [List.foldl_cons, of_foldl_push name es, of_push_self, List.append_assoc]
    rfl

def keepAll : OnCapture Captures := fun name e c => (true, c.push name e)

theorem keepAll_andThen (name : String) (e : Expr) (q : Attempt Captures) (c : Captures) :
    (keepAll name e).andThen q c = q (c.push name e) := rfl

theorem captures?_eq (form candidate : Expr) :
    form.captures? candidate = match matchExpr keepAll form candidate .none with
      | (true, c) => some c
      | (false, _) => Option.none := rfl

theorem captures?_eq_some {form candidate : Expr} {c : Captures} :
    form.captures? candidate = some c ↔ matchExpr keepAll form candidate .none = (true, c) := by
  rw [captures?_eq]
  obtain ⟨b, c'⟩ := matchExpr keepAll form candidate Captures.none
  cases b <;> simp

theorem captures?_bare (form candidate : Expr) : form.captures? candidate.bare = form.captures? candidate := by
  rw [captures?_eq, captures?_eq, matchExpr_bare]

end Captures

open Captures (keepAll keepAll_andThen)

/-! ### Forms of any number of arguments -/

theorem matchArgs_lone_ellipsis {name : String} (kind : (Expr.ident name).ellipsis? = some ⟨name, .ellipsis⟩) :
    ∀ (cs : List Expr) (c : Captures),
      matchArgs keepAll [.ident name] cs c = (true, (cs.map Expr.bare).foldl (fun c e => c.push name e) c)
  | [], c => by
    rw [matchArgs_none]
    show (exhausted [Expr.ident name], c) = _
    rw [exhausted, kind]
    rfl
  | e :: cs, c => by
    rw [matchArgs_ellipsis _ kind, keepAll_andThen, matchArgs_lone_ellipsis kind cs]
    rfl

/-- **A form with one ellipsis captures all arguments.** -/
theorem captures_manyForm {form name : String} (args : List Expr) (hform : Placeholder.classify form = none)
    (kind : (Expr.ident name).ellipsis? = some ⟨name, .ellipsis⟩) :
    ∃ c, (Expr.call form [.ident name]).captures? (.call form args) = some c ∧ c.of name = args.map Expr.bare := by
  refine ⟨(args.map Expr.bare).foldl (fun c e => c.push name e) .none, ?_, ?_⟩
  · rw [Captures.captures?_eq_some, matchExpr_call, matchName_plain _ hform hform, beq_self_eq_true,
      Attempt.verdict_true_andThen]
    exact matchArgs_lone_ellipsis kind args .none
  · rw [Captures.of_foldl_push]
    rfl

/-! ### Definitions -/

theorem Expr.isDefine_iff {e : Expr} : e.isDefine = true ↔ ∃ args, e.bare = .call "define" args := by
  unfold Expr.isDefine
  constructor
  · intro h
    cases ha : e.asCall? with
    | none => rw [ha] at h; cases h
    | some p =>
      obtain ⟨f, args⟩ := p
      rw [ha] at h
      have hf : f = "define" := by simpa using h
      exact ⟨args, by rw [← hf]; exact Expr.asCall?_eq_some.1 ha⟩
  · rintro ⟨args, h⟩
    rw [Expr.asCall?_eq_some.2 h]
    rfl

def Expr.Defines (e target value : Expr) : Prop :=
  ∃ c, defineForm.captures? e = some c ∧ (c.of "_name").head? = some target ∧ (c.of "_value").head? = some value

theorem name_ne_of_ellipsis? {e : Expr} {h : Placeholder} (he : e.ellipsis? = some h) :
    h.name ≠ "_name" ∧ h.name ≠ "_value" := by
  unfold Expr.ellipsis? at he
  obtain ⟨hp, hk⟩ := Option.filter_eq_some_iff.1 he
  have hn := Expr.classify_of_placeholder? hp
  constructor <;>
  · intro hs
    rw [hs] at hn
    cases hn
    exact absurd hk (by decide)

/-- **What the form accepts**: a name and a value, and perhaps an ellipsis behind them; or an ellipsis in the place of the
value, or of both, which takes what the form says there instead of being taken. -/
theorem define_cases {args : List Expr} {c : Captures} (h : defineForm.captures? (.call "define" args) = some c) :
    (∃ t v rest, args = t :: v :: rest ∧ t.ellipsis? = none ∧ v.ellipsis? = none ∧ exhausted rest = true ∧
      c.of "_name" = [t.bare] ∧ c.of "_value" = [v.bare]) ∨
    (∃ y, args = [y] ∧ y.ellipsis?.isSome = true ∧ c.of "_name" = []) ∨
    (∃ t y, args = [t, y] ∧ y.ellipsis?.isSome = true ∧ c.of "_value" = []) := by
  have hn : (Expr.ident "_name").ellipsis? = none := by decide
  have hw : (Expr.ident "_value").ellipsis? = none := by decide
  have hnone : ∀ name, Captures.none.of name = [] := fun _ => rfl
  have alone : ∀ {e : Expr} {es : List Expr}, exhausted (e :: es) = true → es = [] := by
    intro e es hex
    cases es with
    | nil => rfl
    | cons _ _ => cases hex
  have hm : matchArgs keepAll [.ident "_name", .ident "_value"] args .none = (true, c) := by
    rw [Captures.captures?_eq_some] at h
    unfold defineForm at h
    rwa [matchExpr_call, matchName_plain _ (by decide) (by decide), beq_self_eq_true, Attempt.verdict_true_andThen] at h
  rcases args with _ | ⟨t, args⟩
  · rw [matchArgs_none] at hm
    cases hm
  cases ht : t.ellipsis? with
  | some p =>
    rw [matchArgs_candidate_ellipsis _ hn ht, keepAll_andThen, matchArgs_candidate_ellipsis _ hw ht, keepAll_andThen,
      matchArgs_nil, Attempt.verdict_eq_true] at hm
    obtain ⟨hex, rfl⟩ := hm
    cases alone hex
    have hne := (name_ne_of_ellipsis? ht).1.symm
    refine .inr (.inl ⟨t, rfl, by rw [ht]; rfl, ?_⟩)
    rw [Captures.of_push_ne _ hne, Captures.of_push_ne _ hne, hnone]
  | none =>
    rw [matchArgs_each _ hn ht, matchExpr_hole _ (h := ⟨"_name", .single⟩) (by decide), keepAll_andThen] at hm
    rcases args with _ | ⟨v, rest⟩
    · rw [matchArgs_none] at hm
      cases hm
    cases hv : v.ellipsis? with
    | some p =>
      rw [matchArgs_candidate_ellipsis _ hw hv, keepAll_andThen, matchArgs_nil, Attempt.verdict_eq_true] at hm
      obtain ⟨hex, rfl⟩ := hm
      cases alone hex
      refine .inr (.inr ⟨t, v, rfl, by rw [hv]; rfl, ?_⟩)
      rw [Captures.of_push_ne _ (name_ne_of_ellipsis? hv).2.symm, Captures.of_push_ne _ (by decide), hnone]
    | none =>
      rw [matchArgs_each _ hw hv, matchExpr_hole _ (h := ⟨"_value", .single⟩) (by decide), keepAll_andThen, matchArgs_nil,
        Attempt.verdict_eq_true] at hm
      obtain ⟨hex, rfl⟩ := hm
      refine .inl ⟨t, v, rest, rfl, ht, hv, hex, ?_, ?_⟩
      · rw [Captures.of_push_ne _ (by decide), Captures.of_push_self, hnone]
        rfl
      · rw [Captures.of_push_self, Captures.of_push_ne _ (by decide), hnone]
        rfl

/-- **A definition that the form accepts** names its first argument and says its second; neither is an ellipsis, and only
an ellipsis may follow. -/
theorem args_of_defines {e target value : Expr} (he : e.isDefine = true) (h : e.Defines target value) :
    ∃ t v rest, e.bare = .call "define" (t :: v :: rest) ∧ target = t.bare ∧ value = v.bare ∧
      t.ellipsis? = none ∧ v.ellipsis? = none ∧ exhausted rest = true := by
  obtain ⟨c, hc, ht, hv⟩ := h
  obtain ⟨args, hargs⟩ := Expr.isDefine_iff.1 he
  have hbare : defineForm.captures? (.call "define" args) = some c := by rw [← hargs, Captures.captures?_bare, hc]
  rcases define_cases hbare with ⟨t, v, rest, rfl, hte, hve, hex, hname, hvalue⟩ | ⟨y, -, -, hname⟩ | ⟨t, y, -, -, hvalue⟩
  · rw [hname] at ht
    rw [hvalue] at hv
    exact ⟨t, v, rest, hargs, (Option.some.inj ht).symm, (Option.some.inj hv).symm, hte, hve, hex⟩
  · rw [hname] at ht
    cases ht
  · rw [hvalue] at hv
    cases hv

/-- A definition of two arguments that are no ellipses is accepted; an ellipsis may follow. -/
theorem defines_of_args {e t v : Expr} {rest : List Expr} (h : e.bare = .call "define" (t :: v :: rest))
    (ht : t.ellipsis? = none) (hv : v.ellipsis? = none) (hex : exhausted rest = true) : e.Defines t.bare v.bare := by
  have hn : (Expr.ident "_name").ellipsis? = none := by decide
  have hw : (Expr.ident "_value").ellipsis? = none := by decide
  refine ⟨(Captures.none.push "_name" t.bare).push "_value" v.bare, ?_, ?_, ?_⟩
  · rw [← Captures.captures?_bare, h, Captures.captures?_eq_some]
    unfold defineForm
    rw [matchExpr_call, matchName_plain _ (by decide) (by decide), beq_self_eq_true, Attempt.verdict_true_andThen,
      matchArgs_each _ hn ht, matchExpr_hole _ (h := ⟨"_name", .single⟩) (by decide), keepAll_andThen,
      matchArgs_each _ hw hv, matchExpr_hole _ (h := ⟨"_value", .single⟩) (by decide), keepAll_andThen, matchArgs_nil, hex]
    rfl
  · rw [Captures.of_push_ne _ (by decide), Captures.of_push_self]
    rfl
  · rw [Captures.of_push_self]
    rfl

end ChainCalc
