import ChainCalc.Proofs.Evaluation.Traces
/-!
# Limits on calls — more room never changes an answer

Nothing looks at the limit on calls but a call that is about to be entered, and nothing goes on after a call that found no
room.  So an evaluation that did not end there does step by step the same under a higher limit, and ends in the same value
or in the same error with the same trace (`higher_limit_keeps_answers`).
-/
namespace ChainCalc

open Run (Leads)

/-! ### Contexts under a higher limit -/

def Context.limited (ctx : Context) (limit : Nat) : Context := { ctx with maxCallDepth := limit }

abbrev EvalError.Answers (e : EvalError) : Prop := e.fault.isOverflow = false

def Context.Raised (limit : Nat) (ctx ctx' : Context) : Prop := ctx.maxCallDepth ≤ limit ∧ ctx' = ctx.limited limit

/-- **A call that found room finds room under a higher limit**, and one that found none was stopped by the limit. -/
theorem push_raised {ctx ctx' : Context} {limit : Nat} (raised : ctx.Raised limit ctx') (name site : String) :
    Leads EvalError.Answers (Context.Raised limit) (Run.ofExcept (ctx.push name site)) (Run.ofExcept (ctx'.push name site)) := by
  obtain ⟨higher, rfl⟩ := raised
  refine Run.leads_ofExcept (fun answers => ?_)
  cases pushed : ctx.push name site with
  | ok inner =>
    obtain ⟨room, rfl⟩ := Context.push_eq_ok.1 pushed
    have room' : (ctx.limited limit).depth < (ctx.limited limit).maxCallDepth := Nat.lt_of_lt_of_le room higher
    rw [Context.push_eq_ok.2 ⟨room', rfl⟩]
    exact .ok ⟨higher, rfl⟩
  | error e =>
    obtain ⟨-, rfl⟩ := Context.push_eq_error.1 pushed
    cases answers _ pushed

/-- **Step by step the same under a higher limit.**  The only place where the limit is looked at is a call about to be
entered. -/
theorem errand_raised (w : Workspace) (n : Nat) (t : Errand) {ctx : Context} {limit : Nat} (higher : ctx.maxCallDepth ≤ limit) :
    Leads EvalError.Answers Eq (t.run w n ctx) (t.run w n (ctx.limited limit)) := by
  have laws : (Tandem.same (Context.Raised limit)).Lawful (.leads EvalError.Answers 0) w w := by
    refine Tandem.lawful_same ?_ push_raised w
    rintro ctx _ ⟨-, rfl⟩
    exact ⟨rfl, rfl, rfl⟩
  have step := laws.inStep n
  have raised : ctx.Raised limit (ctx.limited limit) := ⟨higher, rfl⟩
  have same : ∀ args : List Value, List.Forall₂ Eq args args := fun args => List.forall₂_same.2 (fun _ _ => rfl)
  cases t with
  | node x frame => exact step.node ⟨rfl, rfl, raised⟩
  | apply name callee args site => exact step.apply rfl (same args) raised rfl rfl
  | call f args site => exact step.call rfl (same args) raised rfl

/-! ### Outcomes under a higher limit -/

/-- **Raising the limit on calls never changes an answer.**  What ends in a value, or in an error other than that calls are
nested too deeply, ends in the same value or in the same error, trace included, under every higher limit, and in nothing
else. -/
theorem higher_limit_keeps_answers {w : Workspace} {t : Errand} {ctx : Context} {limit : Nat}
    (higher : ctx.maxCallDepth ≤ limit) {r : Except EvalError Value} (ends : t.Ends w ctx r) (answers : ¬Overflows r) :
    t.Ends w (ctx.limited limit) r ∧ ∀ r', t.Ends w (ctx.limited limit) r' → r' = r := by
  obtain ⟨n, h⟩ := ends
  have count : ∀ e, r = .error e → e.Answers := fun e he => Bool.eq_false_iff.2 (fun full => answers ⟨e, he, full⟩)
  have ends : t.Ends w (ctx.limited limit) r := by
    obtain ⟨r', h', concur⟩ := errand_raised w n t higher r h count
    exact ⟨n, concur.eq ▸ h'⟩
  exact ⟨ends, fun r' ends' => ends'.unique ends⟩

/-- A number is called inside two calls, for which there is just enough room. -/
theorem higher_limit_keeps_answers_nested :
    let env : Env := ⟨⟨0, 0⟩, []⟩
    let w : Workspace := {
      scopes := #[⟨[("inner", .function ⟨1, "inner", ["x"], 1⟩)]⟩]
      bodies := #[some (.invoke "inner" "inner(x)" env [.param "x" 1 0]),
        some (.apply "x(x)" (.param "x" 1 0) [.param "x" 1 0])] }
    let ctx : Context := { maxCallDepth := 2 }
    let t : Errand := .call ⟨⟨0, "outer", ["x"], 1⟩, [], []⟩ [.int 5] "outer(5)"
    let e : EvalError := ⟨"x", .notCallable "int", [⟨"outer", "outer(5)"⟩, ⟨"inner", "inner(x)"⟩]⟩
    ctx.maxCallDepth ≤ 1000 ∧ t.Ends w ctx (.error e) ∧ ¬Overflows (.error e) ∧ t.Ends w (ctx.limited 1000) (.error e) := by
  intro env w ctx t e
  have higher : ctx.maxCallDepth ≤ 1000 := by decide
  have ends : t.Ends w ctx (.error e) := ⟨20, rfl⟩
  have answers : ¬Overflows (.error e) := by
    rintro ⟨e', he, full⟩
    cases he
    cases full
  exact ⟨higher, ends, answers, (higher_limit_keeps_answers higher ends answers).1⟩

end ChainCalc
