import ChainCalc.Proofs.Compile.Careful
import ChainCalc.Proofs.Compile.Sessions
import ChainCalc.Proofs.Expr.Equality
/-!
# Failures of the compiler itself

Some failures say that the compiler or the evaluator is to blame, and not the source: a placeholder that was not bound, a
wrong number of operands, an argument or a body that is not there.  Careful sources never meet one, in whatever session
(`failures_are_not_internal`): addresses never miss, and no computation is given the wrong number of values (`fed`).  Other
sources do (`internal_failures_are_reached`).
-/
namespace ChainCalc

/-! ### Evaluation -/

def Fault.isMiscount : Fault → Bool
  | .internal (.operandCount _ _ _) | .internal (.oneOperand _) => true
  | _ => false

theorem Fault.isInternal_eq_false {f : Fault} (addressed : f.isAddressing = false) (counted : f.isMiscount = false) :
    f.isInternal = false := by
  cases f with
  | internal cause => cases cause <;> simp_all [isAddressing, isMiscount]
  | _ => rfl

theorem Fault.isMiscount_of_not_internal {f : Fault} (h : f.isInternal = false) : f.isMiscount = false := by
  cases f with
  | internal cause => cases h
  | _ => rfl

theorem Fault.isMiscount_of_isOrdinary {f : Fault} (h : f.isOrdinary = true) : f.isMiscount = false := by
  cases f with
  | internal cause => cases h
  | _ => rfl

namespace Run

abbrev Fed {α : Type} (x : Run α) : Prop := x.Ends (fun f => f.isMiscount = false) (fun _ => True)

end Run

open Run

section

variable {w : Workspace} (holds : Discipline.careful.Holds w)

include holds

omit holds in
theorem fed_argument (name : String) (depth index : Nat) (frame : Frame) (ctx : Context) :
    (argument name depth index frame ctx).Fed := by
  unfold argument
  split
  · exact ends_pure trivial
  · exact ends_fail _ _ rfl

theorem fed_resolve {evaluate : Node → Run Value} (h : ∀ x, Discipline.careful.Fits w.scopes.size x → (evaluate x).Fed)
    (name : String) (env : Env) (frame : Frame) (ctx : Context) : (resolve w evaluate name env frame ctx).Fed := by
  unfold resolve
  split
  · exact ends_pure trivial
  · exact h _ (holds.lookup_value ‹_›)
  · exact fed_argument _ _ _ _ _
  · exact ends_fail _ _ rfl

/-- **No computation is given the wrong number of values**, whatever is called with whatever arguments. -/
theorem fed : ∀ n : Nat,
    (∀ {node frame ctx}, Discipline.careful.Fits w.scopes.size node → (eval w n node frame ctx).Fed) ∧
    (∀ {name callee args ctx site}, (applyTo w n name callee args ctx site).Fed) ∧
    (∀ {f args ctx site}, (call w n f args ctx site).Fed)
  | 0 => by
    refine ⟨?_, ?_, ?_⟩
    · intro node frame ctx _
      rw [eval]
      exact ends_outOfSteps
    · intro name callee args ctx site
      rw [applyTo]
      exact ends_outOfSteps
    · intro f args ctx site
      rw [call]
      exact ends_outOfSteps
  | n + 1 => by
    obtain ⟨heval, happly, hcall⟩ := fed n
    refine ⟨?_, ?_, ?_⟩
    · intro node frame ctx fits
      have here := fits.here.1
      have children := fits.children
      have all : ∀ {xs : List Node}, (∀ x ∈ xs, x ∈ node.children) →
          (xs.mapM (fun x => eval w n x frame ctx)).Ends (fun f => f.isMiscount = false) (fun vs => vs.length = xs.length) :=
        fun sub => (ends_mapM (fun x hx => heval (children x (sub x hx)))).imp (fun _ h => h.1)
      rw [eval.eq_def]
      cases node with
      | kernel name label operands compute =>
        refine (all (fun _ hx => hx)).bind (fun vs length => ?_)
        cases hc : compute vs with
        | ok v => exact ends_pure trivial
        | error fault => exact ends_fail _ _ (Fault.isMiscount_of_isOrdinary ((here vs length).2 fault hc))
      | constant v => exact ends_pure trivial
      | lambda d body => exact ends_pure trivial
      | worker query label => exact ends_pure trivial
      | param name depth index => exact fed_argument name depth index frame ctx
      | conditional label condition yes no =>
        refine (heval (children condition (by simp [Node.children]))).bind (fun v _ => ?_)
        split
        · exact heval (children yes (by simp [Node.children]))
        · exact heval (children no (by simp [Node.children]))
        · exact ends_fail _ _ rfl
      | sequence label items => exact ends_foldlM trivial (fun x hx _ => heval (children x hx))
      | functionRef name env => exact fed_resolve holds (fun x hx => heval hx) name env frame ctx
      | invoke name site env args =>
        refine (fed_resolve holds (fun x hx => heval hx) name env frame ctx).bind (fun callee _ => ?_)
        exact (all (fun _ hx => hx)).bind (fun _ _ => happly)
      | apply site callee args =>
        refine (heval (children callee List.mem_cons_self)).bind (fun f _ => ?_)
        exact (all (fun _ hx => List.mem_cons_of_mem _ hx)).bind (fun _ _ => happly)
      | fetch label key =>
        exact (heval (children key List.mem_cons_self)).bind
          (fun v _ => ends_fetchFrom (fun h _ => Fault.isMiscount_of_not_internal h) (fun _ _ _ _ _ => trivial) v)
    · intro name callee args ctx site
      rw [applyTo.eq_def]
      cases callee with
      | function f => exact hcall
      | _ => exact ends_fail _ _ rfl
    · intro f args ctx site
      rw [call]
      split
      · exact ends_pure trivial
      · split
        · exact ends_fail _ _ rfl
        · rename_i body hbody
          refine (ends_push (fun h _ => Fault.isMiscount_of_not_internal h) ctx _ site).bind (fun inner _ => ?_)
          refine (heval (holds.body hbody)).bind (fun result _ => ?_)
          split
          · exact ends_pure trivial
          · exact happly

end

/-! ### Sessions -/

def Failure.isInternal : Failure → Bool
  | .parse _ => false
  | .compile e => e.isInternal
  | .eval e => e.fault.isInternal

/-- All sources are careful; nothing else is agreed. -/
def Terms.careful : Terms := { Terms.any with source := SourceHeeds .careful }

section

variable {w : Workspace} {es : List Engine} {vs : List Value}

theorem Orderly.careful (past : Orderly .careful w es vs) : Discipline.careful.Holds w ∧ ∀ e ∈ es, e.Placed w :=
  Orderly.holds (T := .careful) Discipline.lawful_careful (fun h => h) (fun _ => ⟨trivial, trivial⟩) past

theorem not_internal_of_compile (past : Orderly .careful w es vs) {e : Engine} (mem : e ∈ es) {n : Nat} {source : String}
    {failure : Failure} {w' : Workspace} (agreed : SourceHeeds .careful source)
    (outcome : (e.compile n source).run w = some (.error failure, w')) : failure.isInternal = false := by
  obtain ⟨holds, placed⟩ := past.careful
  obtain ⟨-, -, -, refused⟩ := Discipline.lawful_careful.upholds_source holds (placed e mem) agreed outcome
  cases failure with
  | parse error => rfl
  | compile error => exact refused error rfl
  | eval error => exact absurd outcome (Engine.compile_ne_eval error)

theorem not_internal_of_callAt (past : Orderly .careful w es vs) {e : Engine} {n : Nat} {f : Closure} {args : List Value}
    {site : String} {failure : Failure} {w' : Workspace} (known : .function f ∈ vs) (given : ∀ a ∈ args, Given vs a)
    (outcome : (e.callAt n f args site).run w = some (.error failure, w')) : failure.isInternal = false := by
  obtain ⟨log, history⟩ := Orderly.history (T := .careful) (fun h => h) (fun h => h _ rfl) past
  obtain ⟨G, serves⟩ := history.serves history.traced_true
  obtain ⟨rfl, ⟨v, hv, -⟩ | ⟨err, hv, hcall⟩⟩ := Engine.run_of_callAt outcome
  · cases hv
  · cases hv
    exact Fault.isInternal_eq_false (sound_callAt serves known given outcome) ((fed past.careful.1 n).2.2.2 err hcall)

/-- **No failure is internal.**  After every history of careful sources, no source is refused and no call fails for what the
compiler did, and every computation that was compiled has as many operands as it is made for. -/
theorem failures_are_not_internal (past : Orderly .careful w es vs) {e : Engine} (mem : e ∈ es) :
    (∀ n source failure w', SourceHeeds .careful source → (e.compile n source).run w = some (.error failure, w') →
      failure.isInternal = false) ∧
    (∀ n source failure w', SourceHeeds .careful source → (e.run n source).run w = some (.error failure, w') →
      failure.isInternal = false) ∧
    (∀ n f args site failure w', .function f ∈ vs → (∀ a ∈ args, Given vs a) →
      (e.callAt n f args site).run w = some (.error failure, w') → failure.isInternal = false) ∧
    ∀ (i : Nat) body, (w.bodies[i]?).join = some body → body.Every Node.Counted := by
  refine ⟨fun n source failure w' => not_internal_of_compile past mem, fun n source failure w' agreed h => ?_,
    fun n f args site failure w' => not_internal_of_callAt past, fun i body h => (past.careful.1.body h).imp (fun _ h => h.1)⟩
  rw [Engine.run_run] at h
  split at h
  · cases h
  · cases h
    exact not_internal_of_compile past mem agreed ‹_›
  · rename_i main w₁ compiled
    exact not_internal_of_callAt (past.compile mem agreed compiled) List.mem_cons_self (fun _ ha => by cases ha) h

end

def fails (r : Option (Except Failure Value × Workspace)) : Bool := r.any (fun p => p.1.toOption.isNone)

theorem exists_of_fails {r : Option (Except Failure Value × Workspace)} (h : fails r = true) :
    ∃ failure w, r = some (.error failure, w) := by
  rcases r with _ | ⟨failure | _, w⟩
  · cases h
  · exact ⟨failure, w, rfl⟩
  · cases h

theorem failures_are_not_internal_range :
    let source := "define(len(_x), _x * 2 + 1); define(f(_cond, _then), if(_cond, len(_then), range(_then))); f(false, 0 - len(3))"
    let (e, w) := Engine.new .standard {} {}
    Orderly .careful w [e] [] ∧ SourceHeeds .careful source ∧
      ∃ failure w₁, (e.run 20 source).run w = some (.error failure, w₁) ∧ failure.isInternal = false := by
  intro source
  have past : Orderly .careful (Engine.new .standard {} {}).2 [(Engine.new .standard {} {}).1] [] := .engine .start {}
  have read : Program.parse source = .ok
      [.call "define" [.call "len" [.ident "_x"], ⟨.ident "_x", [⟨.mul, .lit (.int 2)⟩, ⟨.add, .lit (.int 1)⟩]⟩],
       .call "define" [.call "f" [.ident "_cond", .ident "_then"],
         .call "if" [.ident "_cond", .call "len" [.ident "_then"], .call "range" [.ident "_then"]]],
       .call "f" [.lit (.bool false), ⟨.lit (.int 0), [⟨.sub, .call "len" [.lit (.int 3)]⟩]⟩]] := by decide +kernel
  have agreed : SourceHeeds .careful source := by
    intro ss hss
    obtain rfl := Except.ok.inj (read.symm.trans hss)
    simp [Expr.heeds_call, Expr.heeds_ident, Expr.heeds_mk, Expr.lit, Expr.heeds_ofOperand, Operand.Heeds, Link.Heed,
      Expr.AllHeed, Rules.careful, countedNames, Operand.isEllipsis, Operand.placeholder?, Operand.bare, Expr.ellipsis?,
      Expr.placeholder?_of_isChain, Expr.isChain]
  obtain ⟨failure, w₁, failed⟩ := exists_of_fails
    (show fails (((Engine.new .standard {} {}).1.run 20 source).run (Engine.new .standard {} {}).2) = true by decide +kernel)
  exact ⟨past, agreed, failure, w₁, failed,
    (failures_are_not_internal past List.mem_cons_self).2.1 20 source failure w₁ agreed failed⟩

def refusal (source : String) : Option Failure :=
  (runSource 20 source).bind (fun
    | .error failure => some failure
    | .ok _ => none)

/-- **Internal failures that a source can have.**  The second argument of a definition is an ellipsis; the name of a call is a
placeholder of the pattern that it matches; a placeholder in front of an ellipsis takes the whole pattern. -/
theorem internal_failures_are_reached :
    refusal "define(x, __y)" = some (.compile (.formUnbound "_value")) ∧
    refusal "define(len, 1); _a(2)" = some (.eval ⟨"len", .internal (.oneOperand "len"), [⟨"main", "main"⟩]⟩) ∧
    refusal "define(f(_cond, _then, _else), _cond + __y)" = some (.compile (.missingBinding "if" "_then")) ∧
    refusal "define(f(_a, _b, _c), _a * __y); f(1, 2, 3)" =
      some (.eval ⟨"fma", .internal (.operandCount "fma" 3 1), [⟨"main", "main"⟩, ⟨"f", "f(1, 2, 3)"⟩]⟩) :=
  ⟨by decide +kernel, by decide +kernel, by decide +kernel, by decide +kernel⟩

end ChainCalc
