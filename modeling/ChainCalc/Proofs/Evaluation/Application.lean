import ChainCalc.Proofs.Evaluation.Steps
/-!
# Application — arguments all at once, or in turn

A call with too few arguments keeps them, and arguments that are left over go to what the function returns.  So it makes
no difference how a list of arguments is cut up: what a function does with `xs ++ ys` is what its value at `xs` does with
`ys` (`application_is_associative`).  `Calls` is a call in enough steps.  The induction is on the steps of the call with
`xs` alone, since the value that the rest goes to may come out of any number of further calls.
-/
namespace ChainCalc

/-! ### Outcomes of calls -/

/-- **The outcome of a call**, in enough steps. -/
def Calls (w : Workspace) (f : Closure) (args : List Value) (ctx : Context) (site : String) (r : Except EvalError Value) : Prop :=
  ∃ n, (call w n f args ctx site).run = some r

def Applies (w : Workspace) (name : String) (callee : Value) (args : List Value) (ctx : Context) (site : String)
    (r : Except EvalError Value) : Prop := ∃ n, (applyTo w n name callee args ctx site).run = some r

theorem call_le_of_le (w : Workspace) {n m : Nat} (h : n ≤ m) (f : Closure) (args : List Value) (ctx : Context) (site : String) :
    Run.Le (call w n f args ctx site) (call w m f args ctx site) := by
  obtain ⟨k, rfl⟩ := Nat.exists_eq_add_of_le h
  exact (le_add w n k).2.2 f args ctx site

theorem applyTo_le_of_le (w : Workspace) {n m : Nat} (h : n ≤ m) (name : String) (callee : Value) (args : List Value)
    (ctx : Context) (site : String) : Run.Le (applyTo w n name callee args ctx site) (applyTo w m name callee args ctx site) := by
  obtain ⟨k, rfl⟩ := Nat.exists_eq_add_of_le h
  exact (le_add w n k).2.1 name callee args ctx site

section

variable {w : Workspace} {ctx : Context} {site : String}

theorem Calls.unique {f : Closure} {args : List Value} {r r' : Except EvalError Value} (h : Calls w f args ctx site r)
    (h' : Calls w f args ctx site r') : r = r' := by
  obtain ⟨n, hn⟩ := h
  obtain ⟨m, hm⟩ := h'
  have hn' := call_le_of_le w (Nat.le_max_left n m) f args ctx site r hn
  have hm' := call_le_of_le w (Nat.le_max_right n m) f args ctx site r' hm
  exact Option.some.inj (hn'.symm.trans hm')

theorem applies_function {name : String} {f : Closure} {args : List Value} {r : Except EvalError Value} :
    Applies w name (.function f) args ctx site r ↔ Calls w f args ctx site r := by
  constructor
  · rintro ⟨n, h⟩
    cases n with
    | zero => rw [applyTo] at h; cases h
    | succ n => exact ⟨n, h⟩
  · rintro ⟨n, h⟩
    exact ⟨n + 1, h⟩

theorem applies_plain {name : String} {v : Value} (plain : v.asFunction? = none) {args : List Value}
    {r : Except EvalError Value} :
    Applies w name v args ctx site r ↔ r = .error (ctx.error name (.notCallable v.typeName)) := by
  have answer : ∀ n, (applyTo w (n + 1) name v args ctx site).run = some (.error (ctx.error name (.notCallable v.typeName))) := by
    intro n
    cases v with
    | function f => cases plain
    | _ => rfl
  constructor
  · rintro ⟨n, h⟩
    cases n with
    | zero => rw [applyTo] at h; cases h
    | succ n => exact (Option.some.inj ((answer n).symm.trans h)).symm
  · rintro rfl
    exact ⟨1, answer 0⟩

end

/-! ### What a call does -/

/-- The body of a function evaluated on arguments of which there are enough; those beyond its parameters are not looked
at. -/
def runBody (w : Workspace) (n : Nat) (f : Closure) (all : List Value) (ctx : Context) (site : String) : Run Value :=
  match w.body? f.definition with
  | none => Run.fail ctx f.definition.name (.internal .noBody)
  | some body => do
    let inner ← Run.ofExcept (ctx.push f.definition.name site)
    eval w n body (Frame.enter f.captured f.definition.depth (all.take f.definition.params.length)) inner

section

variable (w : Workspace) (f : Closure) (ctx : Context) (site : String)

theorem call_applied (n : Nat) (xs ys : List Value) :
    call w n { f with applied := f.applied ++ xs } ys ctx site = call w n f (xs ++ ys) ctx site := by
  cases n with
  | zero => rw [call, call]
  | succ n => rw [call, call, List.append_assoc]

theorem call_of_few (n : Nat) {args : List Value} (few : (f.applied ++ args).length < f.definition.params.length) :
    call w (n + 1) f args ctx site = pure (.function { f with applied := f.applied ++ args }) := by
  rw [call]
  exact if_pos few

theorem call_of_enough (n : Nat) {args : List Value} (enough : f.definition.params.length ≤ (f.applied ++ args).length) :
    call w (n + 1) f args ctx site = runBody w n f (f.applied ++ args) ctx site >>= fun result =>
      if ((f.applied ++ args).drop f.definition.params.length).isEmpty then pure result
      else applyTo w n f.definition.name result ((f.applied ++ args).drop f.definition.params.length) ctx site := by
  rw [call]
  refine (if_neg (Nat.not_lt.2 enough)).trans ?_
  unfold runBody
  cases w.body? f.definition with
  | none => rfl
  | some body => exact (bind_assoc _ _ _).symm

theorem runBody_le_of_le {n m : Nat} (h : n ≤ m) (all : List Value) :
    Run.Le (runBody w n f all ctx site) (runBody w m f all ctx site) := by
  unfold runBody
  split
  · exact Run.Le.refl _
  · exact (Run.Le.refl _).bind (fun inner => eval_le_of_le w h _ _ inner)

/-- Further arguments make no difference to the body; they go to what it yields, behind those that were left over. -/
theorem call_append_of_enough (n : Nat) {xs : List Value} (enough : f.definition.params.length ≤ (f.applied ++ xs).length)
    (ys : List Value) :
    call w (n + 1) f (xs ++ ys) ctx site = runBody w n f (f.applied ++ xs) ctx site >>= fun result =>
      if ((f.applied ++ xs).drop f.definition.params.length ++ ys).isEmpty then pure result
      else applyTo w n f.definition.name result ((f.applied ++ xs).drop f.definition.params.length ++ ys) ctx site := by
  have enough' : f.definition.params.length ≤ (f.applied ++ (xs ++ ys)).length := by
    rw [← List.append_assoc, List.length_append]
    exact Nat.le_trans enough (Nat.le_add_right _ _)
  have same : runBody w n f (f.applied ++ xs ++ ys) ctx site = runBody w n f (f.applied ++ xs) ctx site := by
    unfold runBody
    rw [List.take_append_of_le_length enough]
  rw [call_of_enough w f ctx site n enough', ← List.append_assoc, same, List.drop_append_of_le_length enough]

end

section

variable {w : Workspace} {f : Closure} {ctx : Context} {site : String} {n : Nat} {xs ys : List Value}
  (enough : f.definition.params.length ≤ (f.applied ++ xs).length)

include enough

theorem calls_append_of_body_error {e : EvalError} (body : (runBody w n f (f.applied ++ xs) ctx site).run = some (.error e)) :
    Calls w f (xs ++ ys) ctx site (.error e) := by
  refine ⟨n + 1, ?_⟩
  rw [call_append_of_enough w f ctx site n enough, Run.bind_eq_error]
  exact .inl body

theorem calls_append_iff_of_body_ok (more : ys ≠ []) {u : Value}
    (body : (runBody w n f (f.applied ++ xs) ctx site).run = some (.ok u)) {r : Except EvalError Value} :
    Calls w f (xs ++ ys) ctx site r ↔
      Applies w f.definition.name u ((f.applied ++ xs).drop f.definition.params.length ++ ys) ctx site r := by
  have step : ∀ m, n ≤ m → (call w (m + 1) f (xs ++ ys) ctx site).run =
      (applyTo w m f.definition.name u ((f.applied ++ xs).drop f.definition.params.length ++ ys) ctx site).run := by
    intro m hm
    rw [call_append_of_enough w f ctx site m enough, Run.run_bind, runBody_le_of_le w f ctx site hm _ _ body]
    dsimp only
    rw [if_neg (by simp [more])]
  constructor
  · rintro ⟨m, hm⟩
    have ends := call_le_of_le w (Nat.le_add_left m (n + 1)) f (xs ++ ys) ctx site r hm
    rw [Nat.add_right_comm, step (n + m) (Nat.le_add_right n m)] at ends
    exact ⟨n + m, ends⟩
  · rintro ⟨m, hm⟩
    refine ⟨n + m + 1, ?_⟩
    rw [step (n + m) (Nat.le_add_right n m)]
    exact applyTo_le_of_le w (Nat.le_add_left m n) _ _ _ _ _ r hm

end

/-! ### One list of arguments after another -/

/-- What comes of further arguments `ys`, where the arguments before them ended in a given way: a value is applied to
them, and an error stays. -/
def Continues (w : Workspace) (f : Closure) (args ys : List Value) (ctx : Context) (site : String) :
    Except EvalError Value → Prop
  | .ok v => ∃ name, ∀ r, Calls w f args ctx site r ↔ Applies w name v ys ctx site r
  | .error e => Calls w f args ctx site (.error e)

/-- **A call with more arguments continues the call with fewer.** -/
theorem continues_of_call {w : Workspace} {ctx : Context} {site : String} {ys : List Value} (more : ys ≠ []) :
    ∀ (n : Nat) {f : Closure} {xs : List Value} {r : Except EvalError Value},
      (call w n f xs ctx site).run = some r → Continues w f (xs ++ ys) ys ctx site r := by
  intro n
  induction n using Nat.strongRecOn with
  | ind n ih =>
    intro f xs r h
    cases n with
    | zero => rw [call] at h; cases h
    | succ n =>
      rcases Nat.lt_or_ge (f.applied ++ xs).length f.definition.params.length with few | enough
      · rw [call_of_few w f ctx site n few] at h
        cases h
        refine ⟨f.definition.name, fun r => ?_⟩
        rw [applies_function]
        unfold Calls
        simp only [call_applied]
      rw [call_of_enough w f ctx site n enough, Run.run_bind] at h
      cases body : (runBody w n f (f.applied ++ xs) ctx site).run with
      | none => rw [body] at h; cases h
      | some rb =>
        rw [body] at h
        cases rb with
        | error e =>
          cases h
          exact calls_append_of_body_error enough body
        | ok u =>
          have next := fun r => calls_append_iff_of_body_ok (r := r) enough more body
          dsimp only at h
          split at h
          · rename_i none_left
            cases h
            refine ⟨f.definition.name, fun r => ?_⟩
            rw [next, List.isEmpty_iff.1 none_left, List.nil_append]
          · cases hu : u.asFunction? with
            | none =>
              have failed := (applies_plain hu).1 ⟨n, h⟩
              subst failed
              exact (next _).2 ((applies_plain hu).2 rfl)
            | some g =>
              obtain rfl : u = .function g := by
                cases u with
                | function g' => cases hu; rfl
                | _ => cases hu
              cases n with
              | zero => rw [applyTo] at h; cases h
              | succ n =>
                have inner := ih n (by omega) (show (call w n g _ ctx site).run = some r from h)
                cases r with
                | error e => exact (next _).2 (applies_function.2 inner)
                | ok v =>
                  obtain ⟨name, inner⟩ := inner
                  exact ⟨name, fun r => by rw [next, applies_function, inner]⟩

/-- A call that ends with more arguments ends with fewer: it has been there on its way. -/
theorem ends_of_call_append {w : Workspace} {ctx : Context} {site : String} {ys : List Value} :
    ∀ (n : Nat) {f : Closure} {xs : List Value} {r : Except EvalError Value},
      (call w n f (xs ++ ys) ctx site).run = some r → ∃ r', (call w n f xs ctx site).run = some r' := by
  intro n
  induction n using Nat.strongRecOn with
  | ind n ih =>
    intro f xs r h
    cases n with
    | zero => rw [call] at h; cases h
    | succ n =>
      rcases Nat.lt_or_ge (f.applied ++ xs).length f.definition.params.length with few | enough
      · exact ⟨_, congrArg _ (call_of_few w f ctx site n few)⟩
      rw [call_append_of_enough w f ctx site n enough, Run.run_bind] at h
      rw [call_of_enough w f ctx site n enough, Run.run_bind]
      cases body : (runBody w n f (f.applied ++ xs) ctx site).run with
      | none => rw [body] at h; cases h
      | some rb =>
        rw [body] at h
        cases rb with
        | error e => exact ⟨_, rfl⟩
        | ok u =>
          dsimp only at h ⊢
          split
          · exact ⟨_, rfl⟩
          · rename_i some_left
            have left : ¬ ((f.applied ++ xs).drop f.definition.params.length ++ ys).isEmpty = true := fun none_left =>
              some_left (List.isEmpty_iff.2 (List.append_eq_nil_iff.1 (List.isEmpty_iff.1 none_left)).1)
            rw [if_neg left] at h
            cases n with
            | zero => rw [applyTo] at h; cases h
            | succ n =>
              cases u with
              | function g => exact ih n (by omega) h
              | _ => exact ⟨_, rfl⟩

/-- A value that a function comes to when it is given several lists of arguments, each to the value before. -/
inductive CallsInTurn (w : Workspace) (ctx : Context) (site : String) : Closure → List (List Value) → Value → Prop
  | last {f : Closure} {xs : List Value} {v : Value} (call : Calls w f xs ctx site (.ok v)) : CallsInTurn w ctx site f [xs] v
  | next {f g : Closure} {xs : List Value} {rest : List (List Value)} {v : Value} (call : Calls w f xs ctx site (.ok (.function g)))
      (more : CallsInTurn w ctx site g rest v) : CallsInTurn w ctx site f (xs :: rest) v

section

variable {w : Workspace} {f g : Closure} {xs ys : List Value} {ctx : Context} {site : String}

theorem calls_append_of_function (more : ys ≠ []) (h : Calls w f xs ctx site (.ok (.function g))) (r : Except EvalError Value) :
    Calls w f (xs ++ ys) ctx site r ↔ Calls w g ys ctx site r := by
  obtain ⟨n, hn⟩ := h
  obtain ⟨name, continues⟩ := continues_of_call more n hn
  rw [continues, applies_function]

theorem calls_append_of_plain (more : ys ≠ []) {v : Value} (plain : v.asFunction? = none) (h : Calls w f xs ctx site (.ok v)) :
    ∃ name, Calls w f (xs ++ ys) ctx site (.error (ctx.error name (.notCallable v.typeName))) := by
  obtain ⟨n, hn⟩ := h
  obtain ⟨name, continues⟩ := continues_of_call more n hn
  exact ⟨name, (continues _).2 ((applies_plain plain).2 rfl)⟩

theorem calls_append_of_error (more : ys ≠ []) {e : EvalError} (h : Calls w f xs ctx site (.error e)) :
    Calls w f (xs ++ ys) ctx site (.error e) := by
  obtain ⟨n, hn⟩ := h
  exact continues_of_call more n hn

/-- A call that yields a value with more arguments yields a function with fewer. -/
theorem exists_function_of_calls_append (more : ys ≠ []) {v : Value} (h : Calls w f (xs ++ ys) ctx site (.ok v)) :
    ∃ g, Calls w f xs ctx site (.ok (.function g)) := by
  obtain ⟨n, hn⟩ := h
  obtain ⟨r, hr⟩ := ends_of_call_append n hn
  have hxs : Calls w f xs ctx site r := ⟨n, hr⟩
  have hxys : Calls w f (xs ++ ys) ctx site (.ok v) := ⟨n, hn⟩
  cases r with
  | error e =>
    have := hxys.unique (calls_append_of_error more hxs)
    cases this
  | ok u =>
    cases hu : u.asFunction? with
    | none =>
      obtain ⟨name, failed⟩ := calls_append_of_plain more hu hxs
      have := hxys.unique failed
      cases this
    | some g =>
      cases u with
      | function g' => exact ⟨g', hxs⟩
      | _ => cases hu

theorem callsInTurn_iff : ∀ {rest : List (List Value)} {f : Closure} {xs : List Value} {v : Value}, (∀ ys ∈ rest, ys ≠ []) →
    (CallsInTurn w ctx site f (xs :: rest) v ↔ Calls w f (xs ++ rest.flatten) ctx site (.ok v))
  | [], f, xs, v, _ => by
    rw [List.flatten_nil, List.append_nil]
    constructor
    · rintro (h | ⟨_, ⟨⟩⟩)
      exact h
    · exact .last
  | ys :: rest, f, xs, v, hne => by
    obtain ⟨hys, hrest⟩ := List.forall_mem_cons.1 hne
    have more : ys ++ rest.flatten ≠ [] := List.append_ne_nil_of_left_ne_nil hys _
    rw [List.flatten_cons]
    constructor
    · rintro (_ | ⟨h, tail⟩)
      exact (calls_append_of_function more h _).2 ((callsInTurn_iff hrest).1 tail)
    · intro h
      obtain ⟨g, hg⟩ := exists_function_of_calls_append more h
      exact .next hg ((callsInTurn_iff hrest).2 ((calls_append_of_function more hg _).1 h))

end

/-- **Application is associative over argument lists.**  With further arguments a call does what the function that it
yielded does with them, cannot go on if it yielded something else, and fails as it failed before; so arguments can be
given all at once or list by list. -/
theorem application_is_associative (w : Workspace) (f : Closure) (xs ys : List Value) (ctx : Context) (site : String)
    (more : ys ≠ []) :
    (∀ g, Calls w f xs ctx site (.ok (.function g)) →
      ∀ r, Calls w f (xs ++ ys) ctx site r ↔ Calls w g ys ctx site r) ∧
    (∀ v, Calls w f xs ctx site (.ok v) → v.asFunction? = none →
      ∃ name, Calls w f (xs ++ ys) ctx site (.error (ctx.error name (.notCallable v.typeName)))) ∧
    (∀ e, Calls w f xs ctx site (.error e) → Calls w f (xs ++ ys) ctx site (.error e)) ∧
    (∀ lists : List (List Value), (∀ zs ∈ lists, zs ≠ []) →
      ∀ v, CallsInTurn w ctx site f (xs :: ys :: lists) v ↔ Calls w f (xs ++ (ys ++ lists.flatten)) ctx site (.ok v)) := by
  refine ⟨fun g h r => calls_append_of_function more h r, fun v h plain => calls_append_of_plain more plain h,
    fun e h => calls_append_of_error more h, fun lists hne v => ?_⟩
  exact callsInTurn_iff (List.forall_mem_cons.2 ⟨more, hne⟩)

/-- A function of one parameter that yields another one, called with three arguments at once: the second goes to the inner
function, and the third to its result, which is a number. -/
theorem application_is_associative_nested :
    let inner : Definition := ⟨1, "lambda", ["y"], 2⟩
    let w : Workspace := { bodies := #[some (.lambda inner none), some (.param "x" 1 0)] }
    let f : Closure := ⟨⟨0, "constant", ["x"], 1⟩, [], []⟩
    [Value.int 2] ≠ [] ∧ Calls w f [.int 1] {} "site" (.ok (.function ⟨inner, [⟨1, [.int 1]⟩], []⟩)) ∧
      Calls w f [.int 1, .int 2] {} "site" (.ok (.int 1)) ∧
      ∃ name, Calls w f [.int 1, .int 2, .int 3] {} "site" (.error (Context.error {} name (.notCallable "int"))) := by
  intro inner w f
  have once : Calls w f [.int 1] {} "site" (.ok (.function ⟨inner, [⟨1, [.int 1]⟩], []⟩)) := ⟨2, rfl⟩
  have twice : Calls w f [.int 1, .int 2] {} "site" (.ok (.int 1)) :=
    ((application_is_associative w f [.int 1] [.int 2] {} "site" (by simp)).1 _ once _).2 ⟨2, rfl⟩
  exact ⟨by simp, once, twice,
    (application_is_associative w f [.int 1, .int 2] [.int 3] {} "site" (by simp)).2.1 _ twice rfl⟩

/-! ### A function that comes to itself -/

/-- **A function without parameters that comes to itself never answers a call with arguments**: they go on to the next
call of it, at the same depth, and are never taken. -/
theorem call_self_eq_none {w : Workspace} {d : Definition} {name : String} {env : Env} (thunk : d.params = [])
    (body : w.body? d = some (.functionRef name env)) (itself : w.lookup env name = some (.function d)) {ctx : Context}
    (room : ctx.depth < ctx.maxCallDepth) (site : String) {args : List Value} (given : args ≠ []) :
    ∀ (n : Nat) (captured : Frame), (call w n ⟨d, captured, []⟩ args ctx site).run = none
  | 0, captured => by
    rw [call]
    rfl
  | n + 1, captured => by
    have entered : runBody w n ⟨d, captured, []⟩ args ctx site = eval w n (.functionRef name env)
        (captured.enter d.depth (args.take d.params.length)) { ctx with stack := ctx.stack.push ⟨d.name, site⟩ } := by
      unfold runBody
      dsimp only
      rw [body, Context.push_eq_ok.2 ⟨room, rfl⟩]
      rfl
    rw [call_of_enough w ⟨d, captured, []⟩ ctx site n (by rw [thunk]; exact Nat.zero_le _)]
    simp only [List.nil_append, entered, Run.run_bind]
    cases n with
    | zero => rfl
    | succ n =>
      rw [eval, resolve, itself]
      show (if (args.drop d.params.length).isEmpty then _ else _ : Run Value).run = none
      rw [thunk, List.length_nil, List.drop_zero, if_neg (by simpa using given)]
      exact call_self_eq_none thunk body itself room site given n _

theorem not_evaluates_invoke_self {w : Workspace} {d : Definition} {name : String} {env : Env} (thunk : d.params = [])
    (body : w.body? d = some (.functionRef name env)) (itself : w.lookup env name = some (.function d)) {f : String}
    {here : Env} (bound : w.lookup here f = some (.function d)) {ctx : Context} (room : ctx.depth < ctx.maxCallDepth)
    (v : Value) (site : String) (frame : Frame) (r : Except EvalError Value) :
    ¬ Evaluates w (.invoke f site here [.constant v]) frame ctx r := by
  rintro ⟨n, h⟩
  rcases n with _ | _ | _ | n
  · cases h
  · rw [eval, resolve, bound] at h
    cases h
  · rw [eval, resolve, bound] at h
    cases h
  · rw [eval, resolve, bound] at h
    have never := call_self_eq_none thunk body itself room site (List.cons_ne_nil v []) (n + 1) (frame.truncate (d.depth - 1))
    cases never.symm.trans h

end ChainCalc
