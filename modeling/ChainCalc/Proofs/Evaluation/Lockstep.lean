import ChainCalc.Proofs.Table
import ChainCalc.Runtime
import Mathlib.Data.List.Forall2
/-!
# Evaluations side by side

A comparison says how the ends of two runs compare if their results do, and is kept by going on (`Run.Comparison`).  A tandem
says which values, contexts and nodes stand for each other on two sides.  If nodes that stand for each other ask for the same
parts in the same order, and functions that do so are entered alike (the fields of `Tandem.Lawful`), then nodes that stand
for each other are evaluated, values applied and functions called so that the two runs compare, under every schedule
(`Tandem.Lawful.underSchedule`) and so also without a runtime, which is evaluation in order (`Tandem.Lawful.inStep`).

The second side is run with steps to spare: what it comes to with `k` steps more than the first is the `k`th of its runs.
-/
namespace ChainCalc

namespace Run

/-- **A way to compare two runs by their results**, which goes on from one step to the next. -/
structure Comparison where
  Holds : ∀ {α β : Type}, (α → β → Prop) → Run α → (Nat → Run β) → Prop
  stopped : ∀ {α β : Type} {R : α → β → Prop} {y : Nat → Run β}, y 0 = outOfSteps → Holds R outOfSteps y
  result : ∀ {α β : Type} {R : α → β → Prop} {a : α} {b : β}, R a b → Holds R (pure a) (fun _ => pure b)
  bind : ∀ {α β γ δ : Type} {R : α → β → Prop} {S : γ → δ → Prop} {x : Run α} {y : Nat → Run β} {f : α → Run γ}
    {g : Nat → β → Run δ}, Holds R x y → (∀ a b, R a b → Holds S (f a) (fun k => g k b)) →
    Holds S (x >>= f) (fun k => y k >>= g k)

namespace Comparison

variable {α β γ δ : Type} {R : γ → δ → Prop} (C : Comparison)

theorem mapM {f : α → Run γ} {g : Nat → β → Run δ} {as : List α} {bs : List β}
    (h : List.Forall₂ (fun a b => C.Holds R (f a) (fun k => g k b)) as bs) :
    C.Holds (List.Forall₂ R) (as.mapM f) (fun k => bs.mapM (g k)) := by
  induction h with
  | nil =>
    simp only [List.mapM_nil]
    exact C.result .nil
  | cons head _ ih =>
    simp only [List.mapM_cons]
    exact C.bind head (fun _ _ hcd => C.bind ih (fun _ _ hrest => C.result (.cons hcd hrest)))

theorem together {xs : List (Run γ)} {ys : List (Nat → Run δ)} (h : List.Forall₂ (C.Holds R) xs ys) :
    C.Holds (List.Forall₂ R) (xs.mapM id) (fun k => (ys.map (· k)).mapM id) := by
  simp only [List.mapM_map]
  exact C.mapM h

theorem ahead {xs : List (Run γ)} {ys : List (Nat → Run δ)} (h : List.Forall₂ (C.Holds R) xs ys) (i : Nat) :
    C.Holds (fun _ _ => True) (Run.ahead xs i) (fun k => Run.ahead (ys.map (· k)) i) := by
  have found := optionRel_getElem? h i
  unfold Run.ahead
  simp only [List.getElem?_map]
  generalize xs[i]? = x at found ⊢
  generalize ys[i]? = y at found ⊢
  cases found with
  | none => exact C.result trivial
  | some hxy => exact C.bind hxy (fun _ _ _ => C.result trivial)

theorem foldlM {f : γ → α → Run γ} {g : Nat → δ → β → Run δ} {as : List α} {bs : List β}
    (h : List.Forall₂ (fun a b => ∀ c d, R c d → C.Holds R (f c a) (fun k => g k d b)) as bs) :
    ∀ {c : γ} {d : δ}, R c d → C.Holds R (as.foldlM f c) (fun k => bs.foldlM (g k) d) := by
  induction h with
  | nil =>
    intro c d hcd
    simp only [List.foldlM_nil]
    exact C.result hcd
  | cons head _ ih =>
    intro c d hcd
    simp only [List.foldlM_cons]
    exact C.bind (head c d hcd) (fun _ _ h => ih h)

end Comparison

end Run

open Run

/-! ### Evaluation in order -/

/-- The first of several runs is ahead of the others anyway. -/
theorem Run.ahead_zero_bind {α β : Type} (x : Run α) (xs : List (Run α)) (f : α → Run β) :
    (Run.ahead (x :: xs) 0 >>= fun _ => x >>= f) = x >>= f := by
  show ((x >>= fun _ => pure ()) >>= fun _ => x >>= f) = x >>= f
  rw [bind_assoc]
  apply ExceptT.ext
  simp only [pure_bind, ExceptT.run_bind]
  cases x.run with
  | none => rfl
  | some r => cases r <;> rfl

theorem Run.ahead_zero_mapM {α β γ : Type} (g : α → Run β) (as : List α) (f : List β → Run γ) :
    (Run.ahead (as.map g) 0 >>= fun _ => as.mapM g >>= f) = as.mapM g >>= f := by
  cases as with
  | nil => rfl
  | cons a as =>
    rw [List.mapM_cons, bind_assoc]
    exact Run.ahead_zero_bind (g a) (as.map g) _

namespace Schedule

theorem parts_inOrder (run : Schedule → Node → Run Value) (first : Nat) (nodes : List Node) :
    inOrder.parts run first nodes = nodes.map (run inOrder) := by
  rw [← congrArg (List.map (run inOrder)) (List.zipIdx_map_fst first nodes), List.map_map]
  rfl

/-- **In order, evaluation under a schedule is evaluation without a runtime.** -/
theorem inOrder_eq (w : Workspace) : ∀ n : Nat,
    (∀ x frame ctx, inOrder.eval w n x frame ctx = ChainCalc.eval w n x frame ctx) ∧
    (∀ name v args ctx site, inOrder.applyTo w n name v args ctx site = ChainCalc.applyTo w n name v args ctx site) ∧
    (∀ f args ctx site, inOrder.call w n f args ctx site = ChainCalc.call w n f args ctx site)
  | 0 => ⟨fun _ _ _ => rfl, fun _ _ _ _ _ => rfl, fun _ _ _ _ => rfl⟩
  | n + 1 => by
    obtain ⟨ihe, iha, ihc⟩ := inOrder_eq w n
    -- every part of the schedule is the schedule, and the part that is ahead is evaluated first anyway
    have part : ∀ i, inOrder.part i = inOrder := fun _ => rfl
    have first : inOrder [] = 0 := rfl
    refine ⟨fun x frame ctx => ?_, fun name v args ctx site => ?_, fun f args ctx site => ?_⟩
    · cases x with
      | kernel name label operands compute =>
        simp only [Schedule.eval, ChainCalc.eval, parts_inOrder, first, List.mapM_map, Function.comp_def, id, ihe]
        exact Run.ahead_zero_mapM _ operands _
      | sequence label items => simp only [Schedule.eval, ChainCalc.eval, parts_inOrder, List.foldlM_map, ihe]
      | invoke name site env args =>
        simp only [Schedule.eval, ChainCalc.eval, parts_inOrder, part, first, Run.ahead_zero_bind, List.mapM_map,
          Function.comp_def, id, ihe, iha]
      | apply site callee args =>
        simp only [Schedule.eval, ChainCalc.eval, parts_inOrder, part, first, Run.ahead_zero_bind, List.mapM_map,
          Function.comp_def, id, ihe, iha]
      | conditional label condition yes no =>
        show (inOrder.part 0).eval w n condition frame ctx >>= _ = ChainCalc.eval w n condition frame ctx >>= _
        rw [part, ihe]
        refine bind_congr (fun v => ?_)
        cases v with
        | bool b =>
          cases b with
          | true => exact ihe yes frame ctx
          | false => exact ihe no frame ctx
        | _ => rfl
      | _ => simp only [Schedule.eval, ChainCalc.eval, part, ihe]
    · cases v with
      | function f => exact ihc f args ctx site
      | _ => rfl
    · unfold Schedule.call ChainCalc.call
      cases w.body? f.definition with
      | none => rfl
      | some body => simp only [part, ihe, iha]

theorem eval_inOrder (w : Workspace) (n : Nat) (x : Node) (frame : Frame) (ctx : Context) :
    inOrder.eval w n x frame ctx = ChainCalc.eval w n x frame ctx := (inOrder_eq w n).1 x frame ctx

theorem applyTo_inOrder (w : Workspace) (n : Nat) (name : String) (v : Value) (args : List Value) (ctx : Context)
    (site : String) : inOrder.applyTo w n name v args ctx site = ChainCalc.applyTo w n name v args ctx site :=
  (inOrder_eq w n).2.1 name v args ctx site

theorem call_inOrder (w : Workspace) (n : Nat) (f : Closure) (args : List Value) (ctx : Context) (site : String) :
    inOrder.call w n f args ctx site = ChainCalc.call w n f args ctx site := (inOrder_eq w n).2.2 f args ctx site

end Schedule

/-- **What stands for what on two sides**: values, contexts, nodes where they are evaluated, and the texts that calls are
known by. -/
structure Tandem where
  value : Value → Value → Prop
  context : Context → Context → Prop
  node : Node → Frame → Context → Node → Frame → Context → Prop
  text : String → String → Prop

namespace Tandem

section

variable (T : Tandem) (C : Comparison) (w w' : Workspace)

section

variable (frame : Frame) (ctx : Context) (frame' : Frame) (ctx' : Context)

/-- What a name stands for comes to the same: nodes that stand for each other, functions or arguments.  An argument on the
first side may have become something else on the second. -/
inductive Bound (name : String) : Binding → Binding → Prop
  | value {x x' : Node} (node : T.node x frame ctx x' frame' ctx') : Bound name (.value x) (.value x')
  | function {d d' : Definition} (closed : T.value (close d frame) (close d' frame')) :
      Bound name (.function d) (.function d')
  | param {depth index depth' index' : Nat} (argument : C.Holds T.value (argument name depth index frame ctx)
      (fun _ => argument name depth' index' frame' ctx')) : Bound name (.param depth index) (.param depth' index')
  | become {depth index : Nat} {x' : Node} (argument : ∀ (s : Schedule) (n : Nat),
      C.Holds T.value (argument name depth index frame ctx) (fun k => s.eval w' (n + k) x' frame' ctx')) :
      Bound name (.param depth index) (.value x')

/-- **Two nodes that go abreast**: they ask for parts that stand for each other, in the same order, and do the same with what
these come to.  Nodes that ask for no parts are compared as a whole. -/
inductive Abreast : Node → Node → Prop
  | leaf {x x' : Node} (holds : ∀ (s : Schedule) (n : Nat), C.Holds T.value (s.eval w (n + 1) x frame ctx)
      (fun k => s.eval w' (n + k + 1) x' frame' ctx')) : Abreast x x'
  | kernel {name name' label label' : String} {xs xs' : List Node} {f f' : Kernel}
      (operands : List.Forall₂ (fun x x' => T.node x frame ctx x' frame' ctx') xs xs') (text : T.text name name')
      (compute : ∀ vs vs', List.Forall₂ T.value vs vs' → Concur T.value (f vs) (f' vs')) :
      Abreast (.kernel name label xs f) (.kernel name' label' xs' f')
  | conditional {label label' : String} {c c' y y' n n' : Node} (condition : T.node c frame ctx c' frame' ctx')
      (yes : T.node y frame ctx y' frame' ctx') (no : T.node n frame ctx n' frame' ctx') :
      Abreast (.conditional label c y n) (.conditional label' c' y' n')
  | sequence {label label' : String} {xs xs' : List Node}
      (items : List.Forall₂ (fun x x' => T.node x frame ctx x' frame' ctx') xs xs') :
      Abreast (.sequence label xs) (.sequence label' xs')
  | functionRef {name : String} {env env' : Env}
      (bound : Option.Rel (T.Bound C w' frame ctx frame' ctx' name) (w.lookup env name) (w'.lookup env' name)) :
      Abreast (.functionRef name env) (.functionRef name env')
  | invoke {name site site' : String} {env env' : Env} {xs xs' : List Node}
      (bound : Option.Rel (T.Bound C w' frame ctx frame' ctx' name) (w.lookup env name) (w'.lookup env' name))
      (args : List.Forall₂ (fun x x' => T.node x frame ctx x' frame' ctx') xs xs') (called : T.text site site') :
      Abreast (.invoke name site env xs) (.invoke name site' env' xs')
  | apply {site site' : String} {x x' : Node} {xs xs' : List Node} (callee : T.node x frame ctx x' frame' ctx')
      (text : T.text x.name x'.name) (args : List.Forall₂ (fun x x' => T.node x frame ctx x' frame' ctx') xs xs')
      (called : T.text site site') : Abreast (.apply site x xs) (.apply site' x' xs')
  | worker {query : WorkerQuery} {label label' : String} : Abreast (.worker query label) (.worker query label')
  | fetch {label label' : String} {x x' : Node} (key : T.node x frame ctx x' frame' ctx')
      (store : Option.Rel (fun s s' : Store => ∀ key, Option.Rel T.value (s.get? key) (s'.get? key)) ctx.store ctx'.store) :
      Abreast (.fetch label x) (.fetch label' x')

end

/-- **Two functions that are entered alike**, once they have arguments enough. -/
structure Entered (f f' : Closure) : Prop where
  text : T.text f.definition.name f'.definition.name
  arity : f'.definition.params.length = f.definition.params.length
  applied : List.Forall₂ T.value f.applied f'.applied
  waiting : ∀ vs vs', List.Forall₂ T.value vs vs' →
    T.value (.function { f with applied := vs }) (.function { f' with applied := vs' })
  body : ∀ vs vs', List.Forall₂ T.value vs vs' →
    Option.Rel (fun x x' => ∀ inner inner', T.context inner inner' →
      T.node x (Frame.enter f.captured f.definition.depth vs) inner x' (Frame.enter f'.captured f'.definition.depth vs') inner')
      (w.body? f.definition) (w'.body? f'.definition)

/-- **What makes two sides go in step.** -/
structure Lawful : Prop where
  shape : ∀ {v v'}, T.value v v' → (v' = v ∧ v.asFunction? = none) ∨ ∃ f f', v = .function f ∧ v' = .function f'
  plain : ∀ {v : Value}, v.asFunction? = none → T.value v v
  text : ∀ s, T.text s s
  fail : ∀ {ctx ctx' p p'}, T.context ctx ctx' → T.text p p' → ∀ fault,
    C.Holds T.value (Run.fail ctx p fault) (fun _ => Run.fail ctx' p' fault)
  push : ∀ {ctx ctx' name name' site site'}, T.context ctx ctx' → T.text name name' → T.text site site' →
    C.Holds T.context (Run.ofExcept (ctx.push name site)) (fun _ => Run.ofExcept (ctx'.push name' site'))
  locality : ∀ {ctx ctx'}, T.context ctx ctx' → ctx'.locality = ctx.locality
  context : ∀ {x frame ctx x' frame' ctx'}, T.node x frame ctx x' frame' ctx' → T.context ctx ctx'
  node : ∀ {x frame ctx x' frame' ctx'}, T.node x frame ctx x' frame' ctx' → T.Abreast C w w' frame ctx frame' ctx' x x'
  call : ∀ {f f'}, T.value (.function f) (.function f') → T.Entered w w' f f'

end

theorem shape_refl (v : Value) : (v = v ∧ v.asFunction? = none) ∨ ∃ f f', v = .function f ∧ v = .function f' := by
  cases v with
  | function f => exact .inr ⟨f, f, rfl, rfl⟩
  | _ => exact .inl ⟨rfl, rfl⟩

/-- What is said of runs in `n` steps under a schedule, and `k` more on the second side. -/
structure UnderSchedule (T : Tandem) (C : Comparison) (w w' : Workspace) (n : Nat) : Prop where
  node : ∀ (s : Schedule) {x frame ctx x' frame' ctx'}, T.node x frame ctx x' frame' ctx' →
    C.Holds T.value (s.eval w n x frame ctx) (fun k => s.eval w' (n + k) x' frame' ctx')
  apply : ∀ (s : Schedule) {v v' args args' ctx ctx' name name' site site'}, T.value v v' →
    List.Forall₂ T.value args args' → T.context ctx ctx' → T.text name name' → T.text site site' →
    C.Holds T.value (s.applyTo w n name v args ctx site) (fun k => s.applyTo w' (n + k) name' v' args' ctx' site')
  call : ∀ (s : Schedule) {f f' args args' ctx ctx' site site'}, T.value (.function f) (.function f') →
    List.Forall₂ T.value args args' → T.context ctx ctx' → T.text site site' →
    C.Holds T.value (s.call w n f args ctx site) (fun k => s.call w' (n + k) f' args' ctx' site')

structure InStep (T : Tandem) (C : Comparison) (w w' : Workspace) (n : Nat) : Prop where
  node : ∀ {x frame ctx x' frame' ctx'}, T.node x frame ctx x' frame' ctx' →
    C.Holds T.value (eval w n x frame ctx) (fun k => eval w' (n + k) x' frame' ctx')
  apply : ∀ {v v' args args' ctx ctx' name name' site site'}, T.value v v' → List.Forall₂ T.value args args' →
    T.context ctx ctx' → T.text name name' → T.text site site' →
    C.Holds T.value (applyTo w n name v args ctx site) (fun k => applyTo w' (n + k) name' v' args' ctx' site')
  call : ∀ {f f' args args' ctx ctx' site site'}, T.value (.function f) (.function f') → List.Forall₂ T.value args args' →
    T.context ctx ctx' → T.text site site' →
    C.Holds T.value (ChainCalc.call w n f args ctx site) (fun k => ChainCalc.call w' (n + k) f' args' ctx' site')

theorem UnderSchedule.parts {T : Tandem} {C : Comparison} {w w' : Workspace} {n : Nat} (step : T.UnderSchedule C w w' n)
    (s : Schedule) {frame frame' : Frame} {ctx ctx' : Context} {xs xs' : List Node}
    (h : List.Forall₂ (fun x x' => T.node x frame ctx x' frame' ctx') xs xs') : ∀ first : Nat,
    ∃ ys : List (Nat → Run Value), List.Forall₂ (C.Holds T.value) (s.parts (fun s x => s.eval w n x frame ctx) first xs) ys ∧
      ∀ k, s.parts (fun s x => s.eval w' (n + k) x frame' ctx') first xs' = ys.map (· k) := by
  induction h with
  | nil => exact fun _ => ⟨[], .nil, fun _ => rfl⟩
  | @cons x x' xs xs' head _ tail =>
    intro first
    obtain ⟨ys, holds, same⟩ := tail (first + 1)
    exact ⟨_ :: ys, .cons (step.node (s.part first) head) holds, fun k => congrArg (_ :: ·) (same k)⟩

theorem argument_holds {T : Tandem} {C : Comparison} {frame frame' : Frame} {ctx ctx' : Context} {name name' : String}
    {depth index : Nat} (fail : ∀ fault, C.Holds T.value (Run.fail ctx name fault) (fun _ => Run.fail ctx' name' fault))
    (found : Option.Rel T.value (frame.arg? depth index) (frame'.arg? depth index)) :
    C.Holds T.value (argument name depth index frame ctx) (fun _ => argument name' depth index frame' ctx') := by
  unfold argument
  generalize frame.arg? depth index = v at found ⊢
  generalize frame'.arg? depth index = v' at found ⊢
  cases found with
  | some hv => exact C.result hv
  | none => exact fail _

namespace Lawful

variable {T : Tandem} {C : Comparison} {w w' : Workspace} (laws : T.Lawful C w w') {n : Nat}

include laws

section

variable {frame frame' : Frame} {ctx ctx' : Context} (hctx : T.context ctx ctx')

include hctx

theorem ofKernel {name name' : String} (text : T.text name name') {r r' : Except Fault Value} (h : Concur T.value r r') :
    C.Holds T.value (Run.ofKernel ctx name r) (fun _ => Run.ofKernel ctx' name' r') := by
  cases h with
  | ok hv => exact C.result hv
  | error fault => exact laws.fail hctx text fault

theorem answer (query : WorkerQuery) : T.value (query.answer ctx) (query.answer ctx') := by
  unfold WorkerQuery.answer
  rw [laws.locality hctx]
  cases query with
  | id => exact laws.plain rfl
  | count => exact laws.plain rfl

theorem fetchFrom {v v' : Value} (hv : T.value v v')
    (store : Option.Rel (fun s s' : Store => ∀ key, Option.Rel T.value (s.get? key) (s'.get? key)) ctx.store ctx'.store) :
    C.Holds T.value (fetchFrom ctx v) (fun _ => ChainCalc.fetchFrom ctx' v') := by
  have fail := laws.fail hctx (laws.text "fetch")
  obtain ⟨rfl, -⟩ | ⟨f, f', rfl, rfl⟩ := laws.shape hv
  · cases v' with
    | str key =>
      unfold ChainCalc.fetchFrom
      generalize ctx.store = s at store ⊢
      generalize ctx'.store = s' at store ⊢
      cases store with
      | none => exact fail _
      | @some s s' same =>
        have found := same key
        dsimp only
        generalize s.get? key = u at found ⊢
        generalize s'.get? key = u' at found ⊢
        cases found with
        | some hu => exact C.result hu
        | none => exact fail _
    | _ => exact fail _
  · exact fail _

/-- **What a name stands for.** -/
theorem resolve {name : String} {env env' : Env}
    (bound : Option.Rel (T.Bound C w' frame ctx frame' ctx' name) (w.lookup env name) (w'.lookup env' name))
    (s : Schedule) (step : ∀ {x x'}, T.node x frame ctx x' frame' ctx' →
      C.Holds T.value (s.eval w n x frame ctx) (fun k => s.eval w' (n + k) x' frame' ctx')) :
    C.Holds T.value (resolve w (fun x => s.eval w n x frame ctx) name env frame ctx)
      (fun k => ChainCalc.resolve w' (fun x => s.eval w' (n + k) x frame' ctx') name env' frame' ctx') := by
  unfold ChainCalc.resolve
  generalize w.lookup env name = b at bound ⊢
  generalize w'.lookup env' name = b' at bound ⊢
  cases bound with
  | none => exact laws.fail hctx (laws.text name) (.unbound name)
  | some h =>
    cases h with
    | value node => exact step node
    | function closed => exact C.result closed
    | param argument => exact argument
    | become argument => exact argument s n

/-- **One step of two nodes that go abreast.** -/
theorem eval_succ (ih : T.UnderSchedule C w w' n) (s : Schedule) {x x' : Node}
    (abreast : T.Abreast C w w' frame ctx frame' ctx' x x') :
    C.Holds T.value (s.eval w (n + 1) x frame ctx) (fun k => s.eval w' (n + k + 1) x' frame' ctx') := by
  -- what is called and its arguments, one of them ahead of the others, and then the application
  have applied : ∀ {callee : Run Value} {callee' : Nat → Run Value} {xs xs' : List Node} {name name' site site' : String},
      C.Holds T.value callee callee' → List.Forall₂ (fun x x' => T.node x frame ctx x' frame' ctx') xs xs' →
      T.text name name' → T.text site site' →
      C.Holds T.value (do
        Run.ahead (callee :: s.parts (fun s x => s.eval w n x frame ctx) 1 xs) (s [])
        let f ← callee
        let values ← (s.parts (fun s x => s.eval w n x frame ctx) 1 xs).mapM id
        (s.part (xs.length + 1)).applyTo w n name f values ctx site) (fun k => do
        Run.ahead (callee' k :: s.parts (fun s x => s.eval w' (n + k) x frame' ctx') 1 xs') (s [])
        let f ← callee' k
        let values ← (s.parts (fun s x => s.eval w' (n + k) x frame' ctx') 1 xs').mapM id
        (s.part (xs'.length + 1)).applyTo w' (n + k) name' f values ctx' site') := by
    intro callee callee' xs xs' name name' site site' hcallee args text called
    obtain ⟨ys, holds, same⟩ := ih.parts s args 1
    simp only [same, ← args.length_eq]
    refine C.bind (C.ahead (.cons hcallee holds) _) (fun _ _ _ => C.bind hcallee (fun f f' hf => ?_))
    exact C.bind (C.together holds) (fun vs vs' hvs => ih.apply _ hf hvs hctx text called)
  cases abreast with
  | leaf holds => exact holds s n
  | kernel operands text compute =>
    obtain ⟨ys, holds, same⟩ := ih.parts s operands 0
    simp only [Schedule.eval, same]
    refine C.bind (C.ahead holds _) (fun _ _ _ => C.bind (C.together holds) (fun vs vs' hvs => ?_))
    exact laws.ofKernel hctx text (compute vs vs' hvs)
  | conditional condition yes no =>
    refine C.bind (ih.node _ condition) (fun v v' hv => ?_)
    have fail := laws.fail hctx (laws.text "if")
    obtain ⟨rfl, -⟩ | ⟨f, f', rfl, rfl⟩ := laws.shape hv
    · cases v' with
      | bool b =>
        cases b with
        | true => exact ih.node _ yes
        | false => exact ih.node _ no
      | _ => exact fail _
    · exact fail _
  | sequence items =>
    obtain ⟨ys, holds, same⟩ := ih.parts s items 0
    simp only [Schedule.eval, same, List.foldlM_map]
    exact C.foldlM (holds.imp (fun _ _ hx _ _ _ => hx)) (laws.plain rfl)
  | functionRef bound => exact laws.resolve hctx bound _ (ih.node _)
  | @invoke name _ _ _ _ _ _ bound args called =>
    exact applied (laws.resolve hctx bound _ (ih.node _)) args (laws.text name) called
  | apply callee text args called => exact applied (ih.node _ callee) args text called
  | @worker query _ _ => exact C.result (laws.answer hctx query)
  | fetch key store => exact C.bind (ih.node _ key) (fun v v' hv => laws.fetchFrom hctx hv store)

theorem applyTo_succ (ih : T.UnderSchedule C w w' n) (s : Schedule) {v v' : Value} {args args' : List Value}
    {name name' site site' : String} (hv : T.value v v') (hargs : List.Forall₂ T.value args args')
    (text : T.text name name') (called : T.text site site') :
    C.Holds T.value (s.applyTo w (n + 1) name v args ctx site)
      (fun k => s.applyTo w' (n + k + 1) name' v' args' ctx' site') := by
  have fail := laws.fail hctx text
  obtain ⟨rfl, plain⟩ | ⟨f, f', rfl, rfl⟩ := laws.shape hv
  · cases v' with
    | function f => cases plain
    | _ => exact fail _
  · exact ih.call s hv hargs hctx called

/-- **One call**: with too few arguments both functions wait for more; else their bodies are evaluated, and what is left goes
to what they return. -/
theorem call_succ (ih : T.UnderSchedule C w w' n) (s : Schedule) {f f' : Closure} {args args' : List Value}
    {site site' : String} (hf : T.value (.function f) (.function f')) (hargs : List.Forall₂ T.value args args')
    (called : T.text site site') :
    C.Holds T.value (s.call w (n + 1) f args ctx site) (fun k => s.call w' (n + k + 1) f' args' ctx' site') := by
  obtain ⟨text, arity, applied, waiting, body⟩ := laws.call hf
  have all := List.rel_append applied hargs
  simp only [Schedule.call]
  rw [arity, ← all.length_eq]
  by_cases few : (f.applied ++ args).length < f.definition.params.length
  · simp only [if_pos few]
    exact C.result (waiting _ _ all)
  · simp only [if_neg few]
    have found := body _ _ (List.forall₂_take f.definition.params.length all)
    have rest := List.forall₂_drop f.definition.params.length all
    generalize w.body? f.definition = b at found ⊢
    generalize w'.body? f'.definition = b' at found ⊢
    cases found with
    | none => exact laws.fail hctx text _
    | some enter =>
      refine C.bind (laws.push hctx text called) (fun inner inner' hinner => ?_)
      refine C.bind (ih.node _ (enter _ _ hinner)) (fun v v' hv => ?_)
      rw [isEmpty_eq_of_forall₂ rest]
      split
      · exact C.result hv
      · exact ih.apply _ hv rest hctx text called

end

/-- **What stands for each other goes in step under every schedule**: nodes, applications and calls, by induction on the
number of steps. -/
theorem underSchedule : ∀ n : Nat, T.UnderSchedule C w w' n
  | 0 => by
    constructor
    · intros
      exact C.stopped rfl
    · intros
      exact C.stopped rfl
    · intros
      exact C.stopped rfl
  | n + 1 => by
    have more : ∀ k, n + 1 + k = n + k + 1 := fun k => Nat.add_right_comm n 1 k
    have ih := underSchedule n
    constructor
    · intro s x frame ctx x' frame' ctx' hx
      simp only [more]
      exact laws.eval_succ (laws.context hx) ih s (laws.node hx)
    · intro s v v' args args' ctx ctx' name name' site site' hv hargs hctx text called
      simp only [more]
      exact laws.applyTo_succ hctx ih s hv hargs text called
    · intro s f f' args args' ctx ctx' site site' hf hargs hctx called
      simp only [more]
      exact laws.call_succ hctx ih s hf hargs called

/-- **What stands for each other goes in step.** -/
theorem inStep (n : Nat) : T.InStep C w w' n := by
  have step := laws.underSchedule n
  constructor
  · intro x frame ctx x' frame' ctx' hx
    simpa only [Schedule.eval_inOrder] using step.node .inOrder hx
  · intro v v' args args' ctx ctx' name name' site site' hv hargs hctx text called
    simpa only [Schedule.applyTo_inOrder] using step.apply .inOrder hv hargs hctx text called
  · intro f f' args args' ctx ctx' site site' hf hargs hctx called
    simpa only [Schedule.call_inOrder] using step.call .inOrder hf hargs hctx called

end Lawful

end Tandem

end ChainCalc
