import ChainCalc.Proofs.Addressing.History
/-!
# What schedules decide

A schedule decides which failure is heard of, and nothing else.  Under every schedule a node has the value that it has
without a runtime, or none (`Schedule.eval_eq_ok`), and so has a source text, which leaves the same workspace behind
(`Engine.runUnder_eq_ok`).
-/
namespace ChainCalc

namespace Run

variable {α β : Type}

/-- Two runs have the same results; where one of them has none, neither has the other. -/
def Alike (x y : Run α) : Prop := ∀ a, x.run = some (.ok a) ↔ y.run = some (.ok a)

theorem Alike.refl (x : Run α) : Alike x x := fun _ => .rfl

theorem Alike.bind {x y : Run α} {f g : α → Run β} (h : Alike x y) (h' : ∀ a, Alike (f a) (g a)) :
    Alike (x >>= f) (y >>= g) := by
  intro b
  rw [bind_eq_ok, bind_eq_ok]
  exact exists_congr (fun a => and_congr (h a) (h' a b))

/-- Whoever is ahead of runs that all have results makes no difference. -/
theorem alike_ahead {xs : List (Run α)} {y : Run β}
    (h : ∀ b, y.run = some (.ok b) → ∀ x ∈ xs, ∃ a, x.run = some (.ok a)) (i : Nat) :
    Alike (Run.ahead xs i >>= fun _ => y) y := by
  intro b
  rw [bind_eq_ok]
  constructor
  · rintro ⟨_, -, hy⟩
    exact hy
  · intro hy
    refine ⟨(), ?_, hy⟩
    unfold Run.ahead
    cases hx : xs[i]? with
    | none => rfl
    | some x =>
      obtain ⟨a, ha⟩ := h b hy x (List.mem_of_getElem? hx)
      exact bind_eq_ok.2 ⟨a, ha, rfl⟩

theorem results_of_mapM : ∀ {xs : List (Run α)} {as : List α}, (xs.mapM id).run = some (.ok as) →
    ∀ x ∈ xs, ∃ a, x.run = some (.ok a)
  | [], _, _ => fun _ hx => nomatch hx
  | x :: xs, _, h => by
    rw [List.mapM_cons, bind_eq_ok] at h
    obtain ⟨a, ha, hrest⟩ := h
    obtain ⟨as, has, -⟩ := bind_eq_ok.1 hrest
    exact List.forall_mem_cons.2 ⟨⟨a, ha⟩, results_of_mapM has⟩

end Run

open Run (Alike)

namespace Schedule

theorem parts_cons (s : Schedule) (run : Schedule → Node → Run Value) (first : Nat) (x : Node) (xs : List Node) :
    s.parts run first (x :: xs) = run (s.part first) x :: s.parts run (first + 1) xs := rfl

theorem alike_parts {run : Schedule → Node → Run Value} {f : Node → Run Value} (h : ∀ s x, Alike (run s x) (f x))
    (s : Schedule) : ∀ (xs : List Node) (first : Nat), Alike ((s.parts run first xs).mapM id) (xs.mapM f)
  | [], _ => .refl _
  | x :: xs, first => by
    rw [parts_cons, List.mapM_cons, List.mapM_cons]
    exact (h _ x).bind (fun _ => (alike_parts h s xs (first + 1)).bind (fun _ => .refl _))

theorem alike_items {run : Schedule → Node → Run Value} {f : Node → Run Value} (h : ∀ s x, Alike (run s x) (f x))
    (s : Schedule) : ∀ (xs : List Node) (first : Nat) (v : Value),
      Alike ((s.parts run first xs).foldlM (fun _ item => item) v) (xs.foldlM (fun _ x => f x) v)
  | [], _, _ => .refl _
  | x :: xs, first, v => by
    rw [parts_cons, List.foldlM_cons, List.foldlM_cons]
    exact (h _ x).bind (fun _ => alike_items h s xs (first + 1) _)

/-- What is called and its arguments: the one that is ahead has a result if all have. -/
theorem alike_application {callee callee' : Run Value} (hcallee : Alike callee callee') {args : List (Run Value)}
    {args' : Run (List Value)} (hargs : Alike (args.mapM id) args') {apply apply' : Value → List Value → Run Value}
    (happly : ∀ f values, Alike (apply f values) (apply' f values)) (i : Nat) :
    Alike (Run.ahead (callee :: args) i >>= fun _ => callee >>= fun f => args.mapM id >>= apply f)
      (callee' >>= fun f => args' >>= apply' f) := by
  have rest : Alike (callee >>= fun f => args.mapM id >>= apply f) (callee' >>= fun f => args' >>= apply' f) :=
    hcallee.bind (fun f => hargs.bind (happly f))
  refine fun b => (Run.alike_ahead (fun b hb => ?_) i b).trans (rest b)
  obtain ⟨f, hf, hb⟩ := Run.bind_eq_ok.1 hb
  obtain ⟨values, hvalues, -⟩ := Run.bind_eq_ok.1 hb
  exact List.forall_mem_cons.2 ⟨⟨f, hf⟩, Run.results_of_mapM hvalues⟩

/-- **A schedule changes no result**: of nodes, applications and calls, by induction on the number of steps. -/
theorem alike_inOrder (w : Workspace) : ∀ n : Nat,
    (∀ (s : Schedule) x frame ctx, Alike (s.eval w n x frame ctx) (ChainCalc.eval w n x frame ctx)) ∧
    (∀ (s : Schedule) name v args ctx site,
      Alike (s.applyTo w n name v args ctx site) (ChainCalc.applyTo w n name v args ctx site)) ∧
    (∀ (s : Schedule) f args ctx site, Alike (s.call w n f args ctx site) (ChainCalc.call w n f args ctx site))
  | 0 => ⟨fun _ _ _ _ => .refl _, fun _ _ _ _ _ _ => .refl _, fun _ _ _ _ _ => .refl _⟩
  | n + 1 => by
    obtain ⟨ihe, iha, ihc⟩ := alike_inOrder w n
    have resolved : ∀ (s : Schedule) name env frame ctx, Alike (resolve w (fun x => s.eval w n x frame ctx) name env frame ctx)
        (resolve w (fun x => ChainCalc.eval w n x frame ctx) name env frame ctx) := by
      intro s name env frame ctx
      unfold resolve
      split
      · exact .refl _
      · exact ihe s _ frame ctx
      · exact .refl _
      · exact .refl _
    refine ⟨fun s x frame ctx => ?_, fun s name v args ctx site => ?_, fun s f args ctx site => ?_⟩
    · have parts := alike_parts (fun s x => ihe s x frame ctx) s
      cases x with
      | constant v => exact .refl _
      | param name depth index => exact .refl _
      | kernel name label operands compute =>
        refine fun b => (Run.alike_ahead (fun b hb => ?_) _ b).trans ((parts operands 0).bind (fun _ => .refl _) b)
        obtain ⟨values, hvalues, -⟩ := Run.bind_eq_ok.1 hb
        exact Run.results_of_mapM hvalues
      | conditional label condition yes no =>
        refine (ihe _ condition frame ctx).bind (fun v => ?_)
        cases v with
        | bool b =>
          cases b with
          | true => exact ihe _ yes frame ctx
          | false => exact ihe _ no frame ctx
        | _ => exact .refl _
      | sequence label items => exact alike_items (fun s x => ihe s x frame ctx) s items 0 .nil
      | lambda d body => exact .refl _
      | functionRef name env => exact resolved _ name env frame ctx
      | invoke name site env args =>
        exact alike_application (resolved _ name env frame ctx) (parts args 1) (fun f values => iha _ name f values ctx site) _
      | apply site callee args =>
        exact alike_application (ihe _ callee frame ctx) (parts args 1) (fun f values => iha _ callee.name f values ctx site) _
      | worker query label => exact .refl _
      | fetch label key => exact (ihe _ key frame ctx).bind (fun _ => .refl _)
    · cases v with
      | function f => exact ihc s f args ctx site
      | _ => exact .refl _
    · simp only [Schedule.call, ChainCalc.call]
      split
      · exact .refl _
      · cases w.body? f.definition with
        | none => exact .refl _
        | some body =>
          refine (Alike.refl _).bind (fun inner => (ihe _ _ _ inner).bind (fun v => ?_))
          split
          · exact .refl _
          · exact iha _ _ v _ ctx site

/-- **A node has the same value under every schedule**, or under none. -/
theorem eval_eq_ok {w : Workspace} {n : Nat} (s : Schedule) {x : Node} {frame : Frame} {ctx : Context} {v : Value} :
    (s.eval w n x frame ctx).run = some (.ok v) ↔ (ChainCalc.eval w n x frame ctx).run = some (.ok v) :=
  (alike_inOrder w n).1 s x frame ctx v

theorem call_eq_ok {w : Workspace} {n : Nat} (s : Schedule) {f : Closure} {args : List Value} {ctx : Context} {site : String}
    {v : Value} : (s.call w n f args ctx site).run = some (.ok v) ↔ (ChainCalc.call w n f args ctx site).run = some (.ok v) :=
  (alike_inOrder w n).2.2 s f args ctx site v

end Schedule

/-! ### Engines on a runtime -/

namespace Engine

variable {e : Engine} {n : Nat} {w w' : Workspace}

theorem run_callUnder (s : Schedule) (f : Closure) (args : List Value) (site : String) :
    (e.callUnder s n f args site).run w = match (s.call w n f args (e.context w) site).run with
      | none => none
      | some (.error error) => some (.error (Failure.eval error), w)
      | some (.ok v) => some (.ok v, w) := rfl

theorem run_runUnder (s : Schedule) (source : String) :
    (e.runUnder s n source).run w = match (e.compile n source).run w with
      | none => none
      | some (.error failure, w₁) => some (.error failure, w₁)
      | some (.ok main, w₁) => (e.callUnder s n main [] main.definition.name).run w₁ := run_compile_bind source _

theorem eq_of_callUnder {s : Schedule} {f : Closure} {args : List Value} {site : String} {r : Except Failure Value}
    (h : (e.callUnder s n f args site).run w = some (r, w')) : w' = w := by
  rw [run_callUnder] at h
  split at h
  · cases h
  · cases h
    rfl
  · cases h
    rfl

theorem callUnder_inOrder (e : Engine) (n : Nat) (f : Closure) (args : List Value) (site : String) :
    e.callUnder .inOrder n f args site = e.callAt n f args site := by
  unfold callUnder callAt
  simp only [Schedule.call_inOrder]

theorem run_callUnder_eq_ok {s : Schedule} {f : Closure} {args : List Value} {site : String} {v : Value} :
    (e.callUnder s n f args site).run w = some (.ok v, w') ↔
      w = w' ∧ (s.call w n f args (e.context w) site).run = some (.ok v) := by
  rw [run_callUnder]
  cases (s.call w n f args (e.context w) site).run with
  | none => simp
  | some r => cases r <;> simp [and_comm]

theorem callUnder_eq_ok (s : Schedule) {f : Closure} {args : List Value} {site : String} {v : Value} :
    (e.callUnder s n f args site).run w = some (.ok v, w') ↔ (e.callAt n f args site).run w = some (.ok v, w') := by
  rw [← callUnder_inOrder, run_callUnder_eq_ok, run_callUnder_eq_ok, Schedule.call_eq_ok, Schedule.call_inOrder]

/-- **A source text runs to the same value under every schedule**, and leaves the same workspace behind. -/
theorem runUnder_eq_ok (s : Schedule) {source : String} {v : Value} :
    (e.runUnder s n source).run w = some (.ok v, w') ↔ (e.run n source).run w = some (.ok v, w') := by
  rw [run_runUnder, run_run]
  cases (e.compile n source).run w with
  | none => exact .rfl
  | some p =>
    obtain ⟨r, w₁⟩ := p
    cases r with
    | error failure => exact .rfl
    | ok main => exact callUnder_eq_ok s

end Engine

/-- Which of two failures is heard of, a schedule says. -/
example :
    let e := Engine.new .standard {} {}
    let heard := fun s => match (e.1.runUnder s 20 "error('first') + error('second')").run e.2 with
      | some (.error failure, _) => some failure.text
      | _ => none
    heard .inOrder = some "Eval error: error: first" ∧ heard (fun _ => 1) = some "Eval error: error: second" := by
  decide +kernel

end ChainCalc
