import ChainCalc.Proofs.Inlining.Law
import ChainCalc.Proofs.Isolation.Evaluation
/-!
# Closures — what equal functions may differ in

A function value is a definition, what it captured and what it was given.  Comparing two of them looks at the definition and
at what was given, so equal functions may have captured different arguments, and a call shows the difference
(`equal_functions_are_told_apart`).

It shows no other: a function reads certain places around it (`Workspace.ReadsAround`), and functions of one definition that
captured the same in these places do the same, step by step, whatever else they captured (`lawful_twins`).  So equal functions
behave equally where they captured the same in the places they read, and wherever they stand inside no other function
(`equal_functions_behave_equally`).
-/
namespace ChainCalc

/-! ### The places that are read -/

namespace Workspace

mutual

/-- **The places that a node reads** among the activations that it is evaluated in: those of its parameters, those of what
its names stand for, and those around the functions that it makes. -/
inductive Reads (w : Workspace) (depth index : Nat) : Node → Prop
  | param (name : String) : Reads w depth index (.param name depth index)
  | child {node x : Node} (mem : x ∈ node.children) (reads : Reads w depth index x) : Reads w depth index node
  | mention {node x : Node} {name : String} {env : Env} (late : node.late? = some (name, env))
      (bound : w.lookup env name = some (.value x)) (reads : Reads w depth index x) : Reads w depth index node
  | argument {node : Node} {name : String} {env : Env} (late : node.late? = some (name, env))
      (bound : w.lookup env name = some (.param depth index)) : Reads w depth index node
  | function {node : Node} {name : String} {env : Env} {d : Definition} (late : node.late? = some (name, env))
      (bound : w.lookup env name = some (.function d)) (reads : ReadsAround w depth index d) : Reads w depth index node
  | lambda {d : Definition} {body : Option Node} (reads : ReadsAround w depth index d) : Reads w depth index (.lambda d body)

/-- **The places around a function that it reads**: those that its body reads, but for its own parameters. -/
inductive ReadsAround (w : Workspace) (depth index : Nat) : Definition → Prop
  | mk {d : Definition} {body : Node} (around : depth < d.depth) (known : w.body? d = some body)
      (reads : Reads w depth index body) : ReadsAround w depth index d

end

end Workspace

section

variable {G : World} {Q : Env → Node → Prop} {w : Workspace} {depth index : Nat}

mutual

theorem World.Ok.has_of_reads (ok : G.Ok Q (fun _ => False) w) : ∀ {L : Layout} {node : Node}, w.Reads depth index node →
    node.Addressed G w Q L → L.Has depth index
  | _, _, .param _, .mk _ has _ => has
  | _, _, .child mem reads, .mk _ _ children => ok.has_of_reads reads (children _ mem)
  | _, _, .mention late bound reads, addressed => by
    obtain ⟨live, layout, -⟩ := addressed.names late
    obtain ⟨env₀, -, layout₀, sound⟩ := ok.lookup live bound
    exact Layout.Has.mono (layout₀.trans layout) (ok.has_of_reads reads sound)
  | _, _, .argument late bound, addressed => by
    obtain ⟨live, layout, -⟩ := addressed.names late
    obtain ⟨env₀, -, layout₀, has⟩ := ok.lookup live bound
    exact Layout.Has.mono (layout₀.trans layout) has
  | _, _, .function late bound reads, addressed => by
    obtain ⟨live, layout, -⟩ := addressed.names late
    obtain ⟨env₀, -, layout₀, home⟩ := ok.lookup live bound
    exact Layout.Has.mono (layout₀.trans layout) (ok.has_of_readsAround reads home)
  | _, _, .lambda reads, .mk _ ⟨_, home, _, layout⟩ _ => Layout.Has.mono layout (ok.has_of_readsAround reads home)

/-- **What a function reads around it** is a place of the layout around it. -/
theorem World.Ok.has_of_readsAround (ok : G.Ok Q (fun _ => False) w) : ∀ {d : Definition} {env : Env},
    w.ReadsAround depth index d → G.home d env → (w.layout env.path).Has depth index
  | d, env, .mk around known reads, home => by
    obtain ⟨live, deep, -⟩ := ok.homes d env home
    obtain ⟨body, known', addressed⟩ := ok.bodies d env home id
    obtain rfl := Option.some.inj (known.symm.trans known')
    obtain ⟨k, m, rfl, found, below⟩ := ok.has_of_reads reads addressed
    -- the last place of the layout of the body is that of the function itself
    have inside : k < (w.layout env.path).length := by
      rw [ok.depth env live]
      omega
    rw [List.getElem?_append_left inside] at found
    exact ⟨k, m, rfl, found, below⟩

end

/-- **A function that stands inside no other reads nothing around it.** -/
theorem World.Ok.not_readsAround (ok : G.Ok Q (fun _ => False) w) {d : Definition} {env : Env} (home : G.home d env)
    (outermost : d.depth = 1) : ¬ w.ReadsAround depth index d := by
  intro reads
  obtain ⟨live, deep, -⟩ := ok.homes d env home
  obtain ⟨k, m, -, found, -⟩ := ok.has_of_readsAround reads home
  have inside := (List.getElem?_eq_some_iff.1 found).1
  rw [ok.depth env live] at inside
  omega

end

/-- **A tree that leads to no function** reads what the parameters in it say, and nothing else. -/
theorem Workspace.Reads.any {w : Workspace} {depth index : Nat} {p : Node → Bool}
    (hit : ∀ name, p (.param name depth index) = true) : ∀ {node : Node}, w.Reads depth index node →
      node.any Node.leads = false → node.any p ≠ false
  | _, .param name, _, clear => Bool.false_ne_true ((Node.any_eq_false.1 clear).1.symm.trans (hit name))
  | _, .child mem reads, quiet, clear =>
    reads.any hit ((Node.any_eq_false.1 quiet).2 _ mem) ((Node.any_eq_false.1 clear).2 _ mem)
  | node, .mention late _ _, quiet, _ | node, .argument late _, quiet, _ | node, .function late _ _, quiet, _ => by
    have leads := (Node.any_eq_false.1 quiet).1
    cases node <;> cases late <;> cases leads
  | _, .lambda _, quiet, _ => by cases (Node.any_eq_false.1 quiet).1

/-! ### Twins -/

/-- **Twins**: one value, or functions of one definition that were given twins and have captured twins in all places that they
read. -/
inductive Value.Twin (w : Workspace) : Value → Value → Prop
  | refl (v : Value) : Value.Twin w v v
  | function {d : Definition} {captured captured' : Frame} {applied applied' : List Value}
      (captures : ∀ depth index, w.ReadsAround depth index d →
        Option.Rel (Value.Twin w) (captured.arg? depth index) (captured'.arg? depth index))
      (given : List.Forall₂ (Value.Twin w) applied applied') :
      Value.Twin w (.function ⟨d, captured, applied⟩) (.function ⟨d, captured', applied'⟩)

def Node.SeesTwins (w : Workspace) (node : Node) (frame frame' : Frame) : Prop :=
  ∀ depth index, w.Reads depth index node → Option.Rel (Value.Twin w) (frame.arg? depth index) (frame'.arg? depth index)

section

variable {w : Workspace}

theorem Value.Twin.closure {f f' : Closure} (h : Value.Twin w (.function f) (.function f')) :
    f'.definition = f.definition ∧ (∀ depth index, w.ReadsAround depth index f.definition →
      Option.Rel (Value.Twin w) (Frame.arg? f.captured depth index) (Frame.arg? f'.captured depth index)) ∧
    List.Forall₂ (Value.Twin w) f.applied f'.applied := by
  cases h with
  | refl => exact ⟨rfl, fun _ _ _ => optionRel_refl .refl _, List.forall₂_same.2 (fun v _ => .refl v)⟩
  | function captures given => exact ⟨rfl, captures, given⟩

/-- **No computation sees which of two twins it is given.** -/
theorem Value.counterparts_twin (w : Workspace) : Counterparts (Value.Twin w) where
  shape {v v'} h := by
    cases h with
    | refl =>
      cases v with
      | function f => exact .inr ⟨f, f, rfl, rfl, rfl, rfl, List.forall₂_same.2 (fun v _ => .refl v)⟩
      | _ => exact .inl ⟨rfl, rfl⟩
    | function _ given => exact .inr ⟨_, _, rfl, rfl, rfl, rfl, given⟩
  apart h h' := by rw [h.closure.1, h'.closure.1]

/-! ### Frames of twins -/

/-- **A function made where it is mentioned** captures twins. -/
theorem twin_close {d : Definition} {frame frame' : Frame} (sees : ∀ depth index, w.ReadsAround depth index d →
    Option.Rel (Value.Twin w) (frame.arg? depth index) (frame'.arg? depth index)) :
    (close d frame).Twin w (close d frame') := by
  refine .function (fun depth index reads => ?_) .nil
  have ⟨around, _, _⟩ := reads
  rw [Frame.arg?_truncate (by omega), Frame.arg?_truncate (by omega)]
  exact sees depth index reads

/-- **A function entered** sees twins: among its own arguments, and in what it captured. -/
theorem seesTwins_enter {d : Definition} {body : Node} (known : w.body? d = some body) {captured captured' : Frame}
    (captures : ∀ depth index, w.ReadsAround depth index d →
      Option.Rel (Value.Twin w) (captured.arg? depth index) (captured'.arg? depth index)) {args args' : List Value}
    (given : List.Forall₂ (Value.Twin w) args args') :
    body.SeesTwins w (captured.enter d.depth args) (captured'.enter d.depth args') := by
  intro depth index reads
  unfold Frame.enter
  rcases Nat.lt_trichotomy depth d.depth with around | rfl | beyond
  · rw [Frame.arg?_cons_of_lt _ around, Frame.arg?_cons_of_lt _ around]
    exact captures depth index (.mk around known reads)
  · rw [Frame.arg?, Frame.arg?, if_pos rfl, if_pos rfl]
    exact optionRel_getElem? given index
  · have nowhere : ∀ (args : List Value) (outer : Frame), Frame.arg? (⟨d.depth, args⟩ :: outer) depth index = none :=
      fun args outer => by rw [Frame.arg?, if_neg (Nat.ne_of_lt beyond), if_pos beyond]
    rw [nowhere, nowhere]
    exact .none

end

/-! ### Nodes, applications and calls -/

def Workspace.twins (w : Workspace) : Tandem where
  value := Value.Twin w
  context := Eq
  node x frame ctx x' frame' ctx' :=
    x' = x ∧ ctx' = ctx ∧ x.Every Discipline.standard.node ∧ x.SeesTwins w frame frame'
  text := Eq

section

variable {w : Workspace} (holds : Discipline.standard.Holds w)

include holds

/-- **A node goes abreast with itself** among frames that hold twins in the places that it reads. -/
theorem abreast_twins {node : Node} {frame frame' : Frame} {ctx : Context} (every : node.Every Discipline.standard.node)
    (sees : node.SeesTwins w frame frame') : w.twins.Abreast .agrees w w frame ctx frame' ctx node node := by
  have here : ∀ x ∈ node.children, w.twins.node x frame ctx x frame' ctx :=
    fun x hx => ⟨rfl, rfl, every.children x hx, fun depth index reads => sees depth index (.child hx reads)⟩
  have all : ∀ {xs : List Node}, (∀ x ∈ xs, x ∈ node.children) →
      List.Forall₂ (fun x x' => w.twins.node x frame ctx x' frame' ctx) xs xs :=
    fun inside => List.forall₂_same.2 (fun x hx => here x (inside x hx))
  have argument : ∀ name {depth index}, Option.Rel (Value.Twin w) (frame.arg? depth index) (frame'.arg? depth index) →
      Run.Agrees (Value.Twin w) (argument name depth index frame ctx) (argument name depth index frame' ctx) :=
    fun name _ _ => Tandem.argument_holds (T := w.twins) (C := .agrees) (fun _ => Run.agrees_refl .refl _)
  have bound : ∀ {name env}, node.late? = some (name, env) →
      Option.Rel (w.twins.Bound .agrees w frame ctx frame' ctx name) (w.lookup env name) (w.lookup env name) := by
    intro name env late
    cases found : w.lookup env name with
    | none => exact .none
    | some b =>
      refine .some ?_
      cases b with
      | value x =>
        exact .value ⟨rfl, rfl, (holds.lookup_value found).imp (fun _ h => h.1),
          fun depth index reads => sees depth index (.mention late found reads)⟩
      | function d =>
        exact .function (twin_close (fun depth index reads => sees depth index (.function late found reads)))
      | param depth index => exact .param (argument name (sees depth index (.argument late found)))
  cases node with
  | constant v => exact .leaf (fun _ _ => Run.agrees_refl .refl _)
  | param name depth index => exact .leaf (fun _ _ => argument name (sees depth index (.param name)))
  | kernel name label operands compute =>
    refine .kernel (all (fun _ hx => hx)) rfl (fun vs vs' hvs => ?_)
    rw [Standard.same_of_isKernel (Value.counterparts_twin w).unseen every.here hvs]
    exact .refl .refl _
  | conditional label condition yes no =>
    exact .conditional (here condition (by simp [Node.children])) (here yes (by simp [Node.children]))
      (here no (by simp [Node.children]))
  | sequence label items => exact .sequence (all (fun _ hx => hx))
  | lambda d body =>
    exact .leaf (fun _ _ => Run.agrees_pure (twin_close (fun depth index reads => sees depth index (.lambda reads))))
  | functionRef name env => exact .functionRef (bound rfl)
  | invoke name site env args => exact .invoke (bound rfl) (all (fun _ hx => hx)) rfl
  | apply site callee args =>
    exact .apply (here callee List.mem_cons_self) rfl (all (fun _ hx => List.mem_cons_of_mem _ hx)) rfl
  | worker query label => exact .worker
  | fetch label key =>
    exact .fetch (here key List.mem_cons_self) (optionRel_refl (fun _ _ => optionRel_refl .refl _) _)

/-- **Twins are entered alike.** -/
theorem entered_twins {f f' : Closure} (twin : (Value.function f).Twin w (.function f')) : w.twins.Entered w w f f' := by
  obtain ⟨d, captured, applied⟩ := f
  obtain ⟨d', captured', applied'⟩ := f'
  obtain ⟨rfl, captures, given⟩ := twin.closure
  refine ⟨rfl, rfl, given, fun vs vs' hvs => .function captures hvs, fun vs vs' hvs => ?_⟩
  cases known : w.body? d' with
  | none => exact .none
  | some body =>
    refine .some (fun inner inner' same => ?_)
    cases (same : inner = inner')
    exact ⟨rfl, rfl, (holds.body known).imp (fun _ h => h.1), seesTwins_enter known captures hvs⟩

/-- **Twins go in step.** -/
theorem lawful_twins : w.twins.Lawful .agrees w w where
  shape h := ((Value.counterparts_twin w).shape h).imp_right (fun ⟨f, f', hv, hv', _⟩ => ⟨f, f', hv, hv'⟩)
  plain {v} _ := .refl v
  text _ := rfl
  fail hctx text fault := by
    cases hctx
    cases text
    exact Run.agrees_refl .refl _
  push hctx named called := by
    cases hctx
    cases named
    cases called
    exact Run.agrees_refl (fun _ => rfl) _
  locality hctx := by
    cases hctx
    rfl
  context h := h.2.1.symm
  node := by
    rintro _ _ _ _ _ _ ⟨rfl, rfl, every, sees⟩
    exact abreast_twins holds every sees
  call := entered_twins holds

end

/-! ### Two functions of a session -/

def Value.asInt? : Value → Option Int64
  | .int n => some n
  | _ => none

theorem Value.eq_of_asInt? {v : Value} {n : Int64} (h : v.asInt? = some n) : v = .int n := by
  cases v with
  | int m =>
    cases h
    rfl
  | _ => cases h

def Engine.functions? (e : Engine) (first second : String) (w : Workspace) : Option (Closure × Closure × Workspace) :=
  (e.compiled? first w).bind fun (main, w₁) => (e.called? main w₁).bind fun v => v.asFunction?.bind fun f =>
    (e.compiled? second w₁).bind fun (main', w₂) => (e.called? main' w₂).bind fun v' => v'.asFunction?.map fun g => (f, g, w₂)

theorem Engine.history_of_functions? {e : Engine} {first second : String} {w w' : Workspace} {f g : Closure} {es : List Engine}
    {vs : List Value} {log : List Event} (past : History w es vs log) (mem : e ∈ es)
    (h : e.functions? first second w = some (f, g, w')) :
    ∃ vs' log', History w' es vs' log' ∧ .function f ∈ vs' ∧ .function g ∈ vs' := by
  unfold functions? at h
  simp only [Option.bind_eq_some_iff, Option.map_eq_some_iff, Prod.exists, Prod.mk.injEq] at h
  obtain ⟨main, w₁, compiled, v, called, _, hf, main', _, compiled', v', called', _, hg, rfl, rfl, rfl⟩ := h
  obtain rfl := Value.eq_of_asFunction? hf
  obtain rfl := Value.eq_of_asFunction? hg
  obtain ⟨statements, read⟩ := parse_of_compile (compile_of_compiled? compiled)
  obtain ⟨statements', read'⟩ := parse_of_compile (compile_of_compiled? compiled')
  have past₁ := (past.compile mem read (compile_of_compiled? compiled)).call mem List.mem_cons_self (fun _ h => by cases h)
    (callAt_of_called? called)
  have past₂ := (past₁.compile mem read' (compile_of_compiled? compiled')).call mem List.mem_cons_self (fun _ h => by cases h)
    (callAt_of_called? called')
  exact ⟨_, _, past₂, List.mem_cons_of_mem _ (List.mem_cons_of_mem _ List.mem_cons_self), List.mem_cons_self⟩

/-! ### Equal functions -/

theorem Value.id_of_beq {f g : Closure} (equal : (Value.function f == Value.function g) = true) :
    f.definition.id = g.definition.id := by
  obtain ⟨d, captured, applied⟩ := f
  obtain ⟨e, captured', applied'⟩ := g
  change Value.beq _ _ = true at equal
  rw [Value.beq, Bool.and_eq_true, beq_iff_eq] at equal
  exact equal.1

/-- **Equal functions behave equally, but for what they captured.**  After every history, two functions that arise, are
equal and were given no arguments yet come to the same end when they are called with the same arguments, in every context
and in whatever number of steps, if they have captured the same wherever they read it; and without that condition if they
stand inside no other function. -/
theorem equal_functions_behave_equally {w : Workspace} {es : List Engine} {vs : List Value} {log : List Event}
    (past : History w es vs log) {f g : Closure} (hf : Arises w es vs (.function f)) (hg : Arises w es vs (.function g))
    (equal : (Value.function f == Value.function g) = true) (bare : f.applied = []) (bare' : g.applied = [])
    (captured : f.definition.depth = 1 ∨ ∀ depth index, w.ReadsAround depth index f.definition →
      Option.Rel (Value.Twin w) (Frame.arg? f.captured depth index) (Frame.arg? g.captured depth index))
    (n : Nat) (args : List Value) (ctx : Context) (site : String) :
    Run.Agrees (Value.Twin w) (call w n f args ctx site) (call w n g args ctx site) := by
  obtain ⟨G, serves⟩ := past.serves past.traced_true
  have homes : ∀ {f : Closure}, Arises w es vs (.function f) → ∃ env, G.home f.definition env := by
    rintro ⟨d, captured, applied⟩ arises
    exact (arises.sound serves).home (.self captured applied)
  obtain ⟨env, home⟩ := homes hf
  obtain ⟨env', home'⟩ := homes hg
  have same : f.definition = g.definition := (serves.ok.same _ _ _ _ home home' (Value.id_of_beq equal)).1
  have captures : ∀ depth index, w.ReadsAround depth index f.definition →
      Option.Rel (Value.Twin w) (Frame.arg? f.captured depth index) (Frame.arg? g.captured depth index) := by
    rcases captured with outermost | captures
    · exact fun depth index reads => absurd reads (serves.ok.not_readsAround home outermost)
    · exact captures
  have twin : (Value.function f).Twin w (.function g) := by
    obtain ⟨d, captured, applied⟩ := f
    obtain ⟨d', captured', applied'⟩ := g
    obtain rfl : d = d' := same
    obtain rfl : applied = [] := bare
    obtain rfl : applied' = [] := bare'
    exact .function captures .nil
  exact ((lawful_twins past.standard).inStep n).call twin (List.forall₂_same.2 (fun v _ => .refl v)) rfl rfl

/-- Two functions that have captured the same `x`, which they read, and different `z`, which they do not. -/
theorem equal_functions_behave_equally_unread :
    let e := (Engine.new .standard {} {}).1
    ∃ w vs log f g, History w [e] vs log ∧ .function f ∈ vs ∧ .function g ∈ vs ∧
      (Value.function f == Value.function g) = true ∧
      Frame.arg? f.captured 1 1 = some (.int 2) ∧ Frame.arg? g.captured 1 1 = some (.int 3) ∧
      ∀ n args ctx site, Run.Agrees (Value.Twin w) (call w n f args ctx site) (call w n g args ctx site) := by
  intro e
  have script : ((e.functions? "define(mk(x, z), lambda(y, x + y)); mk(1, 2)" "mk(1, 3)" (Engine.new .standard {} {}).2).any
      fun (f, g, w) => (Value.function f == Value.function g) && f.applied.isEmpty && g.applied.isEmpty &&
        (Frame.arg? f.captured 1 0).bind Value.asInt? == some 1 && (Frame.arg? g.captured 1 0).bind Value.asInt? == some 1 &&
        (Frame.arg? f.captured 1 1).bind Value.asInt? == some 2 && (Frame.arg? g.captured 1 1).bind Value.asInt? == some 3 &&
        f.definition.depth == 2 && (w.body? f.definition).any (fun body => !body.any Node.leads && !body.any (fun
          | .param _ depth index => depth < 2 && (depth, index) != (1, 0)
          | _ => false))) = true := by
    decide +kernel
  simp only [Option.any_eq_true, Prod.exists, Bool.and_eq_true, Bool.not_eq_true', List.isEmpty_iff, beq_iff_eq,
    Option.bind_eq_some_iff] at script
  obtain ⟨f, g, w, found, ⟨⟨⟨⟨⟨⟨⟨⟨equal, bare⟩, bare'⟩, x, hx, one⟩, x', hx', one'⟩, z, hz, two⟩, z', hz', three⟩, deep⟩,
    body, known, quiet, others⟩⟩ := script
  obtain rfl := Value.eq_of_asInt? one
  obtain rfl := Value.eq_of_asInt? one'
  obtain rfl := Value.eq_of_asInt? two
  obtain rfl := Value.eq_of_asInt? three
  obtain ⟨vs, log, past, hf, hg⟩ := Engine.history_of_functions? (.engine .start {}) List.mem_cons_self found
  refine ⟨w, vs, log, f, g, past, hf, hg, equal, hz, hz', fun n args ctx site =>
    equal_functions_behave_equally past (.handed hf) (.handed hg) equal bare bare' (.inr ?_) n args ctx site⟩
  rintro depth index ⟨around, known', reads⟩
  obtain rfl := Option.some.inj (known.symm.trans known')
  by_cases here : (depth, index) = (1, 0)
  · cases here
    rw [hx, hx']
    exact .some (.refl _)
  · refine absurd others (reads.any (fun name => ?_) quiet)
    rw [deep] at around
    simp [around, here]

/-- **Equal functions are told apart.**  Functions of one definition that have captured different arguments are equal, and
give different values for one argument. -/
theorem equal_functions_are_told_apart :
    let e := (Engine.new .standard {} {}).1
    ∃ w vs log f g, History w [e] vs log ∧ .function f ∈ vs ∧ .function g ∈ vs ∧
      (Value.function f == Value.function g) = true ∧ f.applied = [] ∧ g.applied = [] ∧
      (call w 20 f [.int 0] (e.context w) "f").run = some (.ok (.int 1)) ∧
      (call w 20 g [.int 0] (e.context w) "f").run = some (.ok (.int 2)) := by
  intro e
  have script : ((e.functions? "define(mk(x), lambda(y, x + y)); mk(1)" "mk(2)" (Engine.new .standard {} {}).2).any
      fun (f, g, w) => (Value.function f == Value.function g) && f.applied.isEmpty && g.applied.isEmpty &&
        ((call w 20 f [.int 0] (e.context w) "f").run.bind Except.toOption).bind Value.asInt? == some 1 &&
        ((call w 20 g [.int 0] (e.context w) "f").run.bind Except.toOption).bind Value.asInt? == some 2) = true := by
    decide +kernel
  have ends : ∀ {r : Option (Except EvalError Value)} {n : Int64}, (r.bind Except.toOption).bind Value.asInt? = some n →
      r = some (.ok (.int n)) := by
    intro r n h
    obtain ⟨v, hv, hn⟩ := Option.bind_eq_some_iff.1 h
    obtain rfl := Value.eq_of_asInt? hn
    obtain ⟨_ | _, rfl, ended⟩ := Option.bind_eq_some_iff.1 hv
    · cases ended
    · cases ended
      rfl
  simp only [Option.any_eq_true, Prod.exists, Bool.and_eq_true, List.isEmpty_iff, beq_iff_eq] at script
  obtain ⟨f, g, w, found, ⟨⟨⟨⟨equal, bare⟩, bare'⟩, one⟩, two⟩⟩ := script
  obtain ⟨vs, log, past, hf, hg⟩ := Engine.history_of_functions? (.engine .start {}) List.mem_cons_self found
  exact ⟨w, vs, log, f, g, past, hf, hg, equal, bare, bare', ends one, ends two⟩

end ChainCalc
