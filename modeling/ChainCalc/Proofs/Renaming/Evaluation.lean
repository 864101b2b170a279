import ChainCalc.Proofs.Addressing.World
import ChainCalc.Proofs.Evaluation.Steps
import ChainCalc.Proofs.Renaming.Anonymous
/-!
# Evaluation side by side — nodes that differ in names evaluate alike

Two nodes that are the same but for labels and the names of parameters have the same value in two workspaces, as long
as the names that they look up while they are evaluated are bound alike (`Alike.lawful`).
-/
namespace ChainCalc

open Run (Leads)

/-! ### Nodes -/

mutual

@[simp] def Node.anon : Node → Node
  | .constant value => .constant value.anon
  | .param _ depth index => .param "" depth index
  | .kernel name _ operands compute => .kernel name "" (Node.anonAll operands) compute
  | .conditional _ condition yes no => .conditional "" condition.anon yes.anon no.anon
  | .sequence _ items => .sequence "" (Node.anonAll items)
  | .lambda d _ => .lambda d.anon none
  | .functionRef name env => .functionRef name env
  | .invoke name _ env args => .invoke name "" env (Node.anonAll args)
  | .apply _ callee args => .apply "" callee.anon (Node.anonAll args)
  | .worker query _ => .worker query ""
  | .fetch _ key => .fetch "" key.anon

def Node.anonAll : List Node → List Node
  | [] => []
  | x :: rest => x.anon :: Node.anonAll rest

end

@[simp] theorem Node.anonAll_eq_map : ∀ xs : List Node, Node.anonAll xs = xs.map Node.anon
  | [] => by rw [Node.anonAll, List.map_nil]
  | x :: xs => by rw [Node.anonAll, Node.anonAll_eq_map xs, List.map_cons]

namespace Node

/-! What a node is whose anonymous one is known. -/

variable {x : Node}

theorem eq_of_anon_constant {v : Value} (h : x.anon = .constant v) : ∃ u, x = .constant u ∧ u.anon = v := by
  cases x <;> simp_all

theorem eq_of_anon_param {depth index : Nat} (h : x.anon = .param "" depth index) : ∃ name, x = .param name depth index := by
  cases x <;> simp_all

theorem eq_of_anon_kernel {name : String} {operands : List Node} {compute : Kernel}
    (h : x.anon = .kernel name "" operands compute) :
    ∃ label operands', x = .kernel name label operands' compute ∧ operands'.map anon = operands := by
  cases x <;> simp_all

theorem eq_of_anon_conditional {c y n : Node} (h : x.anon = .conditional "" c y n) :
    ∃ label c' y' n', x = .conditional label c' y' n' ∧ c'.anon = c ∧ y'.anon = y ∧ n'.anon = n := by
  cases x <;> simp_all

theorem eq_of_anon_sequence {items : List Node} (h : x.anon = .sequence "" items) :
    ∃ label items', x = .sequence label items' ∧ items'.map anon = items := by
  cases x <;> simp_all

theorem eq_of_anon_lambda {d : Definition} (h : x.anon = .lambda d none) : ∃ d' body, x = .lambda d' body ∧ d'.anon = d := by
  cases x <;> simp_all

theorem eq_of_anon_functionRef {name : String} {env : Env} (h : x.anon = .functionRef name env) : x = .functionRef name env := by
  cases x <;> simp_all

theorem eq_of_anon_invoke {name : String} {env : Env} {args : List Node} (h : x.anon = .invoke name "" env args) :
    ∃ site args', x = .invoke name site env args' ∧ args'.map anon = args := by
  cases x <;> simp_all

theorem eq_of_anon_apply {callee : Node} {args : List Node} (h : x.anon = .apply "" callee args) :
    ∃ site callee' args', x = .apply site callee' args' ∧ callee'.anon = callee ∧ args'.map anon = args := by
  cases x <;> simp_all

theorem eq_of_anon_worker {query : WorkerQuery} (h : x.anon = .worker query "") : ∃ label, x = .worker query label := by
  cases x <;> simp_all

theorem eq_of_anon_fetch {key : Node} (h : x.anon = .fetch "" key) : ∃ label key', x = .fetch label key' ∧ key'.anon = key := by
  cases x <;> simp_all

end Node

section

variable (P : String → Env → Prop)

def Node.Own : Node → Prop
  | .kernel _ _ _ compute => compute.Blind
  | .functionRef name env => P name env
  | .invoke name _ env _ => P name env
  | _ => True

inductive Node.Good : Node → Prop
  | mk {node : Node} (own : node.Own P) (children : ∀ x ∈ node.children, Good x) : Good node

/-- **Two nodes that are the same but for labels and names of parameters.** -/
structure Node.Sim (node node' : Node) : Prop where
  anon : node'.anon = node.anon
  good : node.Good P

inductive Binding.Sim : Binding → Binding → Prop
  | value {node node' : Node} (h : node.Sim P node') : Sim (.value node) (.value node')
  | function {d d' : Definition} (h : d'.anon = d.anon) : Sim (.function d) (.function d')
  | param (depth index : Nat) : Sim (.param depth index) (.param depth index)

/-- **Workspaces in which the names that may be looked up are bound alike**, with the same functions. -/
structure Alike (w w' : Workspace) : Prop where
  lookup : ∀ name env, P name env → Option.Rel (Binding.Sim P) (w.lookup env name) (w'.lookup env name)
  body : ∀ i : Nat, Option.Rel (Node.Sim P) (w.bodies[i]?).join (w'.bodies[i]?).join

end

theorem Node.Good.mono {P P' : String → Env → Prop} (h : ∀ name env, P name env → P' name env) {node : Node}
    (good : node.Good P) : node.Good P' := by
  induction good with
  | mk own _ ih =>
    refine .mk ?_ ih
    rename_i node _
    cases node with
    | functionRef name env => exact h _ _ own
    | invoke name site env args => exact h _ _ own
    | _ => exact own

theorem Node.Sim.mono {P P' : String → Env → Prop} (h : ∀ name env, P name env → P' name env) {node node' : Node}
    (sim : node.Sim P node') : node.Sim P' node' := ⟨sim.anon, sim.good.mono h⟩

theorem Binding.Sim.mono {P P' : String → Env → Prop} (h : ∀ name env, P name env → P' name env) {b b' : Binding}
    (sim : Binding.Sim P b b') : Binding.Sim P' b b' := by
  cases sim with
  | value sim => exact .value (sim.mono h)
  | function hd => exact .function hd
  | param depth index => exact .param depth index

theorem forall₂_of_map_eq {α β : Type} {f : α → β} : ∀ {l l' : List α}, l'.map f = l.map f →
    List.Forall₂ (fun a b => f b = f a) l l'
  | [], [], _ => .nil
  | [], _ :: _, h => by cases h
  | _ :: _, [], h => by cases h
  | a :: l, b :: l', h => by
    rw [List.map_cons, List.map_cons, List.cons.injEq] at h
    exact .cons h.1 (forall₂_of_map_eq h.2)

/-! ### Values, frames and contexts -/

def Value.Same (v v' : Value) : Prop := v'.anon = v.anon

def Frame.Same (f f' : Frame) : Prop := f'.map Activation.anon = f.map Activation.anon

structure Context.Same (c c' : Context) : Prop where
  depth : c'.depth = c.depth
  locality : c'.locality = c.locality
  store : c'.store = c.store
  maxCallDepth : c'.maxCallDepth = c.maxCallDepth

theorem Value.Same.refl (v : Value) : v.Same v := rfl

theorem Value.same_function {d d' : Definition} {captured captured' : List Activation} {applied applied' : List Value} :
    (Value.function ⟨d, captured, applied⟩).Same (.function ⟨d', captured', applied'⟩) ↔
      d'.anon = d.anon ∧ Frame.Same captured captured' ∧ applied'.map Value.anon = applied.map Value.anon := by
  unfold Value.Same Frame.Same
  rw [Value.anon, Value.anon, Closure.anon_mk, Closure.anon_mk]
  simp

theorem map_anon_of_forall₂ {vs vs' : List Value} (h : List.Forall₂ Value.Same vs vs') :
    vs'.map Value.anon = vs.map Value.anon := by
  induction h with
  | nil => rfl
  | cons head _ ih => rw [List.map_cons, List.map_cons, ih, show _ = _ from head]

namespace Frame

theorem arg?_anon (depth index : Nat) : ∀ f : Frame,
    arg? (f.map Activation.anon) depth index = (f.arg? depth index).map Value.anon
  | [] => rfl
  | ⟨d, args⟩ :: outer => by
    rw [List.map_cons, Activation.anon_mk, arg?, arg?, arg?_anon depth index outer]
    split
    · rw [List.getElem?_map]
    · split
      · rfl
      · rfl

theorem truncate_anon (f : Frame) (depth : Nat) :
    truncate (f.map Activation.anon) depth = (f.truncate depth).map Activation.anon := by
  have hdepth : ∀ a : Activation, a.anon.depth = a.depth := by
    rintro ⟨d, args⟩
    rw [Activation.anon_mk]
  unfold truncate
  rw [List.dropWhile_map]
  simp [Function.comp_def, hdepth]

theorem Same.truncate {f f' : Frame} (h : f.Same f') (depth : Nat) : (f.truncate depth).Same (f'.truncate depth) := by
  unfold Same
  rw [← truncate_anon, ← truncate_anon, show f'.map Activation.anon = f.map Activation.anon from h]

theorem Same.enter {f f' : Frame} (h : f.Same f') (depth : Nat) {args args' : List Value}
    (hargs : args'.map Value.anon = args.map Value.anon) : (Frame.enter f depth args).Same (Frame.enter f' depth args') := by
  unfold Same Frame.enter
  rw [List.map_cons, List.map_cons, Activation.anon_mk, Activation.anon_mk, hargs,
    show f'.map Activation.anon = f.map Activation.anon from h]

end Frame

section

variable {frame frame' : Frame} {ctx ctx' : Context}

theorem Frame.Same.arg? (same : frame.Same frame') (depth index : Nat) :
    Option.Rel Value.Same (frame.arg? depth index) (frame'.arg? depth index) := by
  have found : (frame'.arg? depth index).map Value.anon = (frame.arg? depth index).map Value.anon := by
    rw [← Frame.arg?_anon, ← Frame.arg?_anon, show frame'.map Activation.anon = frame.map Activation.anon from same]
  generalize frame.arg? depth index = v at found ⊢
  generalize frame'.arg? depth index = v' at found ⊢
  cases v with
  | none => cases v' with
    | none => exact .none
    | some v' => cases found
  | some v => cases v' with
    | none => cases found
    | some v' => exact .some (Option.some.inj found)

theorem same_close (same : frame.Same frame') {d d' : Definition} (hd : d'.anon = d.anon) :
    (close d frame).Same (close d' frame') := by
  have hdepth : d'.depth = d.depth := (congrArg Definition.depth hd :)
  unfold Value.Same close
  rw [Value.anon, Value.anon, Closure.anon_mk, Closure.anon_mk, hd, hdepth,
    show _ = _ from same.truncate (d.depth - 1)]

theorem Context.Same.push (same : ctx.Same ctx') (name name' site site' : String) :
    Leads (fun _ => False) Context.Same (Run.ofExcept (ctx.push name site)) (Run.ofExcept (ctx'.push name' site')) := by
  refine Run.leads_ofExcept (fun results => ?_)
  unfold Context.push at results ⊢
  rw [same.depth, same.maxCallDepth]
  split
  · rename_i full
    rw [if_pos full] at results
    exact absurd rfl (results _)
  · refine .ok ⟨?_, same.locality, same.store, rfl⟩
    show ctx'.depth + 1 = ctx.depth + 1
    rw [same.depth]

end

/-! ### Nodes, applications and calls -/

def sameButNames (P : String → Env → Prop) : Tandem where
  value := Value.Same
  context := Context.Same
  node x frame ctx x' frame' ctx' := x.Sim P x' ∧ frame.Same frame' ∧ ctx.Same ctx'
  text _ _ := True

abbrev Run.Comparison.results : Run.Comparison := .leads (fun _ => False) 0

theorem Run.leads_fail {α β : Type} {R : α → β → Prop} {ctx : Context} {primitive : String} {fault : Fault} {y : Run β} :
    Leads (fun _ => False) R (Run.fail ctx primitive fault : Run α) y := by
  intro r hr results
  cases hr
  exact (results _ rfl).elim

theorem forall₂_sim {P : String → Env → Prop} {xs xs' : List Node} (h : xs'.map Node.anon = xs.map Node.anon)
    (good : ∀ x ∈ xs, x.Good P) : List.Forall₂ (Node.Sim P) xs xs' := by
  have hmap := forall₂_of_map_eq h
  induction hmap with
  | nil => exact .nil
  | cons head _ ih =>
    rw [List.forall_mem_cons] at good
    rw [List.map_cons, List.map_cons, List.cons.injEq] at h
    exact .cons ⟨head, good.1⟩ (ih h.2 good.2)

section

variable {P : String → Env → Prop} {w w' : Workspace} (alike : Alike P w w')

include alike

/-- **Nodes that are the same but for names go abreast.** -/
theorem Alike.abreast {frame frame' : Frame} {ctx ctx' : Context} (same : frame.Same frame') (hctx : ctx.Same ctx')
    {x x' : Node} (sim : x.Sim P x') : (sameButNames P).Abreast .results w w' frame ctx frame' ctx' x x' := by
  obtain ⟨hanon, own, children⟩ := sim
  have here : ∀ {y y' : Node}, y'.anon = y.anon → y ∈ x.children → (sameButNames P).node y frame ctx y' frame' ctx' :=
    fun hy mem => ⟨⟨hy, children _ mem⟩, same, hctx⟩
  have all : ∀ {xs xs' : List Node}, xs'.map Node.anon = xs.map Node.anon → (∀ y ∈ xs, y ∈ x.children) →
      List.Forall₂ (fun y y' => (sameButNames P).node y frame ctx y' frame' ctx') xs xs' :=
    fun hmap sub => (forall₂_sim hmap (fun y hy => children y (sub y hy))).imp (fun _ _ sim => ⟨sim, same, hctx⟩)
  have argument : ∀ name name' depth index, Leads (fun _ => False) Value.Same (argument name depth index frame ctx)
      (argument name' depth index frame' ctx') := fun _ _ depth index =>
    Tandem.argument_holds (T := sameButNames P) (C := .results) (fun _ => Run.leads_fail) (same.arg? depth index)
  have bound : ∀ {name env}, P name env →
      Option.Rel ((sameButNames P).Bound .results w' frame ctx frame' ctx' name) (w.lookup env name) (w'.lookup env name) := by
    refine fun {name env} may => optionRel_imp (fun b b' hb => ?_) (alike.lookup name env may)
    cases hb with
    | value sim => exact .value ⟨sim, same, hctx⟩
    | function hd => exact .function (same_close same hd)
    | param depth index => exact .param (argument name name depth index)
  cases x with
  | constant v =>
    obtain ⟨v', rfl, hv⟩ := Node.eq_of_anon_constant hanon
    exact .leaf (fun _ _ => Run.leads_pure hv)
  | param name depth index =>
    obtain ⟨name', rfl⟩ := Node.eq_of_anon_param hanon
    exact .leaf (fun _ _ => argument name name' depth index)
  | kernel name label operands compute =>
    rw [Node.anon, Node.anonAll_eq_map] at hanon
    obtain ⟨label', operands', rfl, hmap⟩ := Node.eq_of_anon_kernel hanon
    refine .kernel (all hmap (fun _ hy => hy)) trivial (fun vs vs' hvs => ?_)
    rw [Kernel.Blind.eq_of_anon own (map_anon_of_forall₂ hvs)]
    exact .refl Value.Same.refl _
  | conditional label condition yes no =>
    rw [Node.anon] at hanon
    obtain ⟨label', c', y', n', rfl, hc, hy, hn⟩ := Node.eq_of_anon_conditional hanon
    exact .conditional (here hc (by simp [Node.children])) (here hy (by simp [Node.children]))
      (here hn (by simp [Node.children]))
  | sequence label items =>
    rw [Node.anon, Node.anonAll_eq_map] at hanon
    obtain ⟨label', items', rfl, hmap⟩ := Node.eq_of_anon_sequence hanon
    exact .sequence (all hmap (fun _ hy => hy))
  | lambda d body =>
    obtain ⟨d', body', rfl, hd⟩ := Node.eq_of_anon_lambda hanon
    exact .leaf (fun _ _ => Run.leads_pure (same_close same hd))
  | functionRef name env =>
    rw [Node.anon] at hanon
    obtain rfl := Node.eq_of_anon_functionRef hanon
    exact .functionRef (bound own)
  | invoke name site env args =>
    rw [Node.anon, Node.anonAll_eq_map] at hanon
    obtain ⟨site', args', rfl, hmap⟩ := Node.eq_of_anon_invoke hanon
    exact .invoke (bound own) (all hmap (fun _ hy => hy)) trivial
  | apply site callee args =>
    rw [Node.anon, Node.anonAll_eq_map] at hanon
    obtain ⟨site', callee', args', rfl, hcallee, hmap⟩ := Node.eq_of_anon_apply hanon
    exact .apply (here hcallee List.mem_cons_self) trivial (all hmap (fun _ hy => List.mem_cons_of_mem _ hy)) trivial
  | worker query label =>
    obtain ⟨label', rfl⟩ := Node.eq_of_anon_worker hanon
    exact .worker
  | fetch label key =>
    rw [Node.anon] at hanon
    obtain ⟨label', key', rfl, hkey⟩ := Node.eq_of_anon_fetch hanon
    refine .fetch (here hkey List.mem_cons_self) ?_
    rw [hctx.store]
    exact optionRel_refl (fun _ _ => optionRel_refl Value.Same.refl _) _

/-- **Functions that are the same but for names are entered alike.** -/
theorem Alike.entered {f f' : Closure} (same : (Value.function f).Same (.function f')) :
    (sameButNames P).Entered w w' f f' := by
  obtain ⟨d, captured, applied⟩ := f
  obtain ⟨d', captured', applied'⟩ := f'
  obtain ⟨hd, hcaptured, happlied⟩ := Value.same_function.1 same
  have harity : d'.params.length = d.params.length := by
    simpa [Definition.anon] using congrArg (fun e => e.params.length) hd
  have hdepth : d'.depth = d.depth := (congrArg Definition.depth hd :)
  have hbody := alike.body d.id
  rw [show (w.bodies[d.id]?).join = w.body? d from rfl, show d.id = d'.id from (congrArg Definition.id hd.symm :),
    show (w'.bodies[d'.id]?).join = w'.body? d' from rfl] at hbody
  refine ⟨trivial, harity, forall₂_of_map_eq happlied, fun vs vs' hvs => ?_, fun vs vs' hvs => ?_⟩
  · exact Value.same_function.2 ⟨hd, hcaptured, map_anon_of_forall₂ hvs⟩
  · refine optionRel_imp (fun x x' sim inner inner' hinner => ⟨sim, ?_, hinner⟩) hbody
    dsimp only
    rw [hdepth]
    exact hcaptured.enter d.depth (map_anon_of_forall₂ hvs)

/-- **What is the same but for names goes in step.** -/
theorem Alike.lawful : (sameButNames P).Lawful .results w w' where
  shape {v v'} same := by
    cases plain : v.asFunction? with
    | none => exact .inl ⟨Value.eq_of_anon_eq same plain, rfl⟩
    | some f =>
      cases v with
      | function f =>
        cases v' with
        | function f' => exact .inr ⟨f, f', rfl, rfl⟩
        | _ => exact absurd same (by simp [sameButNames, Value.Same, Value.anon])
      | _ => cases plain
  plain _ := rfl
  text _ := trivial
  fail _ _ _ := Run.leads_fail
  push hctx _ _ := Context.Same.push hctx _ _ _ _
  locality hctx := Context.Same.locality hctx
  context h := h.2.2
  node h := alike.abreast h.2.1 h.2.2 h.1
  call := alike.entered

end

end ChainCalc
