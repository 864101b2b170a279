import ChainCalc.Proofs.Compile.Discipline
import ChainCalc.Proofs.Standard.Operands
/-!
# Careful sources — factories get what they ask for

A factory may ask for a placeholder that nothing was captured for, and a computation may be handed more or less values than it
is made for.  Both happen only where a source spells placeholders of the pattern that it matches, as the name of a call or in
front of an ellipsis.  Likewise a definition may be left without a name or a value where an ellipsis stands for them.  A source
without any of this (`Rules.careful`) is compiled to computations with the right number of operands, and is never refused for
what the compiler did (`lawful_careful`).
-/
namespace ChainCalc

/-! ### Spelling -/

def countedNames : List String := ["_a", "_b", "_c", "_n"]

/-- Placeholders that need the others of their pattern. -/
def joinedNames : List String := ["_cond", "_then", "_else", "_a", "_b", "_c"]

/-- No call is named as a placeholder whose captures are counted, none of the placeholders that need others stands in front of
an ellipsis, and no definition ends in an ellipsis at its first or second argument. -/
def Rules.careful : Rules where
  call f args := f ∉ countedNames ∧ (f = "define" → args.length ≤ 2 → ∀ y ∈ args.getLast?, y.ellipsis? = none)
  beside x y := y.isEllipsis = true → ∀ h, x.placeholder? = some h → h.name ∉ joinedNames

def Node.Counted : Node → Prop
  | .kernel _ _ operands compute => compute.Takes operands.length
  | _ => True

/-- What such sources are compiled to; if they are refused, then for what they are. -/
def Discipline.careful : Discipline where
  rules := .careful
  node := Node.Counted
  value _ := True
  function _ _ := True
  error e := e.isInternal = false

/-- A pattern for a computation of `n` values: careful sources are captured by it `n` times. -/
structure Pattern.Counts (p : Pattern) (n : Nat) : Prop where
  length : p.holes.length = n
  single : ∀ h ∈ p.holes, IsSingle h
  named : p.expr.asCall?.isSome = true → ∀ f ∈ p.holes, f ∈ countedNames
  lone : p.expr.isChain = false → 1 = n ∨ ∀ f ∈ p.holes, f ∈ joinedNames

instance (p : Pattern) (n : Nat) : Decidable (p.Counts n) :=
  decidable_of_iff (p.holes.length = n ∧ (∀ h ∈ p.holes, IsSingle h) ∧
      (p.expr.asCall?.isSome = true → ∀ f ∈ p.holes, f ∈ countedNames) ∧
      (p.expr.isChain = false → 1 = n ∨ ∀ f ∈ p.holes, f ∈ joinedNames))
    ⟨fun h => ⟨h.1, h.2.1, h.2.2.1, h.2.2.2⟩, fun h => ⟨h.1, h.2, h.3, h.4⟩⟩

/-- What is handed to a factory is what it asks for. -/
def Entry.Served (entry : Entry) (b : Bound) : Prop :=
  ∀ label, (∀ node, entry.factory b entry.name label = .ok node → node.Counted) ∧
    ∀ e, entry.factory b entry.name label = .error e → e.isInternal = false

theorem served_of_ok {entry : Entry} {b : Bound}
    (h : ∀ label, ∃ node, entry.factory b entry.name label = .ok node ∧ node.Counted) : entry.Served b := by
  intro label
  obtain ⟨node, built, counted⟩ := h label
  constructor
  · intro node' made
    cases built.symm.trans made
    exact counted
  · intro e failed
    cases built.symm.trans failed

theorem served_of_kernel {entry : Entry} {compute : Kernel} (h : entry.factory = .ofKernel compute) {b : Bound}
    (takes : compute.Takes b.ordered.length) : entry.Served b :=
  served_of_ok (fun label => ⟨.kernel entry.name label b.ordered compute, by rw [h]; rfl, takes⟩)

section

variable {candidate : Expr} (heeds : candidate.Heeds .careful) {p : Pattern} {hs : List String} (spread : p.Spread candidate hs)

include heeds

theorem notMem_of_called {f : String} {args : List Expr} (h : candidate.bare.first.bare = .call f args) : f ∉ countedNames := by
  have whole := heeds.bare
  generalize candidate.bare = b at h whole
  obtain ⟨x, ls⟩ := b
  have first := (Expr.heeds_mk.1 whole).1.bare
  rw [show x.bare = .call f args from h, Operand.Heeds] at first
  exact first.1.1

theorem notMem_of_pair {x y : Operand} {op : Operator} (pair : candidate.bare = ⟨x, [⟨op, y⟩]⟩) {h : Placeholder}
    (hole : x.placeholder? = some h) (more : y.isEllipsis = true) : h.name ∉ joinedNames := by
  have both := heeds.bare
  rw [pair, Expr.heeds_mk, Link.Heed] at both
  exact both.2.1 more h hole

include spread

/-- **As many captures as the pattern has placeholders.** -/
theorem length_of_spread {n : Nat} (counts : p.Counts n) : hs.length = n := by
  cases spread with
  | each => exact counts.length
  | named isCall called own => exact absurd (counts.named isCall _ own) (notMem_of_called heeds called)
  | lone short pair hole more own =>
    rcases counts.lone short with one | joined
    · exact one
    · exact absurd (joined _ own) (notMem_of_pair heeds pair hole more)

/-- **Every placeholder of the pattern is captured for.** -/
theorem subset_of_spread (joined : p.holes.length = 1 ∨ ∀ f ∈ p.holes, f ∈ joinedNames) : ∀ h ∈ p.holes, h ∈ hs := by
  cases spread with
  | each => exact fun _ h => h
  | named _ _ _ => exact fun _ h => List.mem_cons_of_mem _ h
  | lone short pair hole more own =>
    rcases joined with one | joined
    · obtain ⟨x, hx⟩ := List.length_eq_one_iff.1 one
      rw [hx] at own ⊢
      cases List.mem_singleton.1 own
      exact fun _ h => h
    · exact absurd (joined _ own) (notMem_of_pair heeds pair hole more)

end

/-- **The factories of the standard registry get what they ask for.** -/
theorem served_of_find? {candidate : Expr} (heeds : candidate.Heeds .careful) (whole : candidate.placeholder? = none)
    {entry : Entry} {captures : Captures} (found : Registry.standard.find? candidate = some (entry, captures))
    {made : List (String × List Node)} (parallel : Parallel captures.entries made) :
    entry.Served ⟨entry.name, .ofList made⟩ := by
  obtain ⟨hmem, p, hp, captured⟩ := Standard.exists_of_find? found
  have spread := fun single => Standard.spread (Standard.isPattern_of_mem hmem p hp) single whole captured
  have counted : ∀ {compute : Kernel} {n : Nat}, compute.Takes n → p.Counts n → entry.factory = .ofKernel compute →
      entry.Served ⟨entry.name, .ofList made⟩ := by
    intro compute n takes counts hf
    obtain ⟨hs, grows, spread⟩ := spread counts.single
    refine served_of_kernel hf ?_
    rw [Bound.length_ordered grows parallel, length_of_spread heeds spread counts]
    exact takes
  have any : ∀ {compute : Kernel}, (∀ n, compute.Takes n) → entry.factory = .ofKernel compute →
      entry.Served ⟨entry.name, .ofList made⟩ := fun takes hf => served_of_kernel hf (takes _)
  simp only [Registry.standard, Standard.control, Standard.operators, Standard.arrays, Standard.workers, List.mem_append,
    List.mem_map, List.mem_cons, List.not_mem_nil, or_false] at hmem
  rcases hmem with ((((h | rfl) | ⟨op, -, rfl⟩ | h) | h) | rfl) | h
  · rcases h with rfl | rfl
    · cases List.mem_singleton.1 hp
      obtain ⟨hs, grows, spread⟩ := spread (by decide)
      have subset := subset_of_spread heeds spread (.inr (by decide))
      obtain ⟨c, hc⟩ := Bound.one_of_mem grows parallel "if" (subset "_cond" (by decide))
      obtain ⟨y, hy⟩ := Bound.one_of_mem grows parallel "if" (subset "_then" (by decide))
      obtain ⟨n, hn⟩ := Bound.one_of_mem grows parallel "if" (subset "_else" (by decide))
      exact served_of_ok (fun label => ⟨_, Standard.ifEntry_eq_ok.2 ⟨c, y, n, hc, hy, hn, rfl⟩, trivial⟩)
    · exact any Standard.takes_raiseKernel rfl
  · refine counted Standard.takes_fusedKernel ?_ rfl
    rcases List.mem_cons.1 hp with rfl | hp
    · decide
    · cases List.mem_singleton.1 hp
      decide
  · cases List.mem_singleton.1 hp
    exact counted (Standard.takes_binaryKernel op) (by cases op <;> decide) rfl
  · rcases h with rfl | rfl
    · cases List.mem_singleton.1 hp
      exact counted Standard.takes_negateKernel (by decide) rfl
    · cases List.mem_singleton.1 hp
      exact counted Standard.takes_complementKernel (by decide) rfl
  · rcases h with rfl | rfl | rfl | rfl | rfl
    · exact any Standard.takes_arrayKernel rfl
    · cases List.mem_singleton.1 hp
      exact counted Standard.takes_lengthKernel (by decide) rfl
    · cases List.mem_singleton.1 hp
      exact counted Standard.takes_sumKernel (by decide) rfl
    · exact any Standard.takes_maxKernel rfl
    · cases List.mem_singleton.1 hp
      exact counted Standard.takes_rangeKernel (by decide) rfl
  · exact served_of_ok (fun label => ⟨_, rfl, trivial⟩)
  · rcases h with rfl | rfl | rfl
    · exact served_of_ok (fun label => ⟨_, rfl, trivial⟩)
    · exact served_of_ok (fun label => ⟨_, rfl, trivial⟩)
    · cases List.mem_singleton.1 hp
      obtain ⟨hs, grows, spread⟩ := spread (by decide)
      have subset := subset_of_spread heeds spread (.inl (by decide))
      obtain ⟨key, hkey⟩ := Bound.one_of_mem grows parallel "fetch" (subset "_key" (by decide))
      exact served_of_ok (fun label => ⟨_, Standard.fetchEntry_eq_ok.2 ⟨key, hkey, rfl⟩, trivial⟩)

/-- **A definition that its form accepts** has a name and a value, unless it ends in an ellipsis too early. -/
theorem exists_of_define {args : List Expr} (early : args.length ≤ 2 → ∀ y ∈ args.getLast?, y.ellipsis? = none) {c : Captures}
    (h : defineForm.captures? (.call "define" args) = some c) :
    (c.of "_name").head? ≠ none ∧ (c.of "_value").head? ≠ none := by
  have late : ∀ {y : Expr}, y.ellipsis? = none → ¬ y.ellipsis?.isSome = true := fun hy => by simp [hy]
  rcases define_cases h with ⟨t, v, rest, rfl, -, -, -, hname, hvalue⟩ | ⟨y, rfl, more, -⟩ | ⟨t, y, rfl, more, -⟩
  · exact ⟨by simp [hname], by simp [hvalue]⟩
  · exact absurd more (late (early (by simp) y rfl))
  · exact absurd more (late (early (by simp) y rfl))

theorem Discipline.lawful_careful : Discipline.careful.Lawful where
  mild := by
    refine ⟨fun {f} hf args => ⟨?_, ?_⟩, fun x y single more => ?_, fun {e} chain y _ h hole => ?_⟩
    · intro counted
      have none : ∀ f ∈ countedNames, Registry.standard.isCallName f = false := by decide +kernel
      rw [none f counted] at hf
      cases hf
    · rintro rfl
      exact absurd hf (by decide +kernel)
    · rw [single] at more
      cases more
    · obtain ⟨first, _ | ⟨l, ls⟩⟩ := e
      · cases chain
      · cases hole
  literal _ := trivial
  param _ _ _ := trivial
  reference _ _ := trivial
  invocation _ _ _ _ := trivial
  application _ _ _ := trivial
  sequence _ _ := trivial
  lambda _ _ _ _ _ := trivial
  value _ _ := trivial
  function _ _ _ := trivial
  built heeds whole found parallel label made := (served_of_find? heeds whole found parallel label).1 _ made
  unbuilt heeds whole found parallel label failed := (served_of_find? heeds whole found parallel label).2 _ failed
  unnamed heeds accepted hole missing := by
    obtain ⟨name, value⟩ := exists_of_define (heeds.2 rfl) accepted
    rcases hole with rfl | rfl
    · exact absurd missing name
    · exact absurd missing value
  refusal h := h

end ChainCalc
