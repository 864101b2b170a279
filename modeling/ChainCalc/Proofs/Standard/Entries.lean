import ChainCalc.Standard
import ChainCalc.Proofs.Table
/-!
# The entries of the standard registry — what their factories make

There are five kinds of factories (`isStandard_of_mem`): two that choose from what their placeholders were bound to, two
that look at nothing, and computations on all that was bound.
-/
namespace ChainCalc

theorem Bound.one_eq_ok {b : Bound} {placeholder : String} {node : Node} :
    b.one placeholder = .ok node ↔ ∃ nodes, b.nodes.get? placeholder = some (node :: nodes) := by
  unfold Bound.one
  cases b.nodes.get? placeholder with
  | none => simp
  | some nodes =>
    cases nodes with
    | nil => simp
    | cons x xs => simp

theorem Bound.mem_of_one {b : Bound} {placeholder : String} {node : Node} (h : b.one placeholder = .ok node) :
    ∃ g ∈ b.nodes.values, node ∈ g := by
  obtain ⟨nodes, hn⟩ := Bound.one_eq_ok.1 h
  exact ⟨_, List.mem_map_of_mem (f := Prod.snd) (Table.mem_of_get? hn), List.mem_cons_self⟩

namespace Standard

theorem ifEntry_eq_ok {b : Bound} {name label : String} {node : Node} :
    ifEntry.factory b name label = .ok node ↔
      ∃ c y n, b.one "_cond" = .ok c ∧ b.one "_then" = .ok y ∧ b.one "_else" = .ok n ∧ node = .conditional label c y n := by
  show (b.one "_cond" >>= fun c => b.one "_then" >>= fun y => b.one "_else" >>= fun n =>
    Except.ok (Node.conditional label c y n)) = .ok node ↔ _
  cases b.one "_cond" with
  | error e => simp [bind, Except.bind]
  | ok c =>
    cases b.one "_then" with
    | error e => simp [bind, Except.bind]
    | ok y =>
      cases b.one "_else" with
      | error e => simp [bind, Except.bind]
      | ok n => simp [bind, Except.bind, eq_comm]

theorem fetchEntry_eq_ok {b : Bound} {name label : String} {node : Node} :
    fetchEntry.factory b name label = .ok node ↔ ∃ key, b.one "_key" = .ok key ∧ node = .fetch label key := by
  show (b.one "_key" >>= fun key => Except.ok (Node.fetch label key)) = .ok node ↔ _
  cases b.one "_key" with
  | error e => simp [bind, Except.bind]
  | ok key => simp [bind, Except.bind, eq_comm]

inductive IsKernel : Kernel → Prop
  | raise : IsKernel raiseKernel
  | fused : IsKernel fusedKernel
  | binary (op : Operator) : IsKernel (binaryKernel op)
  | negate : IsKernel negateKernel
  | complement : IsKernel complementKernel
  | array : IsKernel arrayKernel
  | length : IsKernel lengthKernel
  | sum : IsKernel sumKernel
  | max : IsKernel maxKernel
  | range : IsKernel rangeKernel

inductive IsStandard : Factory → Prop
  | conditional : IsStandard ifEntry.factory
  | fetch : IsStandard fetchEntry.factory
  | pi : IsStandard piEntry.factory
  | worker (query : WorkerQuery) : IsStandard (fun _ _ label => .ok (.worker query label))
  | kernel {compute : Kernel} (known : IsKernel compute) : IsStandard (.ofKernel compute)

theorem isStandard_of_mem {entry : Entry} (h : entry ∈ Registry.standard.entries) : IsStandard entry.factory := by
  simp only [Registry.standard, control, operators, arrays, workers, List.mem_append, List.mem_map, List.mem_cons,
    List.not_mem_nil, or_false] at h
  rcases h with ((((h | rfl) | ⟨op, -, rfl⟩ | h) | h) | rfl) | h
  · rcases h with rfl | rfl
    · exact .conditional
    · exact .kernel .raise
  · exact .kernel .fused
  · exact .kernel (.binary op)
  · rcases h with rfl | rfl
    · exact .kernel .negate
    · exact .kernel .complement
  · rcases h with rfl | rfl | rfl | rfl | rfl
    · exact .kernel .array
    · exact .kernel .length
    · exact .kernel .sum
    · exact .kernel .max
    · exact .kernel .range
  · exact .pi
  · rcases h with rfl | rfl | rfl
    · exact .worker .id
    · exact .worker .count
    · exact .fetch

inductive Product (b : Bound) (name label : String) : Node → Prop
  | conditional {c yes no : Node} (hc : b.one "_cond" = .ok c) (hyes : b.one "_then" = .ok yes) (hno : b.one "_else" = .ok no) :
      Product b name label (.conditional label c yes no)
  | fetch {key : Node} (hkey : b.one "_key" = .ok key) : Product b name label (.fetch label key)
  | constant (x : Float) : Product b name label (.constant (.float x))
  | worker (query : WorkerQuery) : Product b name label (.worker query label)
  | kernel {compute : Kernel} (known : IsKernel compute) : Product b name label (.kernel name label b.ordered compute)

theorem product_of_isStandard {f : Factory} (h : IsStandard f) {b : Bound} {name label : String} {node : Node}
    (made : f b name label = .ok node) : Product b name label node := by
  cases h with
  | conditional =>
    obtain ⟨c, yes, no, hc, hyes, hno, rfl⟩ := ifEntry_eq_ok.1 made
    exact .conditional hc hyes hno
  | fetch =>
    obtain ⟨key, hkey, rfl⟩ := fetchEntry_eq_ok.1 made
    exact .fetch hkey
  | pi =>
    cases made
    exact .constant _
  | worker query =>
    cases made
    exact .worker query
  | kernel known =>
    cases made
    exact .kernel known

theorem exists_of_find? {candidate : Expr} {entry : Entry} {captures : Captures}
    (h : Registry.standard.find? candidate = some (entry, captures)) :
    entry ∈ Registry.standard.entries ∧ ∃ p ∈ entry.patterns, p.capture? candidate = some captures := by
  obtain ⟨entry', hmem, hmap⟩ := List.exists_of_findSome?_eq_some h
  obtain ⟨captures', hcap, heq⟩ := Option.map_eq_some_iff.1 hmap
  cases heq
  exact ⟨hmem, List.exists_of_findSome?_eq_some hcap⟩

theorem isStandard_of_find? {candidate : Expr} {entry : Entry} {captures : Captures}
    (h : Registry.standard.find? candidate = some (entry, captures)) : IsStandard entry.factory :=
  isStandard_of_mem (exists_of_find? h).1

theorem product_of_find? {candidate : Expr} {entry : Entry} {captures : Captures}
    (h : Registry.standard.find? candidate = some (entry, captures)) {b : Bound} {name label : String} {node : Node}
    (made : entry.factory b name label = .ok node) : Product b name label node :=
  product_of_isStandard (isStandard_of_find? h) made

end Standard

end ChainCalc
