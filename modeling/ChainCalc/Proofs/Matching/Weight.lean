import ChainCalc.Proofs.Matching.Instances
import ChainCalc.Proofs.Matching.Offers
import ChainCalc.Proofs.Precedence.Tree
/-!
# The weight of an expression — captures are lighter than the candidate

Every operand weighs one, a call one more for its name, an operator in front one more, and parentheses weigh nothing.  So
taking parentheses off and regrouping a chain leave the weight as it is, and a part of an expression is lighter unless it is
the whole of it in parentheses (`Expr.HasPart`).  A pattern never captures the whole candidate, and whatever else it captures
from a candidate without placeholders is lighter (`lighter_of_capture?`), for every registry.
-/
namespace ChainCalc

mutual

def Operand.weight : Operand → Nat
  | .lit _ => 1
  | .ident _ => 1
  | .call _ args => 2 + Expr.weights args
  | .paren inner => inner.weight
  | .unary _ operand => 1 + operand.weight

def Expr.weight : Expr → Nat
  | ⟨first, rest⟩ => first.weight + Link.weights rest

def Link.weights : List Link → Nat
  | [] => 0
  | ⟨_, operand⟩ :: rest => operand.weight + Link.weights rest

def Expr.weights : List Expr → Nat
  | [] => 0
  | e :: es => e.weight + Expr.weights es

end

mutual

def Operand.Concrete : Operand → Prop
  | .lit value => value.isProper = true
  | .ident name => Placeholder.classify name = none
  | .call name args => Placeholder.classify name = none ∧ Expr.AllConcrete args
  | .paren inner => inner.Concrete
  | .unary _ operand => operand.Concrete

/-- **No name in the expression is a placeholder, and no literal is NaN.** -/
def Expr.Concrete : Expr → Prop
  | ⟨first, rest⟩ => first.Concrete ∧ Link.AllConcrete rest

def Link.AllConcrete : List Link → Prop
  | [] => True
  | ⟨_, operand⟩ :: rest => operand.Concrete ∧ Link.AllConcrete rest

def Expr.AllConcrete : List Expr → Prop
  | [] => True
  | e :: es => e.Concrete ∧ Expr.AllConcrete es

end

/-! ### Weights -/

mutual

theorem Operand.weight_pos : ∀ x : Operand, 0 < x.weight
  | .lit _ => by rw [Operand.weight]; exact Nat.one_pos
  | .ident _ => by rw [Operand.weight]; exact Nat.one_pos
  | .call _ _ => by rw [Operand.weight]; omega
  | .paren inner => by rw [Operand.weight]; exact inner.weight_pos
  | .unary _ _ => by rw [Operand.weight]; omega

theorem Expr.weight_pos : ∀ e : Expr, 0 < e.weight
  | ⟨first, _⟩ => by
    have := first.weight_pos
    rw [Expr.weight]
    omega

end

theorem Expr.weight_ofOperand (x : Operand) : (Expr.ofOperand x).weight = x.weight := by
  rw [Expr.ofOperand, Expr.weight, Link.weights, Nat.add_zero]

theorem Expr.weight_call (f : String) (args : List Expr) : (Expr.call f args).weight = 2 + Expr.weights args := by
  rw [Expr.call, Expr.weight_ofOperand, Operand.weight]

theorem Link.weights_cons (l : Link) (ls : List Link) : Link.weights (l :: ls) = l.operand.weight + Link.weights ls := by
  obtain ⟨op, x⟩ := l
  rw [Link.weights]

theorem Link.weights_append : ∀ ls ms : List Link, Link.weights (ls ++ ms) = Link.weights ls + Link.weights ms
  | [], ms => by rw [List.nil_append, Link.weights, Nat.zero_add]
  | l :: ls, ms => by
    rw [List.cons_append, Link.weights_cons, Link.weights_cons, Link.weights_append ls ms, Nat.add_assoc]

theorem Link.weights_pos : ∀ {ls : List Link}, ls ≠ [] → 0 < Link.weights ls
  | [], h => absurd rfl h
  | l :: ls, _ => by
    have := l.operand.weight_pos
    rw [Link.weights_cons]
    omega

theorem Expr.weight_le_of_mem {e : Expr} : ∀ {es : List Expr}, e ∈ es → e.weight ≤ Expr.weights es
  | _ :: es, h => by
    rw [Expr.weights]
    rcases List.mem_cons.1 h with rfl | h
    · omega
    · have := Expr.weight_le_of_mem h
      omega

/-- **Parentheses weigh nothing.** -/
theorem Expr.weight_bare (e : Expr) : e.bare.weight = e.weight := by
  fun_induction Expr.bare e with
  | case1 e ih => rw [ih, Expr.weight, Operand.weight, Link.weights, Nat.add_zero]
  | case2 => rfl

theorem Operand.weight_group (e : Expr) : (Operand.group e).weight = e.weight := by
  obtain ⟨x, ls⟩ := e
  unfold Operand.group
  cases ls with
  | nil => exact (Expr.weight_ofOperand x).symm
  | cons l ls => rw [if_neg (by simp), Operand.weight]

/-- **A chain regrouped weighs the same.** -/
theorem Expr.weight_regroup? {e grouped : Expr} (h : e.regroup? = some grouped) : grouped.weight = e.weight := by
  obtain ⟨x, before, l, after, hbare, rfl, -, -⟩ := regroup?_spec h
  rw [← Expr.weight_bare e, hbare]
  simp only [Expr.weight, Link.weights, Link.weights_cons, Link.weights_append, Operand.weight_group]
  omega

/-! ### Expressions without placeholders and NaN -/

theorem Expr.allConcrete_iff {es : List Expr} : Expr.AllConcrete es ↔ ∀ e ∈ es, e.Concrete := by
  induction es with
  | nil => simp [Expr.AllConcrete]
  | cons e es ih => rw [Expr.AllConcrete, ih, List.forall_mem_cons]

theorem Link.allConcrete_append {ls ms : List Link} :
    Link.AllConcrete (ls ++ ms) ↔ Link.AllConcrete ls ∧ Link.AllConcrete ms := by
  induction ls with
  | nil => rw [List.nil_append, Link.AllConcrete, true_and]
  | cons l ls ih =>
    obtain ⟨op, x⟩ := l
    rw [List.cons_append, Link.AllConcrete, Link.AllConcrete, ih, and_assoc]

theorem Expr.concrete_mk {x : Operand} {ls : List Link} : (⟨x, ls⟩ : Expr).Concrete ↔ x.Concrete ∧ Link.AllConcrete ls := by
  rw [Expr.Concrete]

theorem Expr.concrete_ofOperand {x : Operand} : (Expr.ofOperand x).Concrete ↔ x.Concrete := by
  rw [Expr.ofOperand, Expr.Concrete, Link.AllConcrete, and_true]

theorem Expr.concrete_ident {name : String} : (Expr.ident name).Concrete ↔ Placeholder.classify name = none := by
  rw [Expr.ident, Expr.concrete_ofOperand, Operand.Concrete]

theorem Expr.concrete_call {f : String} {args : List Expr} :
    (Expr.call f args).Concrete ↔ Placeholder.classify f = none ∧ ∀ e ∈ args, e.Concrete := by
  rw [Expr.call, Expr.concrete_ofOperand, Operand.Concrete, Expr.allConcrete_iff]

theorem Expr.handedDown_concrete : HandedDown Expr.Concrete where
  inner h := by rwa [Expr.concrete_ofOperand, Operand.Concrete] at h
  front h := Expr.concrete_mk.2 ⟨(Expr.concrete_mk.1 h).1, (Link.allConcrete_append.1 (Expr.concrete_mk.1 h).2).1⟩
  back {x l ls} h := by
    obtain ⟨op, y⟩ := l
    rw [Expr.concrete_mk, Link.AllConcrete] at h
    exact Expr.concrete_mk.2 h.2
  unary h := by
    rw [Expr.concrete_ofOperand, Operand.Concrete] at h
    exact Expr.concrete_ofOperand.2 h
  name h := Expr.concrete_ident.2 (Expr.concrete_call.1 h).1
  args h := (Expr.concrete_call.1 h).2

theorem Operand.concrete_group {e : Expr} (h : e.Concrete) : (Operand.group e).Concrete := by
  obtain ⟨x, ls⟩ := e
  unfold Operand.group
  split
  · exact (Expr.concrete_mk.1 h).1
  · rwa [Operand.Concrete]

theorem Expr.Concrete.regroup? {e grouped : Expr} (he : e.Concrete) (h : e.regroup? = some grouped) : grouped.Concrete := by
  obtain ⟨x, before, l, after, hbare, rfl, -, -⟩ := regroup?_spec h
  have hb := handedDown_concrete.bare he
  rw [hbare] at hb
  rw [Expr.concrete_mk, Link.AllConcrete, Link.AllConcrete]
  exact ⟨Operand.concrete_group (handedDown_concrete.front hb), Operand.concrete_group (handedDown_concrete.after hb), trivial⟩

mutual

theorem Operand.beq_self : ∀ {x : Operand}, x.Concrete → x.beq x = true
  | .lit _, h => by
    rw [Operand.Concrete] at h
    rw [Operand.beq]
    exact Literal.beq_self h
  | .ident _, _ => by simp [Operand.beq]
  | .call _ args, h => by
    rw [Operand.Concrete] at h
    simp [Operand.beq, Expr.beqList_self h.2]
  | .paren inner, h => by
    rw [Operand.Concrete] at h
    rw [Operand.beq, Expr.beq_self h]
  | .unary _ x, h => by
    rw [Operand.Concrete] at h
    simp [Operand.beq, Operand.beq_self h]

theorem Expr.beq_self : ∀ {e : Expr}, e.Concrete → e.beq e = true
  | ⟨_, _⟩, h => by
    rw [Expr.Concrete] at h
    rw [Expr.beq, Operand.beq_self h.1, Link.beqList_self h.2, Bool.and_self]

theorem Link.beqList_self : ∀ {ls : List Link}, Link.AllConcrete ls → Link.beqList ls ls = true
  | [], _ => by rw [Link.beqList]
  | ⟨_, _⟩ :: _, h => by
    rw [Link.AllConcrete] at h
    simp [Link.beqList, Operand.beq_self h.1, Link.beqList_self h.2]

theorem Expr.beqList_self : ∀ {es : List Expr}, Expr.AllConcrete es → Expr.beqList es es = true
  | [], _ => by rw [Expr.beqList]
  | _ :: _, h => by
    rw [Expr.AllConcrete] at h
    rw [Expr.beqList, Expr.beq_self h.1, Expr.beqList_self h.2, Bool.and_self]

end

/-! ### Parts are lighter -/

/-- Without placeholders and NaN, and lighter than the whole unless it is the whole, parentheses aside. -/
structure Expr.HasPart (whole e : Expr) : Prop where
  concrete : e.Concrete
  lighter : e.weight < whole.weight ∨ e.bare = whole

namespace Expr.HasPart

variable {whole e : Expr}

theorem weight_le (h : whole.HasPart e) : e.weight ≤ whole.weight := by
  rcases h.lighter with lt | rfl
  · exact Nat.le_of_lt lt
  · exact Nat.le_of_eq e.weight_bare.symm

theorem of_lt (h : whole.HasPart e) {e' : Expr} (concrete : e'.Concrete) (lt : e'.weight < e.weight) : whole.HasPart e' :=
  ⟨concrete, .inl (Nat.lt_of_lt_of_le lt h.weight_le)⟩

theorem self (concrete : whole.Concrete) (bare : whole.bare = whole) : whole.HasPart whole := ⟨concrete, .inr bare⟩

end Expr.HasPart

/-- **The parts of an expression are lighter than it**, unless they are all of it. -/
theorem Expr.handedDown_hasPart (whole : Expr) : HandedDown whole.HasPart where
  inner h := by
    refine ⟨handedDown_concrete.inner h.concrete, h.lighter.imp (fun lt => ?_) (fun same => ?_)⟩
    · rwa [Expr.weight_ofOperand, Operand.weight] at lt
    · exact same
  front {x ls ms} h := by
    cases ms with
    | nil => rwa [List.append_nil] at h
    | cons m ms =>
      have := Link.weights_pos (List.cons_ne_nil m ms)
      refine h.of_lt (handedDown_concrete.front h.concrete) ?_
      rw [Expr.weight, Expr.weight, Link.weights_append]
      omega
  back {x l ls} h := by
    have := x.weight_pos
    refine h.of_lt (handedDown_concrete.back h.concrete) ?_
    rw [Expr.weight, Expr.weight, Link.weights_cons]
    omega
  unary h := by
    refine h.of_lt (handedDown_concrete.unary h.concrete) ?_
    rw [Expr.weight_ofOperand, Expr.weight_ofOperand, Operand.weight]
    omega
  name h := by
    refine h.of_lt (handedDown_concrete.name h.concrete) ?_
    rw [Expr.ident, Expr.weight_ofOperand, Expr.weight_call, Operand.weight]
    omega
  args {f args} h e he := by
    have := Expr.weight_le_of_mem he
    refine h.of_lt (handedDown_concrete.args h.concrete e he) ?_
    rw [Expr.weight_call]
    omega

/-! ### Captures are lighter -/

structure Expr.Below (n : Nat) (e : Expr) : Prop where
  concrete : e.Concrete
  lt : e.weight < n

theorem Expr.Below.bare {n : Nat} {e : Expr} (h : e.Below n) : e.bare.Below n :=
  ⟨handedDown_concrete.bare h.concrete, by rw [weight_bare]; exact h.lt⟩

theorem Expr.below_of_mem {f : String} {args : List Expr} {e : Expr} (h : (Expr.call f args).Concrete) (he : e ∈ args) :
    e.Below (Expr.call f args).weight := by
  have := Expr.weight_le_of_mem he
  refine ⟨Expr.handedDown_concrete.args h e he, ?_⟩
  rw [Expr.weight_call]
  omega

/-- **What a pattern captures is lighter than the candidate.**  The pattern may be a placeholder and nothing else: the
whole candidate is refused. -/
theorem lighter_of_capture? {p : Pattern} {candidate : Expr} {captures : Captures} (concrete : candidate.Concrete)
    (bare : candidate.bare = candidate) (found : p.capture? candidate = some captures) {g : String × List Expr}
    (hg : g ∈ captures.entries) {e : Expr} (he : e ∈ g.2) : e.Below candidate.weight := by
  obtain ⟨log, -, rfl, captured⟩ := Pattern.exists_log_of_capture? handedDown_true (Expr.handedDown_hasPart candidate)
    trivial (.self concrete bare) found
  obtain ⟨⟨hole, bare', part⟩, -, other⟩ := captured _ (Captures.mem_of_collect hg he)
  have part : candidate.HasPart e := by
    rcases part with ⟨-, part⟩ | ⟨foreign, -⟩
    · exact part
    · -- a placeholder of the candidate, which has none
      rw [Expr.concrete_ident.1 foreign.concrete] at hole
      cases hole
  refine ⟨part.concrete, part.lighter.resolve_right (fun same => ?_)⟩
  have self : (e == candidate) = true := by
    rw [show e = candidate from bare'.symm.trans same]
    exact Expr.beq_self concrete
  rw [self] at other
  cases other

/-- **What a registry captures is lighter than the candidate**, whichever of its entries accepts it. -/
theorem lighter_of_find? {registry : Registry} {candidate : Expr} {entry : Entry} {captures : Captures}
    (concrete : candidate.Concrete) (bare : candidate.bare = candidate)
    (found : registry.find? candidate = some (entry, captures)) :
    ∀ g ∈ captures.entries, ∀ e ∈ g.2, e.Below candidate.weight := by
  obtain ⟨entry', -, hfound⟩ := List.exists_of_findSome?_eq_some found
  obtain ⟨captures', hcapture, same⟩ := Option.map_eq_some_iff.1 hfound
  cases same
  obtain ⟨p, -, hp⟩ := List.exists_of_findSome?_eq_some hcapture
  exact fun g hg e he => lighter_of_capture? concrete bare hp hg he

end ChainCalc
