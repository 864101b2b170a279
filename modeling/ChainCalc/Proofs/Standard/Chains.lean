import ChainCalc.Standard
import ChainCalc.Proofs.Matching.Chains
import ChainCalc.Proofs.Matching.Offers
/-!
# What the standard registry makes of a chain

A chain without an ellipsis behind its operators is settled by its operators alone: either it is cut in two at an operator
that binds looser than all others in it, or it is a product and a sum for the fused entry (`find?_chain`).  A chain of
two operands is always settled (`find?_pair`).
-/
namespace ChainCalc

/-! ### Equal expressions are of equal size -/

mutual

theorem Operand.size_eq_of_beq : ∀ {x y : Operand}, x.beq y = true → x.size = y.size
  | .lit _, y, h => by
    cases y with
    | lit _ => rfl
    | _ => simp [Operand.beq] at h
  | .ident _, y, h => by
    cases y with
    | ident _ => rfl
    | _ => simp [Operand.beq] at h
  | .call _ xs, y, h => by
    cases y with
    | call _ ys =>
      rw [Operand.beq, Bool.and_eq_true] at h
      rw [Operand.size, Operand.size, Expr.sizes_eq_of_beqList h.2]
    | _ => simp [Operand.beq] at h
  | .paren a, y, h => by
    cases y with
    | paren b =>
      rw [Operand.beq] at h
      rw [Operand.size, Operand.size, Expr.size_eq_of_beq h]
    | _ => simp [Operand.beq] at h
  | .unary _ x, y, h => by
    cases y with
    | unary _ y =>
      rw [Operand.beq, Bool.and_eq_true] at h
      rw [Operand.size, Operand.size, Operand.size_eq_of_beq h.2]
    | _ => simp [Operand.beq] at h

theorem Expr.size_eq_of_beq : ∀ {a b : Expr}, a.beq b = true → a.size = b.size
  | ⟨x, xs⟩, ⟨y, ys⟩, h => by
    rw [Expr.beq, Bool.and_eq_true] at h
    rw [Expr.size, Expr.size, Operand.size_eq_of_beq h.1, Link.sizes_eq_of_beqList h.2]

theorem Link.sizes_eq_of_beqList : ∀ {xs ys : List Link}, Link.beqList xs ys = true → Link.sizes xs = Link.sizes ys
  | [], ys, h => by
    cases ys with
    | nil => rfl
    | cons _ _ => simp [Link.beqList] at h
  | ⟨f, x⟩ :: xs, ys, h => by
    cases ys with
    | nil => simp [Link.beqList] at h
    | cons l ys =>
      obtain ⟨g, y⟩ := l
      rw [Link.beqList, Bool.and_eq_true, Bool.and_eq_true] at h
      rw [Link.sizes, Link.sizes, Operand.size_eq_of_beq h.1.2, Link.sizes_eq_of_beqList h.2]

theorem Expr.sizes_eq_of_beqList : ∀ {xs ys : List Expr}, Expr.beqList xs ys = true → Expr.sizes xs = Expr.sizes ys
  | [], ys, h => by
    cases ys with
    | nil => rfl
    | cons _ _ => simp [Expr.beqList] at h
  | x :: xs, ys, h => by
    cases ys with
    | nil => simp [Expr.beqList] at h
    | cons y ys =>
      rw [Expr.beqList, Bool.and_eq_true] at h
      rw [Expr.sizes, Expr.sizes, Expr.size_eq_of_beq h.1, Expr.sizes_eq_of_beqList h.2]

end

theorem Expr.beq_eq_false_of_size_lt {a b : Expr} (h : a.size < b.size) : (a == b) = false := by
  cases hb : a == b with
  | false => rfl
  | true => exact absurd (Expr.size_eq_of_beq hb) (Nat.ne_of_lt h)

/-! ### Cuts -/

/-- The chain is two chains around an operator that binds looser than all others. -/
def Expr.CutAt (c : Expr) (op : Operator) (a b : Expr) : Prop :=
  c = ⟨a.first, a.rest ++ ⟨op, b.first⟩ :: b.rest⟩ ∧ (∀ l ∈ a.rest, op.precedence < l.op.precedence) ∧
    ∀ l ∈ b.rest, op.precedence < l.op.precedence

/-- The chain is a product of two chains of powers, and a chain that binds tighter than a sum added to it. -/
def Expr.CutFused (c a b d : Expr) : Prop :=
  c = ⟨a.first, a.rest ++ ⟨.mul, b.first⟩ :: (b.rest ++ ⟨.add, d.first⟩ :: d.rest)⟩ ∧
    (∀ l ∈ a.rest, Operator.mul.precedence < l.op.precedence) ∧ (∀ l ∈ b.rest, Operator.mul.precedence < l.op.precedence) ∧
    ∀ l ∈ d.rest, Operator.add.precedence < l.op.precedence

theorem Expr.CutAt.size_lt {c a b : Expr} {op : Operator} (h : c.CutAt op a b) : a.size < c.size ∧ b.size < c.size := by
  obtain ⟨rfl, -, -⟩ := h
  obtain ⟨x, xs⟩ := a
  obtain ⟨y, ys⟩ := b
  have hx := x.size_pos
  have hy := y.size_pos
  simp only [Expr.size, Link.sizes_append, Link.sizes]
  omega

theorem Expr.CutFused.size_lt {c a b d : Expr} (h : c.CutFused a b d) :
    a.size < c.size ∧ b.size < c.size ∧ d.size < c.size := by
  obtain ⟨rfl, -, -, -⟩ := h
  obtain ⟨x, xs⟩ := a
  obtain ⟨y, ys⟩ := b
  obtain ⟨z, zs⟩ := d
  have hx := x.size_pos
  have hy := y.size_pos
  have hz := z.size_pos
  simp only [Expr.size, Link.sizes_append, Link.sizes]
  omega

theorem Expr.bare_beq_eq_false {a c : Expr} (h : a.size < c.size) : (a.bare == c) = false :=
  Expr.beq_eq_false_of_size_lt (Nat.lt_of_le_of_lt a.size_bare_le h)

theorem Expr.placeholder?_of_isChain {c : Expr} (h : c.isChain = true) : c.placeholder? = none := by
  unfold Expr.placeholder?
  rw [Expr.bare_of_isChain h]
  obtain ⟨first, rest⟩ := c
  cases rest with
  | nil => cases h
  | cons _ _ => rfl

/-! ### The patterns of the operators -/

theorem Cursor.Steady.behind {c : Cursor} (h : c.Steady) (seg : List Link) {ys : List Link} {op : Operator}
    {y : Operand} (hc : c.after = seg ++ ⟨op, y⟩ :: ys) : (⟨some op, y, ys⟩ : Cursor).Steady := by
  have hmem : ∀ l ∈ (⟨op, y⟩ : Link) :: ys, l.operand.isEllipsis = false := fun l hl =>
    h.2 l (by rw [hc]; exact List.mem_append_right _ hl)
  exact Cursor.steady_of_isEllipsis (hmem ⟨op, y⟩ List.mem_cons_self) (fun l hl => hmem l (List.mem_cons_of_mem _ hl))

def Pattern.IsShort (p : Pattern) : Prop :=
  ∃ x, p.expr = .ofOperand x ∧ x.placeholder? = none ∧ (Expr.ofOperand x).bare = .ofOperand x

namespace Standard

theorem mem_standard {entry : Entry} (h : entry ∈ Registry.standard.entries) :
    entry = fusedEntry ∨ (∃ op, entry = binaryEntry op) ∨ ∀ p ∈ entry.patterns, p.IsShort := by
  have hshort : ∀ {x : Operand}, x.placeholder? = none → (Expr.ofOperand x).bare = .ofOperand x →
      ∀ p ∈ [Pattern.ofExpr (.ofOperand x)], p.IsShort := by
    rintro x hx hb p hp
    cases List.mem_singleton.1 hp
    exact ⟨x, rfl, hx, hb⟩
  simp only [Registry.standard, control, operators, arrays, workers, List.mem_append, List.mem_map, List.mem_cons,
    List.not_mem_nil, or_false] at h
  rcases h with ((((h | rfl) | ⟨op, -, rfl⟩ | h) | h) | rfl) | h
  · rcases h with rfl | rfl <;> exact .inr (.inr (hshort rfl rfl))
  · exact .inl rfl
  · exact .inr (.inl ⟨op, rfl⟩)
  · rcases h with rfl | rfl <;> exact .inr (.inr (hshort rfl rfl))
  · rcases h with rfl | rfl | rfl | rfl | rfl <;> exact .inr (.inr (hshort rfl rfl))
  · exact .inr (.inr (hshort (by decide) rfl))
  · rcases h with rfl | rfl | rfl <;> exact .inr (.inr (hshort rfl rfl))

theorem binaryEntry_mem {op : Operator} (h : op ≠ .not) : binaryEntry op ∈ Registry.standard.entries := by
  have hop : op ∈ Operator.binary := by
    rw [← Operator.precedence_pos_iff]
    cases op <;> first | exact absurd rfl h | decide
  simp only [Registry.standard, operators, List.mem_append, List.mem_map]
  exact .inl (.inl (.inl (.inr (.inl ⟨op, hop, rfl⟩))))

end Standard

theorem capture?_binaryEntry (op : Operator) (c : Expr) :
    (Standard.binaryEntry op).capture? c = (Pattern.ofExpr (.binary (.ident "_1") op (.ident "_2"))).capture? c := by
  show [_].findSome? _ = _
  rw [List.findSome?_cons]
  cases Pattern.capture? _ c <;> rfl

section

variable {c : Expr} (long : c.isChain = true) (steady : (Cursor.start c).Steady)

include long steady

/-- **The pattern of an operator cuts a chain at that operator**, and accepts nothing else. -/
theorem capture?_binary (op : Operator) (caps : Captures) :
    (Pattern.ofExpr (.binary (.ident "_1") op (.ident "_2"))).capture? c = some caps ↔
      ∃ a b, c.CutAt op a b ∧ caps = ⟨[("_1", [a.bare]), ("_2", [b.bare])]⟩ := by
  have h1 : (Pattern.ofExpr (.binary (.ident "_1") op (.ident "_2"))).binds "_1" = true := rfl
  have h2 : (Pattern.ofExpr (.binary (.ident "_1") op (.ident "_2"))).binds "_2" = true := rfl
  rw [Pattern.capture?_eq_some]
  generalize hp : Pattern.ofExpr (.binary (.ident "_1") op (.ident "_2")) = p at h1 h2
  rw [show p.expr = ⟨.ident "_1", [⟨op, .ident "_2"⟩]⟩ by rw [← hp]; rfl,
    matchExpr_chain _ rfl (Expr.placeholder?_of_isChain long), Expr.bare_of_isChain long]
  show matchChain _ ⟨none, .ident "_1", [⟨op, .ident "_2"⟩]⟩ (Cursor.start c) _ = _ ↔ _
  rw [matchChain_hole_step _ (h := ⟨"_1", .single⟩) (by decide) (by decide) rfl steady]
  have hfloor : max ((Option.map Operator.precedence none).getD 0) op.precedence = op.precedence := Nat.zero_max _
  simp only [hfloor, Pattern.keepOwn_eq_true h1]
  constructor
  · rintro ⟨seg, y, ys, _, hc, hseg, ⟨-, rfl⟩, hm⟩
    rw [matchChain_hole_last _ (h := ⟨"_2", .single⟩) (by decide) (by decide) (steady.behind seg hc),
      Pattern.keepOwn_eq_true h2] at hm
    obtain ⟨hys, -, rfl⟩ := hm
    obtain ⟨first, rest⟩ := c
    exact ⟨⟨first, seg⟩, ⟨y, ys⟩, ⟨by rw [show rest = _ from hc], hseg, hys⟩, rfl⟩
  · rintro ⟨⟨x, xs⟩, ⟨y, ys⟩, cut, rfl⟩
    have hsize := cut.size_lt
    obtain ⟨rfl, hxs, hys⟩ := cut
    refine ⟨xs, y, ys, _, rfl, hxs, ⟨Expr.bare_beq_eq_false hsize.1, rfl⟩, ?_⟩
    rw [matchChain_hole_last _ (h := ⟨"_2", .single⟩) (by decide) (by decide) (steady.behind xs rfl),
      Pattern.keepOwn_eq_true h2]
    exact ⟨hys, Expr.bare_beq_eq_false hsize.2, rfl⟩

/-- **The fused pattern cuts a chain at a product and a sum behind it.** -/
theorem capture?_fused (caps : Captures) :
    Standard.fusedPattern.capture? c = some caps ↔
      ∃ a b d, c.CutFused a b d ∧ caps = ⟨[("_a", [a.bare]), ("_b", [b.bare]), ("_c", [d.bare])]⟩ := by
  have h1 : Standard.fusedPattern.binds "_a" = true := rfl
  have h2 : Standard.fusedPattern.binds "_b" = true := rfl
  have h3 : Standard.fusedPattern.binds "_c" = true := rfl
  rw [Pattern.capture?_eq_some]
  generalize hp : Standard.fusedPattern = p at h1 h2 h3
  rw [show p.expr = ⟨.ident "_a", [⟨.mul, .ident "_b"⟩, ⟨.add, .ident "_c"⟩]⟩ by rw [← hp]; rfl,
    matchExpr_chain _ rfl (Expr.placeholder?_of_isChain long), Expr.bare_of_isChain long]
  show matchChain _ ⟨none, .ident "_a", [⟨.mul, .ident "_b"⟩, ⟨.add, .ident "_c"⟩]⟩ (Cursor.start c) _ = _ ↔ _
  rw [matchChain_hole_step _ (h := ⟨"_a", .single⟩) (by decide) (by decide) rfl steady]
  simp only [Pattern.keepOwn_eq_true h1]
  constructor
  · rintro ⟨seg, y, ys, _, hc, hseg, ⟨-, rfl⟩, hm⟩
    have hsteady := steady.behind seg hc
    rw [matchChain_hole_step _ (h := ⟨"_b", .single⟩) (by decide) (by decide) rfl hsteady] at hm
    simp only [Pattern.keepOwn_eq_true h2] at hm
    obtain ⟨seg', z, zs, _, hys, hseg', ⟨-, rfl⟩, hm⟩ := hm
    rw [matchChain_hole_last _ (h := ⟨"_c", .single⟩) (by decide) (by decide)
      (hsteady.behind seg' hys), Pattern.keepOwn_eq_true h3] at hm
    obtain ⟨hzs, -, rfl⟩ := hm
    obtain ⟨first, rest⟩ := c
    refine ⟨⟨first, seg⟩, ⟨y, seg'⟩, ⟨z, zs⟩, ⟨?_, hseg, hseg', hzs⟩, rfl⟩
    rw [show rest = _ from hc, show ys = _ from hys]
  · rintro ⟨⟨x, xs⟩, ⟨y, ys⟩, ⟨z, zs⟩, cut, rfl⟩
    have hsize := cut.size_lt
    obtain ⟨rfl, hxs, hys, hzs⟩ := cut
    have hsteady := steady.behind xs rfl
    refine ⟨xs, y, _, _, rfl, hxs, ⟨Expr.bare_beq_eq_false hsize.1, rfl⟩, ?_⟩
    rw [matchChain_hole_step _ (h := ⟨"_b", .single⟩) (by decide) (by decide) rfl hsteady]
    simp only [Pattern.keepOwn_eq_true h2]
    refine ⟨ys, z, zs, _, rfl, hys, ⟨Expr.bare_beq_eq_false hsize.2.1, rfl⟩, ?_⟩
    rw [matchChain_hole_last _ (h := ⟨"_c", .single⟩) (by decide) (by decide)
      (hsteady.behind ys rfl), Pattern.keepOwn_eq_true h3]
    exact ⟨hzs, Expr.bare_beq_eq_false hsize.2.2, rfl⟩

/-- **A pattern of one operand accepts no chain.** -/
theorem capture?_short {p : Pattern} (hp : p.IsShort) : p.capture? c = none := by
  obtain ⟨x, hexpr, hx, hbare⟩ := hp
  apply Pattern.capture?_eq_none
  have hhole : (Expr.ofOperand x).placeholder? = none := by
    unfold Expr.placeholder?
    rw [hbare]
    exact hx
  rw [hexpr, matchExpr_chain _ hhole (Expr.placeholder?_of_isChain long), Expr.bare_of_isChain long, hbare]
  refine matchChain_short _ hx (fun h => ?_) steady
  unfold Expr.isChain at long
  rw [show c.rest = [] from h] at long
  cases long

theorem capture?_of_short {entry : Entry} (hp : ∀ p ∈ entry.patterns, p.IsShort) : entry.capture? c = none :=
  List.findSome?_eq_none_iff.2 (fun p h => capture?_short long steady (hp p h))

theorem capture?_fusedEntry (caps : Captures) :
    Standard.fusedEntry.capture? c = some caps ↔ Standard.fusedPattern.capture? c = some caps := by
  have hcall : Pattern.capture? (.ofExpr (.call "fma" [.ident "_a", .ident "_b", .ident "_c"])) c = none :=
    capture?_short long steady ⟨_, rfl, rfl, rfl⟩
  show [Standard.fusedPattern, _].findSome? _ = _ ↔ _
  rw [List.findSome?_cons]
  cases Standard.fusedPattern.capture? c with
  | some _ => rfl
  | none =>
    rw [List.findSome?_cons, hcall]
    rfl

/-- **What the standard registry makes of a chain**: a cut at its loosest operator, or a product and a sum. -/
theorem find?_chain {entry : Entry} {caps : Captures} (h : Registry.standard.find? c = some (entry, caps)) :
    (∃ op a b, entry = Standard.binaryEntry op ∧ c.CutAt op a b ∧
      caps = ⟨[("_1", [a.bare]), ("_2", [b.bare])]⟩) ∨
    (∃ a b d, entry = Standard.fusedEntry ∧ c.CutFused a b d ∧
      caps = ⟨[("_a", [a.bare]), ("_b", [b.bare]), ("_c", [d.bare])]⟩) := by
  obtain ⟨entry', hmem, h'⟩ := List.exists_of_findSome?_eq_some h
  obtain ⟨caps', hcap, heq⟩ := Option.map_eq_some_iff.1 h'
  cases heq
  rcases Standard.mem_standard hmem with rfl | ⟨op, rfl⟩ | hshort
  · rw [capture?_fusedEntry long steady, capture?_fused long steady] at hcap
    obtain ⟨a, b, d, cut, rfl⟩ := hcap
    exact .inr ⟨a, b, d, rfl, cut, rfl⟩
  · rw [capture?_binaryEntry, capture?_binary long steady] at hcap
    obtain ⟨a, b, cut, rfl⟩ := hcap
    exact .inl ⟨op, a, b, rfl, cut, rfl⟩
  · rw [capture?_of_short long steady hshort] at hcap
    cases hcap

/-- **A product and a sum behind it are fused**, before any operator is tried. -/
theorem find?_fused {a b d : Expr} (cut : c.CutFused a b d) : Registry.standard.find? c =
    some (Standard.fusedEntry, ⟨[("_a", [a.bare]), ("_b", [b.bare]), ("_c", [d.bare])]⟩) := by
  have missed : ∀ {entry : Entry} {x : Operand}, entry.patterns = [.ofExpr (.ofOperand x)] → x.placeholder? = none →
      (Expr.ofOperand x).bare = .ofOperand x → entry.capture? c = none := by
    intro entry x patterns hx hbare
    refine capture?_of_short long steady (fun p hp => ?_)
    rw [patterns, List.mem_singleton] at hp
    exact ⟨x, by rw [hp]; rfl, hx, hbare⟩
  have fused := (capture?_fusedEntry long steady _).2 ((capture?_fused long steady _).2 ⟨a, b, d, cut, rfl⟩)
  have hif : Standard.ifEntry.capture? c = none := missed rfl rfl rfl
  have herror : Standard.errorEntry.capture? c = none := missed rfl rfl rfl
  show ([Standard.ifEntry, Standard.errorEntry, Standard.fusedEntry] ++ _).findSome? _ = _
  simp only [List.cons_append, List.findSome?_cons, hif, herror, fused, Option.map_none, Option.map_some]

end

/-- **Two operands around an operator are always settled.** -/
theorem find?_pair {x y : Operand} {op : Operator} (hop : op ≠ .not) (steady : (Cursor.start ⟨x, [⟨op, y⟩]⟩).Steady) :
    (Registry.standard.find? ⟨x, [⟨op, y⟩]⟩).isSome = true := by
  have hcut : Expr.CutAt ⟨x, [⟨op, y⟩]⟩ op ⟨x, []⟩ ⟨y, []⟩ := ⟨rfl, (fun l hl => by cases hl), (fun l hl => by cases hl)⟩
  have hcap := (capture?_binary rfl steady op _).2 ⟨_, _, hcut, rfl⟩
  rw [← capture?_binaryEntry] at hcap
  refine List.findSome?_isSome_iff.2 ⟨Standard.binaryEntry op, Standard.binaryEntry_mem hop, ?_⟩
  rw [hcap]
  rfl

end ChainCalc
