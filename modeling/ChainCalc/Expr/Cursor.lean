import ChainCalc.Expr.Size
/-!
# Cursors — a place in a chain

A cursor stands on one operand of a chain and knows the operator in front of it and the links behind it.  The segment at
a cursor is what binds more tightly than a given floor: the operand and the links after it, up to the first one whose
operator does not.
-/
namespace ChainCalc

structure Cursor where
  before : Option Operator
  here : Operand
  after : List Link

namespace Cursor

def start (e : Expr) : Cursor := ⟨none, e.first, e.rest⟩

def size (c : Cursor) : Nat := c.here.size + Link.sizes c.after

/-- The precedence of the operators on either side, whichever is higher; none counts as zero. -/
def floor (c : Cursor) : Nat :=
  max ((c.before.map Operator.precedence).getD 0) ((c.after.head?.map (fun l => l.op.precedence)).getD 0)

def segment (c : Cursor) (floor : Nat) : Expr :=
  ⟨c.here, c.after.takeWhile (fun l => floor < l.op.precedence)⟩

def walk (floor : Nat) (before : Option Operator) (here : Operand) : List Link → Cursor
  | [] => ⟨before, here, []⟩
  | ⟨op, operand⟩ :: rest =>
    if floor < op.precedence then walk floor (some op) operand rest else ⟨before, here, ⟨op, operand⟩ :: rest⟩

def segmentEnd (c : Cursor) (floor : Nat) : Cursor := walk floor c.before c.here c.after

/-- The operand here may be repeated over further operands joined by the operator in front of it. -/
def repeats (c : Cursor) (op : Operator) : Bool := c.here.isEllipsis && c.before == some op

theorem size_walk_le (floor : Nat) (before : Option Operator) (here : Operand) (after : List Link) :
    (walk floor before here after).size ≤ here.size + Link.sizes after := by
  induction after generalizing before here with
  | nil => exact Nat.le_refl _
  | cons l rest ih =>
    obtain ⟨op, operand⟩ := l
    rw [walk]
    split
    · have := ih (some op) operand
      simp only [Link.sizes]
      omega
    · exact Nat.le_refl _

theorem size_segmentEnd_le (c : Cursor) (floor : Nat) : (c.segmentEnd floor).size ≤ c.size :=
  size_walk_le floor c.before c.here c.after

theorem size_start (e : Expr) : (start e).size = e.size := by
  cases e
  rw [Expr.size]
  rfl

end Cursor

end ChainCalc
