import ChainCalc.Expr.Cursor
/-!
# Matching — two expressions walked side by side

A placeholder on either side captures what stands against it on the other and reports it.  In chains a placeholder takes
a segment: as much as binds more tightly than the operators around the placeholder.  An ellipsis among arguments takes
one argument at a time, and in a chain it takes further operands joined by the operator in front of it.

Whoever asks for a match is told of each capture and may refuse it, which ends the match; `Attempt σ` is a match under
way, with the state `σ` of the one who asks.
-/
namespace ChainCalc

/-- Something tried on a state: whether it went well, and the state after it. -/
abbrev Attempt (σ : Type) := σ → Bool × σ

namespace Attempt

variable {σ : Type}

def verdict (b : Bool) : Attempt σ := fun s => (b, s)

def andThen (p q : Attempt σ) : Attempt σ := fun s =>
  match p s with
  | (true, s) => q s
  | (false, s) => (false, s)

end Attempt

open Attempt

/-- What is done with a capture: the placeholder's name and what it stands for, without outer parentheses. -/
abbrev OnCapture (σ : Type) := String → Expr → Attempt σ

/-- Nothing is left, or only an ellipsis, which may take nothing. -/
def exhausted : List Expr → Bool
  | [] => true
  | [e] => e.ellipsis?.isSome
  | _ => false

def trailingEllipsis : List Link → Bool
  | [l] => l.operand.isEllipsis
  | _ => false

section

variable {σ : Type} (report : OnCapture σ)

/-- The name of a call against another; either may be a placeholder. -/
def matchName (p c : String) : Attempt σ :=
  match Placeholder.classify p with
  | some h => report h.name (.ident c)
  | none =>
    match Placeholder.classify c with
    | some h => report h.name (.ident p)
    | none => verdict (p == c)

mutual

def matchExpr (p c : Expr) : Attempt σ :=
  match p.placeholder? with
  | some h => report h.name c.bare
  | none =>
    match c.placeholder? with
    | some h => report h.name p.bare
    | none => matchChain (.start p.bare) (.start c.bare)
termination_by 5 * (p.size + c.size) + 3
decreasing_by
  have := p.size_bare_le
  have := c.size_bare_le
  simp only [Cursor.size_start]
  omega

def matchChain (p c : Cursor) : Attempt σ :=
  match p.here.placeholder? with
  | some h => andThen (report h.name (c.segment p.floor).bare) (matchRest p (c.segmentEnd p.floor))
  | none =>
    match c.here.placeholder? with
    | some h => andThen (report h.name (p.segment c.floor).bare) (matchRest (p.segmentEnd c.floor) c)
    | none => andThen (matchOperand p.here c.here) (matchRest p c)
termination_by 5 * (p.size + c.size) + 2
decreasing_by
  · have := c.size_segmentEnd_le p.floor
    omega
  · have := p.size_segmentEnd_le c.floor
    omega
  · simp only [Cursor.size]
    omega
  · omega

def matchRest (p c : Cursor) : Attempt σ :=
  match p, c with
  | ⟨_, _, []⟩, ⟨_, _, []⟩ => verdict true
  | ⟨pb, ph, ⟨a, x⟩ :: xs⟩, ⟨cb, ch, ⟨b, y⟩ :: ys⟩ =>
    if a = b then matchChain ⟨some a, x, xs⟩ ⟨some b, y, ys⟩
    else if Cursor.repeats ⟨pb, ph, ⟨a, x⟩ :: xs⟩ b then matchChain ⟨pb, ph, ⟨a, x⟩ :: xs⟩ ⟨some b, y, ys⟩
    else if Cursor.repeats ⟨cb, ch, ⟨b, y⟩ :: ys⟩ a then matchChain ⟨some a, x, xs⟩ ⟨cb, ch, ⟨b, y⟩ :: ys⟩
    else verdict false
  | ⟨pb, ph, []⟩, ⟨_, _, ⟨b, y⟩ :: ys⟩ =>
    if Cursor.repeats ⟨pb, ph, []⟩ b then matchChain ⟨pb, ph, []⟩ ⟨some b, y, ys⟩
    else verdict (trailingEllipsis (⟨b, y⟩ :: ys))
  | ⟨_, _, ⟨a, x⟩ :: xs⟩, ⟨cb, ch, []⟩ =>
    if Cursor.repeats ⟨cb, ch, []⟩ a then matchChain ⟨some a, x, xs⟩ ⟨cb, ch, []⟩
    else verdict (trailingEllipsis (⟨a, x⟩ :: xs))
termination_by 5 * (p.size + c.size) + 1
decreasing_by
  all_goals
    simp only [Cursor.size, Link.sizes]
    have := Operand.size_pos ‹Operand›
    grind [Operand.size_pos]

def matchOperand (p c : Operand) : Attempt σ :=
  match p.placeholder? with
  | some h => report h.name (Expr.ofOperand c).bare
  | none =>
    match c.placeholder? with
    | some h => report h.name (Expr.ofOperand p).bare
    | none => matchBare p.bare c.bare
termination_by 5 * (p.size + c.size) + 1
decreasing_by
  have := p.size_bare_le
  have := c.size_bare_le
  omega

def matchBare (p c : Operand) : Attempt σ :=
  match p, c with
  | .ident a, .ident b => verdict (a == b)
  | .lit a, .lit b => verdict (a == b)
  | .call f xs, .call g ys => andThen (matchName report f g) (matchArgs xs ys)
  | .paren a, .paren b => matchExpr a b
  | .unary f x, .unary g y => if f = g then matchOperand x y else verdict false
  | _, _ => verdict false
termination_by 5 * (p.size + c.size)
decreasing_by
  all_goals
    simp only [Operand.size]
    omega

/-- Arguments against arguments, one by one; beside an ellipsis only the other list moves on. -/
def matchArgs (ps cs : List Expr) : Attempt σ :=
  match ps, cs with
  | p :: ps, c :: cs =>
    match p.ellipsis? with
    | some h => andThen (report h.name c.bare) (matchArgs (p :: ps) cs)
    | none =>
      match c.ellipsis? with
      | some h => andThen (report h.name p.bare) (matchArgs ps (c :: cs))
      | none => andThen (matchExpr p c) (matchArgs ps cs)
  | ps, cs => verdict (exhausted ps && exhausted cs)
termination_by 5 * (Expr.sizes ps + Expr.sizes cs) + 4
decreasing_by
  · have := c.size_pos
    simp only [Expr.sizes]
    omega
  · have := p.size_pos
    simp only [Expr.sizes]
    omega
  · simp only [Expr.sizes]
    omega
  · have := p.size_pos
    simp only [Expr.sizes]
    omega

end

end

end ChainCalc
