import ChainCalc.Expr.Basic
/-!
# The size of an expression — how much there is to walk over

Every operand counts one, and one more for each operator or pair of parentheses around it.  Taking parentheses off never
makes an expression larger (`Expr.size_bare_le`).
-/
namespace ChainCalc

mutual

def Operand.size : Operand → Nat
  | .lit _ => 1
  | .ident _ => 1
  | .call _ args => 1 + Expr.sizes args
  | .paren inner => 1 + inner.size
  | .unary _ operand => 1 + operand.size

def Expr.size : Expr → Nat
  | ⟨first, rest⟩ => first.size + Link.sizes rest

def Link.sizes : List Link → Nat
  | [] => 0
  | ⟨_, operand⟩ :: rest => operand.size + Link.sizes rest

def Expr.sizes : List Expr → Nat
  | [] => 0
  | e :: es => e.size + Expr.sizes es

end

theorem Operand.size_pos (x : Operand) : 0 < x.size := by
  cases x <;> simp only [Operand.size] <;> omega

theorem Expr.size_pos (e : Expr) : 0 < e.size := by
  cases e with
  | mk first rest =>
    have := first.size_pos
    simp only [Expr.size]
    omega

theorem Expr.size_ofOperand (x : Operand) : (Expr.ofOperand x).size = x.size := by
  simp [Expr.ofOperand, Expr.size, Link.sizes]

theorem Operand.size_bare_le (x : Operand) : x.bare.size ≤ x.size := by
  fun_induction Operand.bare x with
  | case1 x ih =>
    simp only [Operand.size, Expr.size, Link.sizes]
    omega
  | case2 x _ => exact Nat.le_refl _

theorem Expr.size_bare_le (e : Expr) : e.bare.size ≤ e.size := by
  fun_induction Expr.bare e with
  | case1 e ih =>
    simp only [Expr.size, Operand.size, Link.sizes] at ih ⊢
    omega
  | case2 e _ => exact Nat.le_refl _

end ChainCalc
