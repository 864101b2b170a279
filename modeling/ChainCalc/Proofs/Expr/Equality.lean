import ChainCalc.Expr.Basic
/-!
# Equality of expressions is decided

The matcher takes numbers that compare equal for one; `Expr.same` does not, and what it finds the same is equal.
-/
namespace ChainCalc

deriving instance DecidableEq for Literal

mutual

def Operand.same : Operand → Operand → Bool
  | .lit a, .lit b => decide (a = b)
  | .ident a, .ident b => a == b
  | .call f xs, .call g ys => f == g && Expr.sameAll xs ys
  | .paren a, .paren b => a.same b
  | .unary f x, .unary g y => f == g && x.same y
  | _, _ => false

def Expr.same : Expr → Expr → Bool
  | ⟨x, xs⟩, ⟨y, ys⟩ => x.same y && Link.sameAll xs ys

def Link.sameAll : List Link → List Link → Bool
  | [], [] => true
  | ⟨f, x⟩ :: xs, ⟨g, y⟩ :: ys => f == g && x.same y && Link.sameAll xs ys
  | _, _ => false

def Expr.sameAll : List Expr → List Expr → Bool
  | [], [] => true
  | x :: xs, y :: ys => x.same y && Expr.sameAll xs ys
  | _, _ => false

end

mutual

theorem Operand.same_iff : ∀ {x y : Operand}, x.same y = true ↔ x = y
  | .lit a, y => by cases y <;> simp [Operand.same]
  | .ident a, y => by cases y <;> simp [Operand.same]
  | .call f xs, y => by
    cases y with
    | call g ys => simp [Operand.same, @Expr.sameAll_iff xs ys]
    | _ => simp [Operand.same]
  | .paren a, y => by
    cases y with
    | paren b => simp [Operand.same, @Expr.same_iff a b]
    | _ => simp [Operand.same]
  | .unary f x, y => by
    cases y with
    | unary g y => simp [Operand.same, @Operand.same_iff x y]
    | _ => simp [Operand.same]

theorem Expr.same_iff : ∀ {a b : Expr}, a.same b = true ↔ a = b
  | ⟨x, xs⟩, ⟨y, ys⟩ => by simp [Expr.same, @Operand.same_iff x y, @Link.sameAll_iff xs ys]

theorem Link.sameAll_iff : ∀ {xs ys : List Link}, Link.sameAll xs ys = true ↔ xs = ys
  | [], ys => by cases ys <;> simp [Link.sameAll]
  | ⟨f, x⟩ :: xs, ys => by
    cases ys with
    | nil => simp [Link.sameAll]
    | cons l ys =>
      obtain ⟨g, y⟩ := l
      simp [Link.sameAll, @Operand.same_iff x y, @Link.sameAll_iff xs ys]

theorem Expr.sameAll_iff : ∀ {xs ys : List Expr}, Expr.sameAll xs ys = true ↔ xs = ys
  | [], ys => by cases ys <;> simp [Expr.sameAll]
  | x :: xs, ys => by
    cases ys with
    | nil => simp [Expr.sameAll]
    | cons y ys => simp [Expr.sameAll, @Expr.same_iff x y, @Expr.sameAll_iff xs ys]

end

instance : DecidableEq Expr := fun _ _ => decidable_of_iff _ Expr.same_iff

end ChainCalc
