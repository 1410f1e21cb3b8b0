namespace FlowMerge

/-- The numbers that dissimilarities are measured in: doubles when the program runs, and exact
rationals where a law of the arithmetic is stated. -/
class Score (α : Type) extends Add α, Sub α, Mul α, Div α where
  ratio : Nat → Nat → α
  lt : α → α → Bool
  beq : α → α → Bool
  belowTop : α → Bool

namespace Score

variable {α : Type} [Score α]

def zero : α := ratio 0 1

def one : α := ratio 1 1

def atLeast (x y : α) : Bool := lt y x || beq y x

def capped (x : α) : α := if lt x one then x else one

def inUnit (x : α) : Bool := atLeast x zero && atLeast one x

def sum (xs : List α) : α := xs.foldl (· + ·) zero

end Score

instance : Score Float where
  ratio m n := Float.ofNat m / Float.ofNat n
  lt x y := decide (x < y)
  beq x y := x == y
  belowTop x := decide (x < 1.0 / 0.0)

instance : Score Rat where
  ratio m n := (m : Rat) / (n : Rat)
  lt x y := decide (x < y)
  beq x y := x == y
  belowTop _ := true

end FlowMerge
