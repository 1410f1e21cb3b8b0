import FlowMerge.Score
import Mathlib.Algebra.Order.Field.Rat
import Mathlib.Tactic.Positivity

namespace FlowMerge.Score

variable {α : Type} [Score α] {x y : α} {m n : Nat}

structure Nonneg (x : α) : Prop where
  not_lt : lt x zero = false
  comparable : lt zero x = true ∨ beq zero x = true

/-- The arithmetic of shares: quotients of counts, at most one. -/
class Lawful (α : Type) [Score α] : Prop where
  zero_add_zero : (zero : α) + zero = zero
  ratio_mul_zero : ∀ {m n}, 0 < n → (ratio m n : α) * zero = zero
  ratio_self : ∀ {n}, 0 < n → (ratio n n : α) = one
  one_sub_one : (one : α) - one = zero
  nonneg_ratio : ∀ {m n}, 0 < n → Nonneg (ratio m n : α)
  nonneg_sub : ∀ {m n}, 0 < n → m ≤ n → Nonneg ((one : α) - ratio m n)
  nonneg_sub_sub : ∀ {m n}, 0 < n → m ≤ n → Nonneg ((one : α) - (one - ratio m n))
  nonneg_add : ∀ {x y : α}, Nonneg x → Nonneg y → Nonneg (x + y)
  nonneg_mul : ∀ {x : α} {m n}, 0 < m → 0 < n → Nonneg x → Nonneg (x * ratio m n)
  nonneg_ratio_mul : ∀ {x : α} {m n}, 0 < m → 0 < n → Nonneg x → Nonneg (ratio m n * x)

open Lawful

theorem nonneg_zero [Lawful α] : Nonneg (zero : α) := nonneg_ratio Nat.one_pos

theorem nonneg_one [Lawful α] : Nonneg (one : α) := nonneg_ratio Nat.one_pos

theorem nonneg_capped [Lawful α] (hx : Nonneg x) : Nonneg (capped x) := by
  rw [capped]
  split
  · exact hx
  · exact nonneg_one

/-- What lies below a value lies below all values that are at least that. -/
class Ordered (α : Type) [Score α] : Prop where
  lt_of_lt_of_atLeast : ∀ {x y z : α}, lt x y = true → atLeast z y = true → lt x z = true

instance : Ordered Rat where
  lt_of_lt_of_atLeast {x y z} hxy hyz := by
    have hxy : x < y := of_decide_eq_true hxy
    rcases Bool.or_eq_true_iff.1 hyz with hyz | hyz
    · exact decide_eq_true (hxy.trans (of_decide_eq_true hyz))
    · exact decide_eq_true (beq_iff_eq.1 hyz ▸ hxy)

/-- No number reaches infinity. -/
class NeverInfinite (α : Type) [Score α] : Prop where
  belowTop : ∀ x : α, belowTop x = true

instance : NeverInfinite Rat := ⟨fun _ ↦ rfl⟩

theorem ratio_eq (m n : Nat) : (ratio m n : Rat) = m / n := rfl

theorem zero_eq : (zero : Rat) = 0 := by simp [zero, ratio]

theorem one_eq : (one : Rat) = 1 := by simp [one, ratio]

theorem capped_le_one (x : Rat) : capped x ≤ 1 := by
  rw [capped, one_eq]
  split
  · next h => exact (of_decide_eq_true h).le
  · exact le_rfl

theorem nonneg_iff {x : Rat} : Nonneg x ↔ 0 ≤ x := by
  constructor
  · intro h
    have hn := h.not_lt
    rw [zero_eq] at hn
    exact not_lt.1 (of_decide_eq_false hn)
  · intro h
    refine ⟨?_, ?_⟩
    · rw [zero_eq]
      exact decide_eq_false (not_lt.2 h)
    · rw [zero_eq]
      rcases h.lt_or_eq with hlt | heq
      · exact .inl (decide_eq_true hlt)
      · exact .inr (beq_iff_eq.2 heq)

theorem zero_lt {x : Rat} (h : 0 < x) : lt zero x = true := by
  simpa [zero, ratio, lt] using h

theorem atLeast_zero {x : Rat} (h : 0 < x) : atLeast zero x = false := by
  simp [atLeast, lt, beq, zero_eq, h.le, h.ne']

instance : Lawful Rat := by
  have hle {m n : Nat} (hn : 0 < n) (hmn : m ≤ n) : (ratio m n : Rat) ≤ 1 := by
    have hn' : (0 : Rat) < n := Nat.cast_pos.2 hn
    exact (div_le_one hn').2 (Nat.cast_le.2 hmn)
  have hpos (m n : Nat) : (0 : Rat) ≤ ratio m n := div_nonneg m.cast_nonneg n.cast_nonneg
  constructor
  case zero_add_zero => rw [zero_eq, add_zero]
  case ratio_mul_zero =>
    intro m n _
    rw [zero_eq, mul_zero]
  case ratio_self =>
    intro n hn
    rw [one_eq]
    exact div_self (Nat.cast_ne_zero.2 (Nat.ne_of_gt hn))
  case one_sub_one => rw [zero_eq, sub_self]
  case nonneg_ratio => exact fun _ ↦ nonneg_iff.2 (hpos _ _)
  case nonneg_sub =>
    intro m n hn hmn
    rw [nonneg_iff, one_eq]
    exact sub_nonneg.2 (hle hn hmn)
  case nonneg_sub_sub =>
    intro m n _ _
    rw [nonneg_iff, sub_sub_cancel]
    exact hpos m n
  case nonneg_add => exact fun hx hy ↦ nonneg_iff.2 (add_nonneg (nonneg_iff.1 hx) (nonneg_iff.1 hy))
  case nonneg_mul => exact fun _ _ hx ↦ nonneg_iff.2 (mul_nonneg (nonneg_iff.1 hx) (hpos _ _))
  case nonneg_ratio_mul => exact fun _ _ hx ↦ nonneg_iff.2 (mul_nonneg (hpos _ _) (nonneg_iff.1 hx))

end FlowMerge.Score
