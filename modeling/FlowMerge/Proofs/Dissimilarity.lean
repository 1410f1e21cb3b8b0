import FlowMerge.Proofs.Compare
import Mathlib.Tactic.Linarith

namespace FlowMerge

open Score

namespace NameSet

variable {α : Type} [Score α]

theorem differences_comm (v w : NameSet) : differences v w = differences w v :=
  Nat.add_comm _ _

theorem ratio_comm (v w : NameSet) : (ratio v w : Option α) = ratio w v := by
  rw [ratio, ratio, Nat.max_comm, differences_comm]

end NameSet

namespace Comparator

section Symmetry

variable {α : Type} [Score α] (t : Tree) (a : NodeId) (u : Tree) (b : NodeId)

theorem surroundings_comm : (surroundings t a u b : α) = surroundings u b t a := by
  rw [surroundings, surroundings]
  cases t.parent? a with
  | none => cases u.parent? b <;> rfl
  | some p =>
    cases u.parent? b with
    | none => rfl
    | some q =>
      simp only [eq_comm (a := t.label p)]

theorem endpointDistance_comm (x y : List Char) :
    (endpointDistance x y : α) = endpointDistance y x := by
  rw [endpointDistance, endpointDistance, Nat.max_comm, Sequence.commonLength_comm]

theorem sameDisplayLabel_comm : sameDisplayLabel t a u b = sameDisplayLabel u b t a := by
  rw [sameDisplayLabel, sameDisplayLabel]
  cases displayLabel? t a with
  | none => cases displayLabel? u b <;> rfl
  | some x =>
    cases displayLabel? u b with
    | none => rfl
    | some y =>
      by_cases h : x = y
      · rw [h]
      · dsimp only
        rw [beq_false_of_ne h, beq_false_of_ne (Ne.symm h), Bool.and_false, Bool.and_false]

theorem endpoint_comm : (endpoint t a u b : α) = endpoint u b t a := by
  rw [endpoint, endpoint, endpointDistance_comm, sameDisplayLabel_comm]
  simp only [eq_comm (a := propertyText? t a "method")]

theorem call_comm : (call t a u b : α) = call u b t a := by
  rw [call, call, endpoint_comm, NameSet.ratio_comm (t.usedVariables a).written,
    NameSet.ratio_comm (t.usedVariables a).read]

theorem manipulate_comm : (manipulate t a u b : α) = manipulate u b t a := by
  rw [manipulate, manipulate, NameSet.ratio_comm (t.usedVariables a).written,
    NameSet.ratio_comm (t.usedVariables a).read]

theorem condition_comm : (condition t a u b : α) = condition u b t a := by
  rw [condition, condition, NameSet.ratio_comm]

theorem waiting_comm : (waiting t a u b : α) = waiting u b t a := by
  rw [waiting, waiting]
  simp only [eq_comm (a := (t.content a).attr? "wait")]

theorem content_comm : (content t a u b : α) = content u b t a := by
  rw [content, content, call_comm, manipulate_comm, waiting_comm, condition_comm]
  by_cases h : t.label a = u.label b
  · simp only [h, eq_comm (a := t.fingerprint a)]
  · rw [if_pos h, if_pos (Ne.symm h)]

theorem process_comm : (process t a u b : α) = process u b t a := by
  rw [process, content_comm, surroundings_comm, process]

end Symmetry

variable {t u : Tree} {a b : NodeId}

theorem ratio_getD_le_one (v w : NameSet) {e : Rat} (he : e ≤ 1) :
    (NameSet.ratio v w).getD e ≤ 1 := by
  rw [NameSet.ratio]
  split
  · exact he
  · exact capped_le_one _

theorem endpointDistance_le_one (x y : List Char) : (endpointDistance x y : Rat) ≤ 1 := by
  have h := nonneg_iff.1 (nonneg_endpointDistance (α := Rat) x y).2
  rwa [one_eq, sub_nonneg] at h

theorem endpoint_le_one : (endpoint t a u b : Rat) ≤ 1 := by
  have hd := endpointDistance_le_one (endpointText (t.content a)) (endpointText (u.content b))
  rw [endpoint, one_eq, ratio_eq]
  split_ifs <;> linarith

theorem call_le_one : (call t a u b : Rat) ≤ 1 := by
  have he : (endpoint t a u b : Rat) ≤ 1 := endpoint_le_one
  have hw := ratio_getD_le_one (t.usedVariables a).written (u.usedVariables b).written he
  have hr := ratio_getD_le_one (t.usedVariables a).read (u.usedVariables b).read he
  simp only [call, ratio_eq]
  linarith

theorem manipulate_le_one : (manipulate t a u b : Rat) ≤ 1 := by
  have hw := ratio_getD_le_one (t.usedVariables a).written (u.usedVariables b).written le_rfl
  have hr := ratio_getD_le_one (t.usedVariables a).read (u.usedVariables b).read hw
  simp only [manipulate, ratio_eq, one_eq]
  linarith

theorem waiting_le_one : (waiting t a u b : Rat) ≤ 1 := by
  rw [waiting, zero_eq, ratio_eq]
  split_ifs <;> norm_num

theorem content_le_one : (content t a u b : Rat) ≤ 1 := by
  rw [content, zero_eq, one_eq]
  split_ifs
  · exact le_rfl
  · exact zero_le_one
  · exact call_le_one
  · exact manipulate_le_one
  · exact waiting_le_one
  · rw [condition, zero_eq]
    exact ratio_getD_le_one _ _ zero_le_one
  · exact zero_le_one

theorem surroundings_le_one : (surroundings t a u b : Rat) ≤ 1 := by
  rw [surroundings, zero_eq, one_eq]
  split
  · split <;> norm_num
  · exact zero_le_one

theorem process_le_one : (process t a u b : Rat) ≤ 1 := by
  have hc : (content t a u b : Rat) ≤ 1 := content_le_one
  have hs : (surroundings t a u b : Rat) ≤ 1 := surroundings_le_one
  rw [process, ratio_eq, ratio_eq]
  linarith

/-- What a measure of how little two nodes have in common has to keep to. -/
structure Dissimilarity (compare : Comparator Rat) (t : Tree) (a : NodeId) (u : Tree) (b : NodeId) :
    Prop where
  nonneg : 0 ≤ compare t a u b
  le_one : compare t a u b ≤ 1
  comm : compare t a u b = compare u b t a
  same : t.label a = u.label b → t.fingerprint a = u.fingerprint b →
    (∀ p q, t.parent? a = some p → u.parent? b = some q → t.label p = u.label q) →
      compare t a u b = 0
  other : t.label a ≠ u.label b → 9 / 10 ≤ compare t a u b

theorem surroundings_of_parents
    (h : ∀ p q, t.parent? a = some p → u.parent? b = some q → t.label p = u.label q) :
    (surroundings t a u b : Rat) = 0 := by
  rw [surroundings, ← zero_eq]
  split
  · next p q hp hq => rw [if_pos (h p q hp hq)]
  · rfl

/-- The measure for process models is a dissimilarity of any two nodes of any two trees. -/
theorem dissimilarity_process (t u : Tree) (a b : NodeId) : Dissimilarity process t a u b where
  nonneg := nonneg_iff.1 nonneg_process
  le_one := process_le_one
  comm := process_comm t a u b
  same hlabel hfingerprint hparents := by
    rw [process, surroundings_of_parents hparents, content, if_neg (not_not.2 hlabel),
      if_pos hfingerprint, zero_eq, mul_zero, mul_zero, add_zero]
  other hlabel := by
    have hs : (0 : Rat) ≤ surroundings t a u b := nonneg_iff.1 nonneg_surroundings
    rw [process, content, if_pos hlabel, one_eq, ratio_eq, ratio_eq]
    linarith

end Comparator

end FlowMerge
