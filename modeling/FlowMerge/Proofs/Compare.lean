import FlowMerge.Compare
import FlowMerge.Proofs.Score
import FlowMerge.Proofs.Sequence.Longest
import FlowMerge.Proofs.Tree.Store

namespace FlowMerge

namespace Tree.Alike

variable {t u : Tree} (h : Alike t u)
include h

theorem isControlFlow : t.isControlFlow = u.isControlFlow :=
  funext fun x ↦ by rw [Tree.isControlFlow, h.content, Tree.isControlFlow]

theorem fingerprintBytesWithin (n : Nat) (x : NodeId) :
    t.fingerprintBytesWithin n x = u.fingerprintBytesWithin n x := by
  induction n generalizing x with
  | zero => rfl
  | succ n ih =>
    have he : t.fingerprintBytesWithin n = u.fingerprintBytesWithin n := funext ih
    rw [Tree.fingerprintBytesWithin, Tree.fingerprintBytesWithin, h.content, h.children,
      h.isControlFlow, he]

theorem fingerprint (x : NodeId) : t.fingerprint x = u.fingerprint x := by
  rw [Tree.fingerprint, fingerprintBytes, h.size, h.fingerprintBytesWithin, Tree.fingerprint,
    fingerprintBytes]

end Tree.Alike

namespace Comparator

open Score Score.Lawful

variable {α : Type} [Score α] {t u : Tree} {a b : NodeId} {e : α}

theorem surroundings_self (h : Tree.Alike t u) : (surroundings t a u a : α) = zero := by
  rw [surroundings, h.parent?]
  cases u.parent? a with
  | none => rfl
  | some p =>
    dsimp only
    rw [Tree.label, h.content, Tree.label, if_pos rfl]

variable [Lawful α]

theorem process_self (h : Tree.Alike t u) : (process t a u a : α) = zero := by
  have hc : (content t a u a : α) = zero := by
    rw [content, Tree.label, h.content, Tree.label, if_neg (not_not.2 rfl), h.fingerprint,
      if_pos rfl]
  rw [process, hc, surroundings_self h, ratio_mul_zero (by decide), ratio_mul_zero (by decide),
    zero_add_zero]

theorem nonneg_ratio_getD (v w : NameSet) (he : Nonneg e) :
    Nonneg ((NameSet.ratio v w).getD e) := by
  rw [NameSet.ratio]
  split
  · exact he
  · next hne => exact nonneg_capped (nonneg_ratio (Nat.pos_of_ne_zero hne))

theorem nonneg_endpointDistance (x y : List Char) :
    Nonneg (endpointDistance x y : α) ∧ Nonneg (one - endpointDistance x y : α) := by
  rw [endpointDistance]
  split
  · exact ⟨nonneg_zero, nonneg_sub Nat.one_pos (Nat.zero_le 1)⟩
  · next hne =>
    have hpos := Nat.pos_of_ne_zero hne
    have hle : Sequence.commonLength x y ≤ max x.length y.length :=
      Nat.le_trans (Sequence.commonLength_le x y) (Nat.le_max_left _ _)
    exact ⟨nonneg_sub hpos hle, nonneg_sub_sub hpos hle⟩

theorem nonneg_endpoint : Nonneg (endpoint t a u b : α) := by
  obtain ⟨hd, hrest⟩ := nonneg_endpointDistance (α := α) (endpointText (t.content a))
    (endpointText (u.content b))
  have hmethod : Nonneg (if propertyText? t a "method" = propertyText? u b "method" then
      (endpointDistance (endpointText (t.content a)) (endpointText (u.content b)) : α)
      else endpointDistance (endpointText (t.content a)) (endpointText (u.content b)) +
        (one - endpointDistance (endpointText (t.content a)) (endpointText (u.content b))) *
          ratio 1 2) := by
    split
    · exact hd
    · exact nonneg_add hd (nonneg_mul (by decide) (by decide) hrest)
  rw [endpoint]
  split
  · exact nonneg_mul (by decide) (by decide) hmethod
  · exact hmethod

theorem nonneg_call : Nonneg (call t a u b : α) := by
  have he : Nonneg (endpoint t a u b : α) := nonneg_endpoint
  rw [call]
  refine nonneg_add (nonneg_add ?_ ?_) ?_
  · exact nonneg_ratio_mul (by decide) (by decide) he
  · exact nonneg_ratio_mul (by decide) (by decide) (nonneg_ratio_getD _ _ he)
  · exact nonneg_ratio_mul (by decide) (by decide) (nonneg_ratio_getD _ _ he)

theorem nonneg_manipulate : Nonneg (manipulate t a u b : α) := by
  rw [manipulate]
  refine nonneg_add ?_ ?_
  · exact nonneg_ratio_mul (by decide) (by decide) (nonneg_ratio_getD _ _ nonneg_one)
  · exact nonneg_ratio_mul (by decide) (by decide)
      (nonneg_ratio_getD _ _ (nonneg_ratio_getD _ _ nonneg_one))

theorem nonneg_waiting : Nonneg (waiting t a u b : α) := by
  rw [waiting]
  split
  · exact nonneg_zero
  · exact nonneg_ratio (by decide)

theorem nonneg_content : Nonneg (content t a u b : α) := by
  rw [content]
  split_ifs
  · exact nonneg_one
  · exact nonneg_zero
  · exact nonneg_call
  · exact nonneg_manipulate
  · exact nonneg_waiting
  · exact nonneg_ratio_getD _ _ nonneg_zero
  · exact nonneg_zero

theorem nonneg_surroundings : Nonneg (surroundings t a u b : α) := by
  rw [surroundings]
  split
  · split
    · exact nonneg_zero
    · exact nonneg_one
  · exact nonneg_zero

theorem nonneg_process : Nonneg (process t a u b : α) :=
  nonneg_add (nonneg_ratio_mul (by decide) (by decide) nonneg_content)
    (nonneg_ratio_mul (by decide) (by decide) nonneg_surroundings)

end Comparator

end FlowMerge
