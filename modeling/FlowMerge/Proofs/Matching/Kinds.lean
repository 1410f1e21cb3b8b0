import FlowMerge.Proofs.Matching.Seed
import FlowMerge.Proofs.Matching.Twins

namespace FlowMerge

namespace Tree

variable {t : Tree} {x : NodeId}

theorem not_mem_leaves_of_inner (h : x ∈ t.innerNodes) : x ∉ t.leaves := by
  intro hl
  have hinner := (mem_innerNodes.1 h).2.2
  have hleaf := (mem_leaves.1 hl).2.2
  rw [isInner, Bool.and_eq_true] at hinner
  rw [isLeaf, hinner.2, Bool.not_true, Bool.and_false] at hleaf
  cases hleaf

theorem not_mem_leaves_of_property (h : t.isControlFlow x = false) : x ∉ t.leaves := by
  intro hl
  have hleaf := (mem_leaves.1 hl).2.2
  rw [isLeaf, h, Bool.false_and] at hleaf
  cases hleaf

theorem not_mem_leaves_root (t : Tree) : root ∉ t.leaves := fun h ↦ (mem_leaves.1 h).2.1 rfl

theorem WellFormed.nodup_leaves (w : t.WellFormed) : t.leaves.Nodup := w.nodup_live.filter _

end Tree

namespace Matching

open FlowMerge.Tree

variable {α : Type} [Score α] {m : Matching} {n o : NodeId} {old new : Tree}
  {measure : Comparator α} {threshold : α} {R : NodeId → NodeId → Prop}

theorem hasNew_iff : m.hasNew n = true ↔ ∃ o, m.old? n = some o := Option.isSome_iff_exists

theorem hasOld_iff : m.hasOld o = true ↔ ∃ n, m.new? o = some n := Option.isSome_iff_exists

theorem Within.reduce (h : Within R m) (hR : ∀ n, ∀ o ∈ m.candidates n, R n o) :
    Within R (m.reduce (container (α := α) old new)) :=
  reduce_induction h fun _ n o h' ho ↦ h'.link (hR n o (mem_of_container ho))

def withLeaves (measure : Comparator α) (threshold : α) (byLabel : Bool) (old new : Tree) :
    Matching := linkLeaves measure threshold byLabel old new (linkRoots .empty)

variable {byLabel : Bool}

theorem oneToOne_withLeaves : (withLeaves measure threshold byLabel old new).OneToOne :=
  OneToOne.empty.linkRoots.linkLeaves byLabel

theorem candidates_withLeaves (n : NodeId) :
    (withLeaves measure threshold byLabel old new).candidates n = [] := by
  rw [candidates, withLeaves, proposals_linkLeaves]
  rfl

theorem within_withLeaves :
    Within (fun n o ↦ (n = root ∧ o = root) ∨ (n ∈ new.leaves ∧ o ∈ old.leaves))
      (withLeaves measure threshold byLabel old new) :=
  (Within.empty.link (.inl ⟨rfl, rfl⟩)).linkLeaves byLabel fun _ hn _ ho ↦ .inr ⟨hn, ho⟩

end Matching

end FlowMerge
