import FlowMerge.Proofs.Matching.Twins

namespace FlowMerge

namespace Tree

variable {t : Tree} {a l x : NodeId}

/-- The root is control flow, and no property has control flow below it. -/
structure IsProcess (t : Tree) : Prop where
  wellFormed : t.WellFormed
  root : t.isControlFlow root = true
  properties : ∀ x ∈ t.live, t.isControlFlow x = false → ∀ c ∈ t.children x,
    t.isControlFlow c = false

namespace IsProcess

variable (h : t.IsProcess) (hx : x ∈ t.live)
include h hx

theorem parent (hcf : t.isControlFlow x = true) (hp : t.parent? x = some a) :
    a ∈ t.live ∧ t.isControlFlow a = true := by
  have ha := h.wellFormed.parent_live hx hp
  refine ⟨ha, ?_⟩
  by_contra hprop
  rw [h.properties a ha (Bool.eq_false_iff.2 hprop) x (h.wellFormed.mem_children.2 hp)] at hcf
  cases hcf

theorem above (hcf : t.isControlFlow x = true) (ha : t.Above a x) : t.isControlFlow a = true := by
  induction ha with
  | refl => exact hcf
  | @tail b c _ hbc ih =>
    obtain ⟨hb, hbcf⟩ := h.parent hx hcf hbc
    exact ih hb hbcf

omit hx in
theorem exists_leaf (hcf : t.isControlFlow x = true) : ∃ l, t.Above x l ∧ t.isLeaf l = true := by
  induction x using h.wellFormed.down_induction with
  | _ x ih =>
    rcases isLeaf_or_isInner hcf with hl | hi
    · exact ⟨x, .refl, hl⟩
    · obtain ⟨c, hc, hccf⟩ := List.any_eq_true.1 (Bool.and_eq_true_iff.1 hi).2
      have hp := h.wellFormed.mem_children.1 hc
      obtain ⟨l, hl, hleaf⟩ := ih c hc hccf
      exact ⟨l, hl.head hp, hleaf⟩

end IsProcess

end Tree

namespace Matching

open Score Score.Lawful FlowMerge.Tree

variable {α : Type} [Score α] {m : Matching} {t : Tree} {x : NodeId}

theorem SelfTied.empty : SelfTied .empty :=
  ⟨.empty, fun s t h ↦ by simp [old?, Matching.empty] at h⟩

theorem hasNew_empty : hasNew .empty x = false := by
  simp [hasNew, old?, Matching.empty]

structure TiesControlFlow (t : Tree) (m : Matching) : Prop where
  selfTied : m.SelfTied
  hasNew_iff : ∀ x, m.hasNew x = true ↔ x ∈ t.live ∧ t.isControlFlow x = true

namespace TiesControlFlow

theorem pairsLive (h : m.TiesControlFlow t) : PairsLive t t m := by
  intro n o hno
  have he := h.selfTied.eq n o hno
  rw [he] at hno ⊢
  have hn := ((h.hasNew_iff n).1 (h.selfTied.old?_iff.1 hno)).1
  exact ⟨hn, hn⟩

variable (hp : t.IsProcess)
include hp

theorem propagate (h : m.TiesControlFlow t) :
    ∀ x ∈ t.live, (m.propagate t t).old? x = some x := by
  have w := hp.wellFormed
  obtain ⟨hspread, hbelow⟩ := h.selfTied.propagate (.refl t) w h.pairsLive
  intro x hx
  rw [hspread.selfTied.old?_iff]
  induction x using w.up_induction with
  | _ x ih =>
    by_cases hcf : t.isControlFlow x = true
    · exact hspread.mono x ((h.hasNew_iff x).2 ⟨hx, hcf⟩)
    · have hr : x ≠ root := by
        rintro rfl
        exact hcf hp.root
      obtain ⟨p, hpx, hpl⟩ := w.exists_parent_of_live hx hr
      have hc := w.mem_children.2 hpx
      rw [Bool.not_eq_true] at hcf
      by_cases hpcf : t.isControlFlow p = true
      · exact hbelow p ((h.hasNew_iff p).2 ⟨hpl, hpcf⟩) hpcf x hc hcf
      · refine hspread.below p (ih p hpx hpl) ?_ x hc hcf
        rw [Bool.eq_false_iff]
        exact fun hnew ↦ hpcf ((h.hasNew_iff p).1 hnew).2

theorem of_leaves_inner (h : m.SelfTied)
    (hnew : ∀ x, m.hasNew x = true ↔ x = root ∨ x ∈ t.leaves ∨ x ∈ t.innerNodes) :
    m.TiesControlFlow t := by
  refine ⟨h, fun x ↦ (hnew x).trans ⟨fun hk ↦ ?_, fun ⟨hx, hcf⟩ ↦
    (root_or_leaf_or_inner hx).2 (.inr hcf)⟩⟩
  have hx : x ∈ t.live := by
    rcases hk with rfl | hl | hi
    · exact hp.wellFormed.root_mem_live
    · exact (mem_leaves.1 hl).1
    · exact (mem_innerNodes.1 hi).1
  refine ⟨hx, ?_⟩
  rcases (root_or_leaf_or_inner hx).1 hk with rfl | hcf
  · exact hp.root
  · exact hcf

end TiesControlFlow

theorem bucket_self [Lawful α] {thresholds : Thresholds α} (hp : t.IsProcess)
    (hleaf : lt zero thresholds.leaf = true) (hinner : lt zero thresholds.inner = true) :
    ∀ x ∈ t.live, (bucket Comparator.process thresholds t t .empty).old? x = some x := by
  obtain ⟨hl, hlmem⟩ := (SelfTied.empty.link root).linkLeaves (.refl t) hleaf true
  obtain ⟨hi, himem⟩ := hl.linkInner (.refl t) hp.wellFormed hinner fun x hx ↦
    (hlmem x).2 (.inr hx)
  refine (TiesControlFlow.of_leaves_inner hp hi fun x ↦ ?_).propagate hp
  rw [himem, hlmem, SelfTied.empty.hasNew_link, hasNew_empty]
  simp [or_assoc]

end Matching

end FlowMerge
