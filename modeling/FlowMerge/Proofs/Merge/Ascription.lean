import FlowMerge.Merge.Basic
import FlowMerge.Proofs.Tree.Store

namespace FlowMerge

namespace Tree

variable {t u : Tree} {x : NodeId}

def provenance? (t : Tree) (x : NodeId) : Option Provenance :=
  (t.info? x).map MergeInfo.provenance

theorem provenance?_congr (h : t.overlay x = u.overlay x) : t.provenance? x = u.provenance? x := by
  rw [provenance?, info?, h, provenance?, info?]

theorem SameData.provenance? (h : SameData t u) (x : NodeId) :
    t.provenance? x = u.provenance? x := provenance?_congr (h.overlay x)

theorem provenance?_of_size_le (h : t.size ≤ x) : t.provenance? x = none := by
  rw [provenance?, info?, overlay_of_size_le h]
  rfl

variable (t : Tree)

theorem provenance?_modifyContent (id : NodeId) (f : Content → Content) (x : NodeId) :
    (t.modifyContent id f).provenance? x = t.provenance? x :=
  provenance?_congr (overlay_modifyContent t id f x)

theorem provenance?_modifyDelta (id : NodeId) (f : Delta → Delta) (x : NodeId) :
    (t.modifyDelta id f).provenance? x = t.provenance? x := by
  rw [provenance?, info?, overlay_modifyDelta, provenance?, info?]
  split
  · cases t.overlay x <;> rfl
  · rfl

theorem info?_modifyInfo (id : NodeId) (f : MergeInfo → MergeInfo) (x : NodeId) :
    (t.modifyInfo id f).info? x = if x = id then (t.info? x).map f else t.info? x := by
  by_cases hx : x < t.size
  · simp only [info?, overlay, modifyInfo, node_modify, hx, and_true]
    split
    · cases (t.node x).overlay <;> rfl
    · rfl
  · have hlt : (t.modifyInfo id f).size ≤ x := by
      rw [(sameShape_modifyInfo t id f).size]
      exact Nat.le_of_not_lt hx
    rw [info?, overlay_of_size_le hlt, info?, overlay_of_size_le (Nat.le_of_not_lt hx)]
    split <;> rfl

theorem provenance?_modifyInfo (id : NodeId) {f : MergeInfo → MergeInfo}
    (hf : ∀ i, (f i).provenance = i.provenance) (x : NodeId) :
    (t.modifyInfo id f).provenance? x = t.provenance? x := by
  rw [provenance?, info?_modifyInfo, provenance?]
  split
  · cases t.info? x with
    | none => rfl
    | some i => exact congrArg some (hf i)
  · rfl

theorem provenance?_alloc (c : Content) (a : Overlay) (x : NodeId) :
    (t.alloc c a).1.provenance? x =
      if x = t.size then a.info?.map MergeInfo.provenance else t.provenance? x := by
  rw [provenance?, info?, overlay_alloc]
  split <;> rfl

end Tree

namespace Merge

open FlowMerge.Tree

variable {P Q : NodeId → Prop} {u u' u'' : Tree} {x : NodeId}

/-- In `u'` the nodes in `P` are ascribed to branch A, and all others as they are in `u`. -/
structure Ascribes (P : NodeId → Prop) (u u' : Tree) : Prop where
  taken : ∀ x, P x → u'.provenance? x = (u.provenance? x).map fun _ ↦ .branchA
  kept : ∀ x, ¬ P x → u'.provenance? x = u.provenance? x

namespace Ascribes

theorem of_eq (h : ∀ x, u'.provenance? x = u.provenance? x) : Ascribes (fun _ ↦ False) u u' :=
  ⟨fun _ hx ↦ hx.elim, fun x _ ↦ h x⟩

theorem refl (u : Tree) : Ascribes (fun _ ↦ False) u u := of_eq fun _ ↦ rfl

theorem trans (h : Ascribes P u u') (h' : Ascribes Q u' u'') :
    Ascribes (fun x ↦ P x ∨ Q x) u u'' := by
  constructor
  · intro x hx
    by_cases hq : Q x
    · rw [h'.taken x hq]
      by_cases hp : P x
      · rw [h.taken x hp, Option.map_map]
        rfl
      · rw [h.kept x hp]
    · rw [h'.kept x hq, h.taken x (hx.resolve_right hq)]
  · intro x hx
    rw [h'.kept x fun hq ↦ hx (.inr hq), h.kept x fun hp ↦ hx (.inl hp)]

theorem congr (h : Ascribes P u u') (hPQ : ∀ x, P x ↔ Q x) : Ascribes Q u u' :=
  ⟨fun x hx ↦ h.taken x ((hPQ x).2 hx), fun x hx ↦ h.kept x fun hp ↦ hx ((hPQ x).1 hp)⟩

theorem after (h : Ascribes P u' u'') (h' : Ascribes (fun _ ↦ False) u u') : Ascribes P u u'' :=
  (h'.trans h).congr fun _ ↦ or_iff_right not_false

theorem before (h : Ascribes P u u') (h' : Ascribes (fun _ ↦ False) u' u'') : Ascribes P u u'' :=
  (h.trans h').congr fun _ ↦ or_iff_left not_false

theorem sameData (h : SameData u' u) : Ascribes (fun _ ↦ False) u u' := of_eq h.provenance?

theorem modifyDelta (u : Tree) (t : NodeId) (f : Delta → Delta) :
    Ascribes (fun _ ↦ False) u (u.modifyDelta t f) := of_eq (provenance?_modifyDelta u t f)

theorem markSubtree (u : Tree) (t : NodeId) (k : Mark) :
    Ascribes (fun _ ↦ False) u (u.markSubtree t k) :=
  List.foldlRecOn _ _ (refl u) fun u' h x _ ↦ h.before (modifyDelta u' x _)

theorem doubtContent (m : Merge) (t : NodeId) :
    Ascribes (fun _ ↦ False) m.target (m.doubtContent t).target := by
  refine of_eq fun x ↦ provenance?_modifyInfo m.target t ?_ x
  exact fun _ ↦ rfl

theorem doubtPlace (m : Merge) (t : NodeId) :
    Ascribes (fun _ ↦ False) m.target (m.doubtPlace t).target := by
  refine of_eq fun x ↦ provenance?_modifyInfo m.target t ?_ x
  exact fun _ ↦ rfl

theorem setProvenance (m : Merge) (t : NodeId) :
    Ascribes (· = t) m.target (m.setProvenance t .branchA).target := by
  have hinfo (x : NodeId) : (m.setProvenance t .branchA).target.provenance? x =
      ((m.target.modifyInfo t fun i ↦ { i with provenance := .branchA }).info? x).map
        MergeInfo.provenance := rfl
  constructor
  · intro x hx
    rw [hinfo, info?_modifyInfo, if_pos hx, provenance?]
    cases m.target.info? x <;> rfl
  · intro x hx
    rw [hinfo, info?_modifyInfo, if_neg hx, provenance?]

theorem setProvenances (m : Merge) (ts : List NodeId) :
    Ascribes (· ∈ ts) m.target (ts.foldl (fun m t ↦ m.setProvenance t .branchA) m).target := by
  induction ts generalizing m with
  | nil => exact (refl m.target).congr fun x ↦ (iff_false_intro List.not_mem_nil).symm
  | cons t ts ih =>
    have h := (setProvenance m t).trans (ih (m.setProvenance t .branchA))
    exact h.congr fun x ↦ List.mem_cons.symm

end Ascribes

end Merge

end FlowMerge
