import FlowMerge.Proofs.Merge.Outcome
import FlowMerge.Proofs.Merge.Uncontested

namespace FlowMerge.Merge

open FlowMerge.Tree

variable {base : Tree} {start : Merge} {s t x y : NodeId} {n : Nat}

def image (m : Merge) (s : NodeId) : NodeId := (m.counterpart? s).getD root

/-- A merge into a branch that left the base as it was is about to begin. -/
structure Solo (n : Nat) (base : Tree) (start : Merge) : Prop where
  edited : Edited n base start.source
  untouched : Untouched n base start.target
  aligned : Aligned n start.source start.target start.matching
  pending : start.conflicts.pending = []
  resolved : start.conflicts.resolved = []
  dropped : start.dropped = []

namespace Solo

variable (h : Solo n base start)
include h

theorem ready : Ready n base.parent? start :=
  ⟨h.edited.toBranch, h.untouched.branch, h.aligned, h.pending, h.resolved⟩

theorem replayed : Replayed n base.parent? start start.source.live.tail start.mergePlacement :=
  replayed_mergePlacement h.edited h.untouched h.aligned h.pending h.dropped

theorem old?_image (hx : x ∈ start.source.live) :
    start.mergePlacement.matching.old? x = some (start.mergePlacement.image x) := by
  have htied : ∃ t, start.mergePlacement.matching.old? x = some t := by
    refine (h.replayed.tied x).2 ⟨hx, ?_⟩
    by_cases hr : x = root
    · exact .inl (hr ▸ h.edited.root_lt)
    · exact .inr (h.edited.wellFormed.mem_live_tail.2 ⟨hx, hr⟩)
  obtain ⟨t, ht⟩ := htied
  have hcounterpart : start.mergePlacement.counterpart? x = some t := ht
  rw [image, hcounterpart]
  exact ht

theorem mem_live_of_tied (hxt : start.mergePlacement.matching.old? x = some t) :
    x ∈ start.source.live := ((h.replayed.tied x).1 ⟨t, hxt⟩).1

theorem eq_of_tied (hxt : start.mergePlacement.matching.old? x = some t) (ht : t < n) : x = t := by
  have hb := h.replayed.aligned.base x t hxt
  rw [h.replayed.branch.base?, if_pos ht] at hb
  exact ((base?_eq_some h.edited.toBranch).1 hb).1

/-- What a node of branch A stands for hangs in the target below nodes of branch A only. -/
theorem mem_live_of_above (hxt : start.mergePlacement.matching.old? x = some y)
    (hty : start.mergePlacement.target.Above t y) (ht : t < n) : t ∈ start.source.live := by
  have w := h.edited.wellFormed
  have hxl := h.mem_live_of_tied hxt
  have hseen : ∀ z, start.source.Above z x → z = root ∨ z ∈ start.source.live.tail := by
    intro z hz
    by_cases hr : z = root
    · exact .inl hr
    · exact .inr (w.mem_live_tail.2 ⟨w.above_live hxl hz, hr⟩)
  obtain ⟨z, -, hz⟩ := h.replayed.above h.edited hseen hxt hty
  exact h.eq_of_tied hz ht ▸ h.mem_live_of_tied hz

theorem uncontested (hxt : start.mergePlacement.matching.old? x = some t) :
    start.mergePlacement.Uncontested x t := by
  have hr := h.replayed
  have hxl := h.mem_live_of_tied hxt
  have htl := (hr.aligned.live x t hxt).2
  by_cases hxn : x < n
  · -- a base node is tied to itself, and the target has not been edited
    obtain rfl := hr.eq_of_lt h.edited hxt hxn
    have hboth : start.mergePlacement.bothInserted t t = false := by
      rw [bothInserted, hr.source, h.edited.known t hxl hxn, Bool.false_and]
    obtain ⟨y, hy, hrecords⟩ := h.edited.records t hxl hxn
    obtain ⟨hbefore, hafter⟩ := h.edited.unambiguous t hxl hxn
    have hupdates : start.mergePlacement.sourceUpdates t t = y.updates := by
      rw [sourceUpdates, hboth, if_neg Bool.false_ne_true, hr.source, hy]
      rfl
    have hcontent : start.mergePlacement.target.content t = base.content t :=
      (hr.content t hxn).trans (h.untouched.content t)
    refine .edited (hr.branch.wellFormed.live_lt htl) hboth ?_ ?_ ?_ ?_
    · obtain ⟨z, hz, hu⟩ := hr.updates t hxn
      rw [hz]
      exact hu
    · rwa [hupdates, hcontent, hr.source]
    · rwa [hcontent]
    · rwa [hr.source]
  · -- a new node is tied to its copy
    have hle := Nat.le_of_not_lt hxn
    have htn : n ≤ t := by
      rw [← base?_eq_none hr.branch, ← hr.aligned.base x t hxt]
      exact (base?_eq_none h.edited.toBranch).2 hle
    have hboth : start.mergePlacement.bothInserted x t = true := by
      rw [bothInserted, hr.source, h.edited.inserted x hxl hle, hr.branch.inserted t htl htn]
      rfl
    have hcontent := hr.copies x t hle hxt
    refine .settled ?_ ?_
    · rw [sourceUpdates, hboth, if_pos rfl, hr.source, hcontent, Content.diffFields_self]
    · rw [hr.source, hcontent]
      exact Content.same_refl _

theorem takenOver : TakenOver start.mergePlacement.pairs start.mergePlacement
    start.mergePlacement.mergeContent := by
  refine takenOver_foldl (fun p hp ↦ h.uncontested (mem_pairs.1 hp).2) (nodup_pairs ?_ ?_)
  · exact h.replayed.source ▸ h.edited.wellFormed
  · exact h.replayed.aligned.oneToOne

theorem isNil_of_doomed (ht : t ∈ start.mergePlacement.mergeContent.doomed)
    (hty : start.mergePlacement.target.Above t y) (hy : y < start.mergePlacement.target.size) :
    isNil start.mergePlacement.mergeContent.target y = true := by
  have hr := h.replayed
  obtain ⟨-, -, htn, hts⟩ := h.ready.mem_doomed.1 ht
  have hfree : ∀ x, start.mergePlacement.matching.old? x ≠ some y := fun x hx ↦
    hts (h.mem_live_of_above hx hty htn)
  have hyn : y < n := by
    by_contra hle
    obtain ⟨x, hx⟩ := hr.onto y (Nat.le_of_not_lt hle) hy
    exact hfree x hx
  have hys : y ∉ start.source.live := fun hys ↦ hfree y (hr.old?_of_lt h.edited hys hyn)
  have hnot : y ∉ start.mergePlacement.pairs.map Prod.snd := by
    intro hmem
    obtain ⟨p, hp, rfl⟩ := List.mem_map.1 hmem
    exact hfree p.1 (mem_pairs.1 hp).2
  obtain ⟨z, hz, hu⟩ := hr.updates y hyn
  have hmark := hr.unmarked y hyn fun hseen ↦ hys (List.mem_of_mem_tail hseen)
  rw [mark, hz] at hmark
  rw [isNil, h.takenOver.delta? y hnot, hz, Option.any_some, Delta.isNil, Delta.isUpdate, hu]
  exact Bool.and_eq_true_iff.2 ⟨beq_iff_eq.2 hmark, rfl⟩

theorem resolved_run : start.run.conflicts.resolved = [] := by
  have hw := Reworded.mergeContent start.mergePlacement
  have w := h.replayed.branch.wellFormed
  rw [h.ready.resolved_run]
  refine List.eq_nil_iff_forall_not_mem.2 fun c hc ↦ ?_
  rcases h.ready.cleared.logged c hc with hc | ⟨t, ht, hch, -⟩
  · rw [h.takenOver.calm, h.replayed.pending] at hc
    cases hc
  · obtain ⟨htl, -, htn, -⟩ := h.ready.mem_doomed.1 ht
    have hlt : t < start.mergePlacement.mergeContent.target.size :=
      hw.target.shape.size ▸ h.replayed.branch.lt_size htn
    obtain ⟨y, hty, hy⟩ := (changedInTarget_iff h.ready.reworded.1.wellFormed hlt).1 hch
    rw [hw.target.shape.above] at hty
    have hyl := w.mem_live.2 ((w.mem_live.1 ((h.replayed.live t (h.untouched.branch.lt_size htn)).2
      htl)).trans hty)
    rw [h.isNil_of_doomed ht hty (w.live_lt hyl)] at hy
    cases hy

theorem image_live (hx : x ∈ start.source.live) :
    start.mergePlacement.image x ∈ start.mergePlacement.mergeContent.mergeDeletions.target.live := by
  have hw := Reworded.mergeContent start.mergePlacement
  have hold := h.old?_image hx
  refine (h.ready.cleared.live _).2 ⟨?_, fun d hd hdx ↦ ?_⟩
  · rw [hw.target.shape.live]
    exact (h.replayed.aligned.live x _ hold).2
  · obtain ⟨-, -, hdn, hds⟩ := h.ready.mem_doomed.1 hd
    exact hds (h.mem_live_of_above hold (hw.target.shape.above.1 hdx) hdn)

theorem children_image (hx : x ∈ start.source.live) :
    start.mergePlacement.mergeContent.mergeDeletions.target.children (start.mergePlacement.image x) =
      (start.source.children x).map start.mergePlacement.image := by
  have hr := h.replayed
  have ws := h.edited.wellFormed
  have hw := Reworded.mergeContent start.mergePlacement
  have hold := h.old?_image hx
  have hlined := hr.lined x _ hold
  have hall : (start.source.children x).filter (settled n start.source start.source.live.tail) =
      start.source.children x := by
    refine List.filter_eq_self.2 fun c hc ↦ settled_of_mem ?_
    exact ws.mem_live_tail.2 ⟨ws.child_live hx hc, ws.child_ne_root (ws.mem_children.1 hc)⟩
  rw [Lined, hall] at hlined
  rw [h.ready.cleared.children _ (h.image_live hx), hw.target.shape.children, ← hlined]
  refine filter_eq_map_filterMap fun c hc ↦ ?_
  have hpar := hr.branch.wellFormed.mem_children.1 hc
  have hcr := hr.branch.wellFormed.child_ne_root hpar
  have hcl := hr.branch.wellFormed.child_live (hr.aligned.live x _ hold).2 hc
  cases hnew : start.mergePlacement.matching.new? c with
  | none =>
    refine .inl ⟨?_, by rw [standsFor?, hnew]; rfl⟩
    -- a child without a counterpart is one that the source has deleted, and the sweep takes it
    have hfree : ∀ x, start.mergePlacement.matching.old? x ≠ some c := fun x hx ↦ by
      rw [(hr.aligned.oneToOne x c).1 hx] at hnew
      cases hnew
    have hcn : c < n := by
      by_contra hle
      obtain ⟨x, hx⟩ := hr.onto c (Nat.le_of_not_lt hle) (hr.branch.wellFormed.live_lt hcl)
      exact hfree x hx
    rw [Bool.not_eq_false', List.contains_iff_mem]
    refine h.ready.mem_doomed.2 ⟨?_, hcr, hcn, fun hcs ↦ hfree c (hr.old?_of_lt h.edited hcs hcn)⟩
    exact (hr.live c (h.untouched.branch.lt_size hcn)).1 hcl
  | some z =>
    -- a child with one stays, as its counterpart is live
    have hzc := (hr.aligned.oneToOne z c).2 hnew
    have hzl := h.mem_live_of_tied hzc
    have hzr : z ≠ root := by
      rintro rfl
      exact hcr (hr.eq_of_lt h.edited hzc h.edited.root_lt)
    refine .inr ⟨z, ?_, ?_, Option.some_inj.1 ((h.old?_image hzl).symm.trans hzc)⟩
    · rw [Bool.not_eq_true', Bool.eq_false_iff, ne_eq, List.contains_iff_mem]
      intro hd
      obtain ⟨-, -, hcn, hcs⟩ := h.ready.mem_doomed.1 hd
      exact hcs (h.mem_live_of_above hzc .refl hcn)
    · exact standsFor?_eq_some.2 ⟨hnew, settled_of_mem (ws.mem_live_tail.2 ⟨hzl, hzr⟩)⟩

theorem mirrors_run : Mirrors start.mergePlacement.image start.source start.run.tree := by
  have hal := alike_run start
  refine ⟨⟨?_, fun x hx ↦ ?_⟩, fun x hx ↦ ?_⟩
  · have hroot := h.old?_image h.edited.wellFormed.root_mem_live
    exact h.replayed.eq_of_lt h.edited hroot h.edited.root_lt
  · rw [hal.children, h.children_image hx]
  · have hpair : (x, start.mergePlacement.image x) ∈ start.mergePlacement.pairs :=
      mem_pairs.2 ⟨h.replayed.source ▸ hx, h.old?_image hx⟩
    have hsame := h.takenOver.same _ hpair
    rw [h.replayed.source] at hsame
    rwa [hal.content, h.ready.cleared.content]

end Solo

end FlowMerge.Merge
