import FlowMerge.Proofs.Merge.Annotated
import FlowMerge.Proofs.Merge.Insertions
import FlowMerge.Proofs.Merge.Relocation
import FlowMerge.Proofs.Merge.Survivors

namespace FlowMerge.Merge

open FlowMerge.Tree

variable {α : Type} [Score α] {base a b d u : Tree} {start m : Merge} {s t x y p : NodeId}
  {n : Nat} {up : NodeId → Option NodeId} {c : Content} {first : NodeId → Content} {us : Updates}
  {e : String × Update} {contested : String → Bool} {gone : List NodeId}

theorem isNil_of_updates {y : Delta} (hy : u.delta? x = some y) (hu : y.updates ≠ []) :
    isNil u x = false := by
  rw [isNil, hy, Option.any_some, Delta.isNil, Delta.isUpdate_iff.2 hu, Bool.not_true,
    Bool.and_false]

theorem mergeField_of_eq (h : (m.target.content t).field e.1 = e.2.new) :
    mergeField contested t m e = m := by
  rw [mergeField]
  exact if_pos h

theorem foldl_mergeField_of_eq (h : ∀ e ∈ us, (m.target.content t).field e.1 = e.2.new) :
    us.foldl (mergeField contested t) m = m := by
  induction us with
  | nil => rfl
  | cons e us ih =>
    rw [List.foldl_cons, mergeField_of_eq (h e List.mem_cons_self)]
    exact ih fun e' he' ↦ h e' (List.mem_cons_of_mem e he')

theorem ascribes_foldl_mergeField (m : Merge) (us : Updates) :
    Ascribes (fun x ↦ x = t ∧ ∃ e ∈ us, (m.target.content t).field e.1 ≠ e.2.new) m.target
      (us.foldl (mergeField contested t) m).target := by
  induction us generalizing m with
  | nil => exact (Ascribes.refl m.target).congr fun x ↦ by simp
  | cons e us ih =>
    rw [List.foldl_cons]
    by_cases he : (m.target.content t).field e.1 = e.2.new
    · rw [mergeField_of_eq he]
      exact (ih m).congr fun x ↦ by simp [he]
    · refine ((ascribes_mergeField contested t m e).trans (ih _)).congr fun x ↦ ?_
      refine ⟨fun h ↦ ⟨?_, e, List.mem_cons_self, he⟩, fun h ↦ .inl ⟨h.1, he⟩⟩
      exact h.elim And.left And.left

theorem updates_foldl_mergeField {y : Delta} (hy : m.target.delta? t = some y)
    (hd : y.updates.Departs c (m.target.content t)) (hus : ∀ e ∈ us, c.field e.1 ≠ e.2.new)
    (hsome : y.updates ≠ [] ∨ ∃ e ∈ us, (m.target.content t).field e.1 ≠ e.2.new) :
    ∃ z, (us.foldl (mergeField contested t) m).target.delta? t = some z ∧ z.updates ≠ [] := by
  induction us generalizing m y with
  | nil => exact ⟨y, hy, hsome.resolve_right fun ⟨e, he, _⟩ ↦ List.not_mem_nil he⟩
  | cons e us ih =>
    rw [List.foldl_cons]
    have hrest : ∀ e ∈ us, c.field e.1 ≠ e.2.new := fun e' he' ↦
      hus e' (List.mem_cons_of_mem e he')
    by_cases he : (m.target.content t).field e.1 = e.2.new
    · rw [mergeField_of_eq he]
      refine ih hy hd hrest (hsome.imp_right ?_)
      rintro ⟨e', he', hne⟩
      rcases List.mem_cons.1 he' with rfl | he'
      · exact absurd he hne
      · exact ⟨e', he', hne⟩
    · -- the first field that gets another value stays recorded
      have hq := (quiet_mergeField contested t m e).alike
      rw [if_neg he] at hq
      have hdelta : (mergeField contested t m e).target.delta? t =
          some (y.record e.1 ⟨(m.target.content t).field e.1, e.2.new⟩) := by
        rw [hq.delta?]
        refine (delta?_wrote ..).trans ?_
        rw [if_pos rfl, hy]
        rfl
      have hcontent : (mergeField contested t m e).target.content t =
          (m.target.content t).setField e.1 e.2.new := by
        rw [content_mergeField (lt_size_of_delta? hy), if_neg he]
      refine ih hdelta (hcontent.symm ▸ hd.record e.1 e.2.new) hrest (.inl ?_)
      exact hd.record_ne_nil e.1 e.2.new (hus e List.mem_cons_self)

theorem departed_ascribed (h : Departed n first d) (q : Provenance) :
    Departed n first (ascribed d q) := by
  intro x hx
  obtain ⟨y, hy, hd⟩ := h x hx
  exact ⟨y, delta?_ascribed d q hy, (content_ascribed d q x).symm ▸ hd⟩

theorem ascribes_mergeContent (m : Merge) : ∃ P, Ascribes P m.target m.mergeContent.target :=
  List.foldlRecOn _ _ (motive := fun m' : Merge ↦ ∃ P, Ascribes P m.target m'.target)
    ⟨_, .refl _⟩ fun m' ⟨_, h⟩ _ _ ↦ ⟨_, h.trans (ascribes_foldl_mergeField m' _)⟩

def Rewrites (start : Merge) (x : NodeId) : Prop :=
  ∃ s e, start.counterpart? s = some x ∧ e ∈ start.sourceUpdates s x ∧
    (start.target.content x).field e.1 ≠ e.2.new

namespace Ready

variable (h : Ready n up start)
include h

theorem mark_inserted_content (hx : x ∈ start.mergePlacement.target.live) (hn : n ≤ x) :
    isNil start.mergePlacement.mergeContent.target x = false := by
  refine isNil_of_mark ?_
  have hl : x ∈ start.mergePlacement.mergeContent.target.live := by
    rwa [(Reworded.mergeContent start.mergePlacement).target.shape.live]
  rw [h.reworded.1.inserted x hl hn]
  exact nofun

theorem sourceUpdates_eq (hst : start.matching.old? s = some x)
    (hm : Spared x start.mergePlacement m) :
    m.sourceUpdates s x = start.sourceUpdates s x := by
  have hp := h.placed
  obtain ⟨-, hx⟩ := h.aligned.live s x hst
  have hlt := h.target.wellFormed.live_lt hx
  have hsource : m.source = start.source := hm.source.trans hp.source
  have hcontent : m.target.content x = start.target.content x :=
    hm.content.trans (h.steady.content x hlt)
  have hmark : (m.target.mark x).isInsertion = (start.target.mark x).isInsertion := by
    rw [mark_eq_of_delta? hm.delta?, Bool.eq_iff_iff,
      hp.branch.isInsertion_iff ((hp.live x hlt).2 hx), h.target.isInsertion_iff hx]
  have hboth : m.bothInserted s x = start.bothInserted s x := by
    rw [bothInserted, hsource, hmark, bothInserted]
  rw [sourceUpdates, hboth, hsource, hcontent, sourceUpdates]

theorem isNil_of_rewritten (hA : Departed n first start.source)
    (hB : Departed n first start.target) (hst : start.matching.old? s = some x) (hx : x < n)
    (hm : Spared x start.mergePlacement m)
    (hm' : Spared x (m.mergeFields (s, x)) start.mergePlacement.mergeContent)
    (hnew : ∃ e ∈ start.sourceUpdates s x, (m.target.content x).field e.1 ≠ e.2.new) :
    isNil start.mergePlacement.mergeContent.target x = false := by
  obtain ⟨hsl, hxl⟩ := h.aligned.live s x hst
  have hsn : s < n := by
    by_contra hle
    exact Nat.not_lt_of_le (h.aligned.le_of_le h.source h.target hst (Nat.le_of_not_lt hle)) hx
  obtain rfl := h.aligned.eq_of_lt h.source h.target hst hsn
  obtain ⟨y, hy, hdy⟩ := hA x hx
  obtain ⟨z, hz, hdz⟩ := hB.steady h.steady x hx
  have hupdates : start.sourceUpdates x x = y.updates := by
    rw [sourceUpdates, bothInserted, h.source.known x hsl hx, Bool.false_and,
      if_neg Bool.false_ne_true, hy]
    rfl
  rw [← h.sourceUpdates_eq hst hm] at hnew
  have hus : ∀ e ∈ m.sourceUpdates x x, (first x).field e.1 ≠ e.2.new := by
    rw [h.sourceUpdates_eq hst hm, hupdates]
    intro e he
    rw [← hdy.old e he]
    exact hdy.changed e he
  obtain ⟨z', hz', hne⟩ := updates_foldl_mergeField (hm.delta?.trans hz)
    (hm.content.symm ▸ hdz) hus (.inr hnew)
  exact isNil_of_updates (hm'.delta?.trans hz') hne

theorem old?_start (hst : start.mergePlacement.matching.old? s = some x)
    (hx : x < start.target.size) : start.matching.old? s = some x := by
  cases hs : start.matching.old? s with
  | none => exact absurd (h.copied s x hst hs).1 (Nat.not_le_of_lt hx)
  | some t =>
    rw [h.placed.kept s t hs] at hst
    exact hst

theorem rewrites_iff (hst : start.matching.old? s = some x) : Rewrites start x ↔
    ∃ e ∈ start.sourceUpdates s x, (start.target.content x).field e.1 ≠ e.2.new := by
  constructor
  · rintro ⟨s', e, hst', he, hne⟩
    have hnew := (h.aligned.oneToOne s' x).1 hst'
    rw [(h.aligned.oneToOne s x).1 hst] at hnew
    obtain rfl := Option.some_inj.1 hnew
    exact ⟨e, he, hne⟩
  · rintro ⟨e, he, hne⟩
    exact ⟨s, e, hst, he, hne⟩

theorem handled_content (hA : Departed n first start.source) (hB : Departed n first start.target)
    (hx : x < start.target.size) : Handled (Rewrites start x) x start.mergePlacement.target
      start.mergePlacement.mergeContent.target := by
  have hp := h.placed
  -- a node without counterpart is spared, and any other has one turn
  by_cases htied : ∃ s, start.mergePlacement.matching.old? s = some x
  · obtain ⟨s, hst'⟩ := htied
    have hst := h.old?_start hst' hx
    obtain ⟨m, hm, hm', hsource, -⟩ := h.exists_turn_of_tied hst'
    have hcontent : m.target.content x = start.target.content x :=
      hm.content.trans (h.steady.content x hx)
    have hiff : Rewrites start x ↔
        ∃ e ∈ m.sourceUpdates s x, (m.target.content x).field e.1 ≠ e.2.new := by
      rw [h.sourceUpdates_eq hst hm, hcontent]
      exact h.rewrites_iff hst
    refine Handled.congr ⟨fun hnew ↦ ⟨?_, ?_⟩, fun hno ↦ ?_⟩ hiff.symm
    · rw [hm'.provenance?, ← hm.provenance?]
      exact (ascribes_foldl_mergeField m _).taken x ⟨rfl, hnew⟩
    · by_cases hn : n ≤ x
      · exact h.mark_inserted_content (hp.aligned.live s x hst').2 hn
      · rw [h.sourceUpdates_eq hst hm] at hnew
        exact h.isNil_of_rewritten hA hB hst (Nat.lt_of_not_le hn) hm hm' hnew
    · have hsame : m.mergeFields (s, x) = m := foldl_mergeField_of_eq fun e he ↦
        by_contra fun hne ↦ hno ⟨e, he, hne⟩
      rw [hsame] at hm'
      exact ⟨hm'.provenance?.trans hm.provenance?,
        isNil_congr (hm'.delta?.trans hm.delta?)⟩
  · have hspared : Spared x start.mergePlacement start.mergePlacement.mergeContent := by
      refine .foldl fun hin ↦ ?_
      obtain ⟨⟨s, t⟩, hmem, rfl⟩ := List.mem_map.1 hin
      exact htied ⟨s, (mem_pairs.1 hmem).2⟩
    refine .of_not ?_ hspared.provenance? hspared.delta?
    rintro ⟨s, -, hst, -⟩
    exact htied ⟨s, hp.kept s x hst⟩

end Ready

theorem ascribes_struck (m : Merge) (t : NodeId) :
    Ascribes (· ∈ m.target.preorder t) m.target (m.struck t).target := by
  have hset := Ascribes.setProvenances
    (m.modifyTarget fun tree ↦ tree.markSubtree t .deleted)
    ((m.target.markSubtree t .deleted).preorder t)
  have hafter := hset.after (.markSubtree m.target t .deleted)
  exact hafter.congr fun x ↦ by rw [(sameShape_markSubtree m.target t .deleted).preorder]

theorem target_condemned (m : Merge) (t : NodeId) : (m.condemned t).target = m.target := by
  rw [condemned]
  split <;> rfl

theorem ascribes_remove (m : Merge) (t p : NodeId) :
    Ascribes (· ∈ m.target.preorder t) m.target (m.remove t p).target := by
  have hstruck := ascribes_struck (m.condemned t) t
  rw [target_condemned] at hstruck
  rw [remove_eq, modifyTarget]
  generalize (m.condemned t).struck t = v at hstruck
  exact hstruck.before
    ((Ascribes.modifyDelta v.target p _).before (.sameData (sameData_detach _ t)))

theorem mark_remove (w : m.target.WellFormed) (ht : t < m.target.size) (hx : m.target.Above t x)
    (hd : m.target.delta? x ≠ none) : (m.remove t p).target.mark x = .deleted := by
  obtain ⟨y, hy⟩ := Option.ne_none_iff_exists'.1 hd
  have hstruck : ((m.condemned t).struck t).target.mark x = .deleted := by
    have hdelta := (quiet_struck (m.condemned t) t).alike.delta? x
    have hmarked := delta?_markSubtree (m.condemned t).target t .deleted x
    rw [target_condemned, if_pos ((w.mem_preorder ht).2 hx), hy] at hmarked
    rw [mark, hdelta, modifyTarget, target_condemned]
    dsimp only
    rw [hmarked]
    rfl
  rw [remove_eq, modifyTarget]
  generalize (m.condemned t).struck t = v at hstruck
  have hplace := delta?_modifyDelta v.target p
    (fun d ↦ { d with placeholders := d.placeholders ++ [t] }) x
  rw [(sameData_detach (v.target.addPlaceholder p t) t).mark, ← hstruck]
  split at hplace
  · exact mark_eq_of_map hplace fun _ ↦ rfl
  · exact mark_eq_of_delta? hplace

theorem handled_remove (w : m.target.WellFormed) (ht : t < m.target.size)
    (hd : m.target.Above t x → m.target.delta? x ≠ none) :
    Handled (m.target.Above t x) x m.target (m.remove t p).target := by
  have hasc := ascribes_remove m t p
  refine ⟨fun hx ↦ ⟨hasc.taken x ((w.mem_preorder ht).2 hx), isNil_of_mark ?_⟩, fun hx ↦ ⟨?_, ?_⟩⟩
  · rw [mark_remove w ht hx (hd hx)]
    exact nofun
  · exact hasc.kept x fun hm ↦ hx ((w.mem_preorder ht).1 hm)
  · exact (pruned_remove w ht p).isNil x hx

/-- To whom nodes are ascribed, and which of them are cut off, when the nodes in `gone` had their
turns. -/
structure Swept (start : Merge) (gone : List NodeId) (m : Merge) : Prop where
  steady : Steady start.target m.target
  handled : ∀ x, Handled (∃ d ∈ gone, start.target.Above d x) x start.target m.target
  parent? : ∀ x, x ∉ gone → m.target.parent? x = start.target.parent? x

namespace Swept

theorem refl (start : Merge) : Swept start [] start where
  steady := .refl _
  handled _ := .of_not (fun ⟨_, hd, _⟩ ↦ List.not_mem_nil hd) rfl rfl
  parent? _ _ := rfl

theorem turn (h : Swept start gone m) (hc : Cleared start gone m)
    (hB : Branch n up start.target) (hts : t ∈ start.target.live) (hr : t ≠ root)
    (hbefore : ∀ d ∈ gone, ¬ start.target.Above t d) : Swept start (gone ++ [t]) (prune m t) := by
  have w := hB.wellFormed
  rcases hc.prune_cases hr with ⟨ht, heq⟩ | ⟨ht, p, hp, heq⟩
  · rw [heq]
    -- `t` went out with a node above it, so that its own turn changes nothing
    have habove : ∃ d ∈ gone, start.target.Above d t := by
      by_contra hno
      exact ht ((hc.live t).2 ⟨hts, fun d hd hdt ↦ hno ⟨d, hd, hdt⟩⟩)
    obtain ⟨d, hd, hdt⟩ := habove
    refine ⟨h.steady, fun x ↦ (h.handled x).congr ⟨fun ⟨e, he, hex⟩ ↦ ?_, fun ⟨e, he, hex⟩ ↦ ?_⟩,
      fun x hx ↦ h.parent? x fun hin ↦ hx (List.mem_append_left _ hin)⟩
    · exact ⟨e, List.mem_append_left _ he, hex⟩
    · rcases List.mem_append.1 he with he | he
      · exact ⟨e, he, hex⟩
      · obtain rfl := List.mem_singleton.1 he
        exact ⟨d, hd, hdt.trans hex⟩
  · rw [heq]
    have hlt := hc.wellFormed.live_lt ht
    refine ⟨h.steady.trans (steady_remove m t p), fun x ↦ ?_, fun x hx ↦ ?_⟩
    · have hrecorded (hx : m.target.Above t x) : m.target.delta? x ≠ none := by
        have hxl : x ∈ start.target.live := w.mem_live.2
          ((w.mem_live.1 hts).trans (hc.above hx))
        obtain ⟨y, hy⟩ := hB.recorded x hxl
        obtain ⟨z, hz, -⟩ := h.steady.delta x (lt_size_of_delta? hy) y hy
        rw [hz]
        exact nofun
      refine ((h.handled x).trans (handled_remove hc.wellFormed hlt hrecorded)).congr ?_
      rw [hc.above_iff w ht hbefore]
      simp only [List.mem_append, List.mem_singleton, or_and_right, exists_or, exists_eq_left]
    · rw [List.mem_append, List.mem_singleton, not_or] at hx
      rw [(pruned_remove hc.wellFormed hlt p).parent?, if_neg hx.2, h.parent? x hx.1]

end Swept

theorem swept_mergeDeletions (hB : Branch n up start.target) :
    Swept start start.doomed start.mergeDeletions :=
  (removal_induction hB.wellFormed (.refl start) fun _ _ _ hc hts hr hbefore h ↦
    h.turn hc hB hts hr hbefore).2

theorem provenance?_disown (u : Tree) (x : NodeId) :
    (⟨u.nodes.map disown⟩ : Tree).provenance? x = if isNil u x = true then
      (u.provenance? x).map (fun q ↦ if q = .branchB then .neither else q)
      else u.provenance? x := by
  by_cases hx : x < u.size
  · have hn : (⟨u.nodes.map disown⟩ : Tree).node x = disown (u.node x) := by
      simp only [node, Array.getD_eq_getD_getElem?, Array.getElem?_map]
      rw [Array.getElem?_eq_getElem hx]
      rfl
    rw [provenance?, info?, overlay, hn, disown, isNil, delta?, provenance?, info?, overlay]
    split
    · cases (u.node x).overlay with
      | plain => rfl
      | changed y => rfl
      | merged y i =>
        by_cases hi : i.provenance = .branchB
        · simp [Overlay.mapInfo, Overlay.info?, hi]
        · simp [Overlay.mapInfo, Overlay.info?, hi]
    · rfl
  · have hle : u.size ≤ x := Nat.le_of_not_lt hx
    rw [provenance?_of_size_le, provenance?_of_size_le hle]
    · split <;> rfl
    · simpa only [size, Array.size_map] using hle

theorem provenance?_run (start : Merge) (x : NodeId) : start.run.tree.provenance? x =
    if isNil start.run.tree x = true then
      (start.mergePlacement.mergeContent.mergeDeletions.target.provenance? x).map
        (fun q ↦ if q = .branchB then .neither else q)
      else start.mergePlacement.mergeContent.mergeDeletions.target.provenance? x := by
  rw [isNil_congr ((alike_run start).delta? x), run, tree_finish]
  exact provenance?_disown _ x

/-- The merge took over a change of branch A to the node `x` of its outcome. -/
inductive Adopted (start : Merge) (x : NodeId) : Prop
  /-- Branch A moved the node, and it hangs below what stands for its parent in branch A. It was not
  branch B that brought it there. -/
  | moved (s ps q : NodeId) (tied : start.counterpart? s = some x)
      (mark : start.source.mark s = .movedHere) (parent : start.source.parent? s = some ps)
      (above : start.mergePlacement.counterpart? ps = some q)
      (place : start.run.tree.parent? x = some q)
      (news : ¬ (start.target.mark x = .movedHere ∧ start.target.parent? x = some q))
  | inserted (s : NodeId)
      (carried : Carried start.source start.counterpart? start.mergePlacement.counterpart? s x)
  | updated (fields : Rewrites start x)
  /-- The node went with one that only branch A deleted. -/
  | deleted (d k : NodeId) (live : d ∈ start.target.live) (base : base? start.target d = some k)
      (gone : ¬ Holds start.source k) (above : start.run.tree.Above d x)

/-- A node of the outcome is ascribed to the branch that its changes come from. -/
structure Attributed (start : Merge) (x : NodeId) : Prop where
  neither : start.run.tree.provenance? x = some .neither ↔ isNil start.run.tree x = true
  branchA : start.run.tree.provenance? x = some .branchA ↔ Adopted start x
  branchB : isNil start.run.tree x = false → ¬ Adopted start x →
    start.run.tree.provenance? x = some .branchB

theorem provenance?_ascribed (t : Tree) (q : Provenance) (hx : x < t.size) :
    (ascribed t q).provenance? x = some q := by
  rw [provenance?, info?, overlay, node_ascribed t q hx]
  cases t.overlay x <;> rfl

namespace Ready

variable (h : Ready n up start)
include h

theorem swept : Swept start.mergePlacement.mergeContent start.mergePlacement.mergeContent.doomed
    start.mergePlacement.mergeContent.mergeDeletions := swept_mergeDeletions h.reworded.1

theorem size_run : start.run.tree.size = start.mergePlacement.target.size := by
  rw [(alike_run start).size, h.cleared.size,
    (Reworded.mergeContent start.mergePlacement).target.shape.size]

theorem moved_iff : (x ∈ start.source.live.tail ∧ Relocated start start.mergePlacement x) ↔
    ∃ s ps q, start.counterpart? s = some x ∧ start.source.mark s = .movedHere ∧
      start.source.parent? s = some ps ∧ start.mergePlacement.counterpart? ps = some q ∧
        start.run.tree.parent? x = some q ∧
          ¬ (start.target.mark x = .movedHere ∧ start.target.parent? x = some q) := by
  have hp := h.placed
  have hw := Reworded.mergeContent start.mergePlacement
  constructor
  · rintro ⟨-, hm, htied, ps, q, hps, hq, hpar, hnews⟩
    obtain ⟨hs, ht⟩ := hp.aligned.live x x htied
    have hxn := h.source.lt_of_movedHere hs hm
    have hxt := (hp.live x (h.target.lt_size hxn)).1 ht
    refine ⟨x, ps, q, h.aligned.known x hxn hs hxt, hm, hps, hq, ?_, hnews⟩
    have hkept : x ∉ start.mergePlacement.mergeContent.doomed := fun hd ↦
      (h.mem_doomed.1 hd).2.2.2 hs
    rw [(alike_run start).parent?, h.swept.parent? x hkept, hw.target.shape.parent?, hpar]
  · rintro ⟨s, ps, q, hst, hm, hps, hq, hpar, hnews⟩
    obtain ⟨hs, -⟩ := h.aligned.live s x hst
    obtain rfl :=
      h.aligned.eq_of_lt h.source h.target hst (h.source.lt_of_movedHere hs hm)
    refine ⟨h.source.wellFormed.mem_live_tail.2 ⟨hs, h.source.wellFormed.child_ne_root hps⟩,
      hm, hp.kept x x hst, ps, q, hps, hq, ?_, hnews⟩
    rw [(alike_run start).parent?] at hpar
    rw [← hw.target.shape.parent?]
    exact h.cleared.link x q hpar

theorem deleted_iff : (∃ d ∈ start.mergePlacement.mergeContent.doomed,
      start.mergePlacement.mergeContent.target.Above d x) ↔
    ∃ d k, d ∈ start.target.live ∧ base? start.target d = some k ∧ ¬ Holds start.source k ∧
      start.run.tree.Above d x := by
  have hshape := (alike_run start).toSameShape
  constructor
  · rintro ⟨d, hd, hdx⟩
    obtain ⟨hdl, -, hdn, -⟩ := h.mem_doomed.1 hd
    have w := h.reworded.1.wellFormed
    have hx : x ∈ start.mergePlacement.mergeContent.target.live :=
      w.mem_live.2 ((w.mem_live.1 (h.live_beforeRemovals hdl hdn)).trans hdx)
    have hnot : x ∉ start.mergePlacement.mergeContent.mergeDeletions.target.live := fun hl ↦
      ((h.cleared.live x).1 hl).2 d hd hdx
    obtain ⟨t, ht, -, htx, -⟩ := h.cleared.lost x hx hnot
    obtain ⟨htl, -, htn, hts⟩ := h.mem_doomed.1 ht
    exact ⟨t, t, htl, (base?_eq_some h.target).2 ⟨rfl, htn⟩,
      fun hheld ↦ hts ((holds_iff h.source.base?).1 hheld).1, hshape.above.2 htx⟩
  · rintro ⟨d, k, hdl, hdk, hgone, hdx⟩
    obtain ⟨rfl, hdn⟩ := (base?_eq_some h.target).1 hdk
    have hds : d ∉ start.source.live := fun hs ↦ hgone ((holds_iff h.source.base?).2 ⟨hs, hdn⟩)
    have hr : d ≠ root := by
      rintro rfl
      exact hds h.source.wellFormed.root_mem_live
    exact ⟨d, h.mem_doomed.2 ⟨hdl, hr, hdn, hds⟩, h.cleared.above (hshape.above.1 hdx)⟩

theorem stands_of_lt (hown : ∀ x < start.target.size, start.target.provenance? x = some .branchB)
    (hA : Departed n first start.source) (hB : Departed n first start.target)
    (hx : x < start.target.size) : Stands (Adopted start x)
      start.mergePlacement.mergeContent.mergeDeletions.target x := by
  have hplaced := (h.traced hown).old x hx
  refine ((hplaced.handled (h.handled_content hA hB hx)).handled (h.swept.handled x)).congr ?_
  rw [h.moved_iff, h.deleted_iff]
  constructor
  · rintro ((⟨s, ps, q, hst, hm, hps, hq, hpar, hnews⟩ | hfields) | ⟨d, k, hd, hk, hgone, hdx⟩)
    · exact .moved s ps q hst hm hps hq hpar hnews
    · exact .updated hfields
    · exact .deleted d k hd hk hgone hdx
  · intro hadopted
    cases hadopted with
    | moved s ps q hst hm hps hq hpar hnews =>
      exact .inl (.inl ⟨s, ps, q, hst, hm, hps, hq, hpar, hnews⟩)
    | inserted s hc => exact absurd (h.copied s x hc.stand hc.free).1 (Nat.not_le_of_lt hx)
    | updated hfields => exact .inl (.inr hfields)
    | deleted d k hd hk hgone hdx => exact .inr ⟨d, k, hd, hk, hgone, hdx⟩

theorem stands_of_le (hown : ∀ x < start.target.size, start.target.provenance? x = some .branchB)
    (hle : start.target.size ≤ x) (hx : x < start.mergePlacement.target.size) :
    Stands (Adopted start x) start.mergePlacement.mergeContent.mergeDeletions.target x := by
  obtain ⟨hl, hprov⟩ := (h.traced hown).fresh x hle hx
  obtain ⟨P, hasc⟩ := ascribes_mergeContent start.mergePlacement
  have hcontent : Stands True start.mergePlacement.mergeContent.target x := by
    refine ⟨fun _ ↦ ⟨?_, h.mark_inserted_content hl (Nat.le_trans h.target.le_size hle)⟩,
      fun hno ↦ absurd trivial hno⟩
    by_cases hP : P x
    · rw [hasc.taken x hP, hprov]
      rfl
    · rw [hasc.kept x hP, hprov]
  refine (hcontent.handled (h.swept.handled x)).congr (iff_of_true (.inl trivial) ?_)
  have hnot : x ∉ start.target.live := fun hxt ↦
    absurd (h.target.wellFormed.live_lt hxt) (Nat.not_lt_of_le hle)
  obtain ⟨s, hc⟩ := ((h.mem_live_mergePlacement x).1 hl).resolve_left hnot
  exact .inserted s hc

theorem attributed (hown : ∀ x < start.target.size, start.target.provenance? x = some .branchB)
    (hA : Departed n first start.source) (hB : Departed n first start.target)
    (hx : x < start.run.tree.size) : Attributed start x := by
  -- the sweep writes for `x` itself what the phases before left there
  have hs : Stands (Adopted start x)
      start.mergePlacement.mergeContent.mergeDeletions.target x := by
    rw [h.size_run] at hx
    by_cases hlt : x < start.target.size
    · exact h.stands_of_lt hown hA hB hlt
    · exact h.stands_of_le hown (Nat.le_of_not_lt hlt) hx
  have hprov := provenance?_run start x
  by_cases hadopted : Adopted start x
  · obtain ⟨hours, hchanged⟩ := hs.ours hadopted
    rw [← isNil_congr ((alike_run start).delta? x)] at hchanged
    rw [hchanged, if_neg Bool.false_ne_true, hours] at hprov
    refine ⟨?_, iff_of_true hprov hadopted, fun _ hno ↦ absurd hadopted hno⟩
    rw [hprov, hchanged]
    exact iff_of_false nofun nofun
  · rw [hs.theirs hadopted] at hprov
    cases hnil : isNil start.run.tree x with
    | true =>
      rw [hnil, if_pos rfl] at hprov
      refine ⟨iff_of_true hprov hnil, iff_of_false ?_ hadopted, fun hch ↦ ?_⟩
      · rw [hprov]
        exact nofun
      · rw [hnil] at hch
        cases hch
    | false =>
      rw [hnil, if_neg Bool.false_ne_true] at hprov
      refine ⟨?_, iff_of_false ?_ hadopted, fun _ _ ↦ hprov⟩
      · rw [hprov, hnil]
        exact iff_of_false nofun nofun
      · rw [hprov]
        exact nofun

end Ready

/-- A merge ascribes each node of its outcome, live or not, to the branch that its changes come
from. -/
theorem attributed_ofTrees (config : Config α) (wo : base.WellFormed) (wa : a.WellFormed)
    (wb : b.WellFormed) :
    ∃ da db r, Diff.deltaTree config base a = .ok da ∧ Diff.deltaTree config base b = .ok db ∧
      ofTrees config base a b = .ok r ∧ r = (Merge.start config base da db).run ∧
      ∀ x < r.tree.size, Attributed (Merge.start config base da db) x := by
  obtain ⟨da, hda, hA⟩ := branch_deltaTree config wo wa
  obtain ⟨db, hdb, hB⟩ := branch_deltaTree config wo wb
  have h : Ready _ _ (Merge.start config base da db) := ready_start config hA hB
  refine ⟨da, db, ofDeltas config base da db, hda, hdb, ofTrees_eq hda hdb, rfl, fun x hx ↦ ?_⟩
  refine h.attributed (fun y hy ↦ ?_)
    (departed_ascribed (Script.departed_patch wo wa hda) .branchA)
    (departed_ascribed (Script.departed_patch wo wb hdb) .branchB) hx
  exact provenance?_ascribed db .branchB ((size_ascribed db .branchB) ▸ hy)

/-- Branch A replaces a loop by another one, and the call in the loop goes with it. Branch B inserts
a call. -/
theorem attributed_ofTrees_loopOf :
    ∃ da db r, Diff.deltaTree (Config.standard : Config Rat) (loopOf [callTo "p"] [])
        (loopOf [callTo "pq"] []) = .ok da ∧
      Diff.deltaTree (Config.standard : Config Rat) (loopOf [callTo "p"] [])
        (loopOf [callTo "p"] [callTo "zzzz"]) = .ok db ∧
      ofTrees (Config.standard : Config Rat) (loopOf [callTo "p"] []) (loopOf [callTo "pq"] [])
        (loopOf [callTo "p"] [callTo "zzzz"]) = .ok r ∧
      Adopted (Merge.start (Config.standard : Config Rat) (loopOf [callTo "p"] []) da db) 2 ∧
      r.tree.provenance? 3 = some .branchB ∧
      ¬ Adopted (Merge.start (Config.standard : Config Rat) (loopOf [callTo "p"] []) da db) 3 := by
  have wf (inside after : List Content) (h : _) : (loopOf inside after).WellFormed :=
    wellFormed_ofList _ _ h
  obtain ⟨da, db, r, hda, hdb, hr, rfl, h⟩ := attributed_ofTrees (Config.standard : Config Rat)
    (wf [callTo "p"] [] (by decide)) (wf [callTo "pq"] [] (by decide))
    (wf [callTo "p"] [callTo "zzzz"] (by decide))
  have hout : 3 < (outcomeOf (Config.standard : Config Rat) (loopOf [callTo "p"] [])
      (loopOf [callTo "pq"] []) (loopOf [callTo "p"] [callTo "zzzz"])).tree.size ∧
      (outcomeOf (Config.standard : Config Rat) (loopOf [callTo "p"] [])
        (loopOf [callTo "pq"] []) (loopOf [callTo "p"] [callTo "zzzz"])).tree.provenance? 2 =
          some .branchA ∧
      (outcomeOf (Config.standard : Config Rat) (loopOf [callTo "p"] [])
        (loopOf [callTo "pq"] []) (loopOf [callTo "p"] [callTo "zzzz"])).tree.provenance? 3 =
          some .branchB := by decide +kernel
  rw [← Except.ok.inj (hr.symm.trans (ofTrees_eq_outcomeOf hda hdb))] at hout
  obtain ⟨hlt, htwo, hthree⟩ := hout
  refine ⟨da, db, _, hda, hdb, hr, (h 2 (Nat.lt_of_succ_lt hlt)).branchA.1 htwo, hthree,
    fun hno ↦ ?_⟩
  have htaken := (h 3 hlt).branchA.2 hno
  rw [hthree] at htaken
  cases htaken

end FlowMerge.Merge
