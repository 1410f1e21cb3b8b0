import FlowMerge.Proofs.Matching.Twins
import FlowMerge.Proofs.Merge.Insertions
import FlowMerge.Proofs.Merge.Unchanged

namespace FlowMerge.Merge

open FlowMerge.Tree Score

variable {α : Type} [Score α] {base a d source target t u : Tree} {start m : Merge}
  {thresholds : Thresholds α} {n s x : NodeId} {up : NodeId → Option NodeId}

theorem alike_ascribed (t : Tree) (p q : Provenance) : Alike (ascribed t p) (ascribed t q) := by
  refine ⟨(sameShape_ascribed t p).trans (sameShape_ascribed t q).symm, fun x ↦ ?_, fun x ↦ ?_⟩
  · rw [content_ascribed, content_ascribed]
  · by_cases hx : x < t.size
    · simp only [delta?, overlay, node_ascribed t _ hx, delta?_mapInfo]
    · simp only [delta?, overlay, node_ascribed_of_size_le t _ (Nat.le_of_not_lt hx)]

section Alignment

variable {P : NodeId → Prop} {m : Matching}

theorem Diagonal.selfTied (h : Diagonal P m) : m.SelfTied :=
  ⟨h.1, fun s t hst ↦ ((h.2 s t).1 hst).1.symm⟩

theorem Diagonal.hasNew_iff (h : Diagonal P m) : m.hasNew s = true ↔ P s := by
  rw [← h.selfTied.old?_iff, h.2]
  exact and_iff_right rfl

theorem foldl_restore_of_tied {ps : List (NodeId × NodeId)} (h : ∀ p ∈ ps, m.hasNew p.1 = true) :
    ps.foldl restore m = m := by
  induction ps with
  | nil => rfl
  | cons p ps ih =>
    have hp : restore m p = m := by
      rw [restore, h p List.mem_cons_self]
      rfl
    rw [List.foldl_cons, hp]
    exact ih fun p hp ↦ h p (List.mem_cons_of_mem _ hp)

/-- If the algorithm by labels ties nodes to themselves, and among them all that both branches have
of the base, then no pair is given up after it, and none has to come back. -/
theorem old?_align (hs : Branch n up source) (ht : Branch n up target) {bucketed : Matching}
    (hb : Matching.bucket Comparator.process thresholds target source
      (baseMatching source target) = bucketed)
    (hself : bucketed.SelfTied) (hlive : bucketed.PairsLive target source)
    (hbase : ∀ x ∈ source.live, x < n → bucketed.hasNew x = true) (x : NodeId) :
    (align thresholds source target).old? x = bucketed.old? x := by
  have hdiag := diagonal_baseMatching hs ht
  have hkept (x : NodeId) : (bucketed.retain fun s t ↦
      (baseMatching source target).areMatched t s ||
        ((base? source s).isNone && (base? target t).isNone)).old? x = bucketed.old? x := by
    rw [Matching.old?_retain]
    cases hx : bucketed.old? x with
    | none => rfl
    | some y =>
      obtain rfl := hself.eq x y hx
      obtain ⟨hxs, hxt⟩ := hlive y y hx
      refine Option.filter_some_pos ?_
      by_cases hlt : y < n
      · have hy := (hdiag.2 y y).2 ⟨rfl, hxs, hlt, hxt⟩
        rw [Matching.areMatched, hy]
        simp
      · have hle := Nat.le_of_not_lt hlt
        rw [(base?_eq_none hs).2 hle, (base?_eq_none ht).2 hle]
        simp
  subst hb
  rw [← hkept x]
  refine congrArg (Matching.old? · x) (foldl_restore_of_tied fun p hp ↦ ?_)
  obtain ⟨-, hps, hlt, -⟩ := (hdiag.2 p.1 p.2).1 (Matching.mem_pairs.1 hp)
  rw [Matching.hasNew, hkept]
  exact hbase p.1 hps hlt

/-- Of two branches that are alike, all nodes are tied to themselves except for properties that are
inserted below properties of the base, and below such. -/
theorem align_twins [Lawful α] (hs : Branch n up source) (ht : Branch n up target)
    (h : Alike target source) (hleaf : lt zero thresholds.leaf = true)
    (hinner : lt zero thresholds.inner = true) (hroot : root < n) :
    (align thresholds source target).SelfTied ∧ ∀ x ∈ source.live,
      ((align thresholds source target).hasNew x = true ↔
        x < n ∨ source.isControlFlow x = true ∨ ∃ q, source.parent? x = some q ∧
          (source.isControlFlow q = true ∨ n ≤ q ∧
            (align thresholds source target).hasNew q = true)) := by
  have w := hs.wellFormed
  have hdiag := diagonal_baseMatching hs ht
  have hseed {x : NodeId} (hx : x ∈ source.live) :
      (baseMatching source target).hasNew x = true ↔ x < n := by
    rw [hdiag.hasNew_iff, h.toSameShape.live]
    exact ⟨fun hx ↦ hx.2.1, fun hlt ↦ ⟨hx, hlt, hx⟩⟩
  have hlive : (baseMatching source target).PairsLive target source := by
    intro s t hst
    obtain ⟨rfl, hsl, -, htl⟩ := (hdiag.2 s t).1 hst
    exact ⟨hsl, htl⟩
  obtain ⟨hself, hmem⟩ := hdiag.selfTied.bucket h w hleaf hinner hlive
    ((hseed w.root_mem_live).2 hroot)
  have hold := old?_align hs ht rfl hself (hlive.bucket ht.wellFormed w) fun x hx hlt ↦
    (hmem x hx).2 (.inl ((hseed hx).2 hlt))
  have hnew (x : NodeId) : (align thresholds source target).hasNew x =
      (Matching.bucket Comparator.process thresholds target source
        (baseMatching source target)).hasNew x := congrArg Option.isSome (hold x)
  refine ⟨⟨(aligned_align thresholds hs ht).oneToOne, fun s t hst ↦ ?_⟩, fun x hx ↦ ?_⟩
  · rw [hold] at hst
    exact hself.eq s t hst
  · rw [hnew, hmem x hx, hseed hx]
    refine or_congr_right (or_congr_right (exists_congr fun q ↦ and_congr_right fun hq ↦ ?_))
    rw [hnew, Bool.eq_false_iff, ne_eq, hseed (w.parent_live hx hq), Nat.not_lt]

end Alignment

/-- A merge of a branch with itself is about to begin. -/
structure Twins (n : Nat) (base : Tree) (start : Merge) : Prop where
  edited : Edited n base start.source
  alike : Alike start.target start.source
  selfTied : start.matching.SelfTied
  tied : ∀ x ∈ start.source.live, (start.matching.hasNew x = true ↔
    x < n ∨ start.source.isControlFlow x = true ∨ ∃ q, start.source.parent? x = some q ∧
      (start.source.isControlFlow q = true ∨ n ≤ q ∧ start.matching.hasNew q = true))
  ready : Ready n base.parent? start
  dropped : start.dropped = []

/-- A property that is inserted below a property of the base. -/
def Nested (d : Tree) (x : NodeId) : Prop :=
  (d.mark x).isInsertion = true ∧ d.isControlFlow x = false ∧
    ∃ q ∈ d.parent? x, (d.mark q).isInsertion = false ∧ d.isControlFlow q = false

instance (d : Tree) (x : NodeId) : Decidable (Nested d x) :=
  inferInstanceAs (Decidable (_ ∧ _ ∧ ∃ q ∈ d.parent? x, _ ∧ _))

theorem nested_ascribed (h : Branch n up d) (p : Provenance) (hx : x ∈ d.live) :
    Nested (ascribed d p) x ↔ Nested d x := by
  have hs := sameShape_ascribed d p
  have hcf (y : NodeId) : (ascribed d p).isControlFlow y = d.isControlFlow y := by
    rw [isControlFlow, content_ascribed, isControlFlow]
  rw [Nested, Nested, hs.parent?, hcf, h.mark_ascribed p hx]
  refine and_congr_right fun _ ↦ and_congr_right fun _ ↦ exists_congr fun q ↦
    and_congr_right fun hq ↦ ?_
  rw [h.mark_ascribed p (h.wellFormed.parent_live hx hq), hcf]

theorem twins_start [Lawful α] (config : Config α) (hleaf : lt zero config.thresholds.leaf = true)
    (hinner : lt zero config.thresholds.inner = true) (h : Edited n base d) (t : Tree) :
    Twins n base (Merge.start config t d d) := by
  have hA := h.ascribed .branchA
  have hB := h.ascribed .branchB
  have halike := alike_ascribed d .branchB .branchA
  obtain ⟨hself, htied⟩ := align_twins hA.toBranch hB.toBranch halike hleaf hinner h.root_lt
  exact ⟨hA, halike, hself, htied, ready_start config h.toBranch h.toBranch, rfl⟩

namespace Twins

variable (h : Twins n base start)
include h

theorem old?_of_nested (hl : x ∈ start.source.live) (hx : Nested start.source x) :
    start.matching.old? x = none := by
  obtain ⟨hins, hprop, q, hq, hqknown, hqprop⟩ := hx
  have hB := h.edited.toBranch
  have hql := hB.wellFormed.parent_live hl hq
  rw [← Option.not_isSome_iff_eq_none]
  intro hnew
  rcases (h.tied x hl).1 hnew with hlt | hcf | ⟨q', hq', hcf | ⟨hle, -⟩⟩
  · exact absurd ((hB.isInsertion_iff hl).1 hins) (Nat.not_le_of_lt hlt)
  · rw [hprop] at hcf
    cases hcf
  · rw [Option.some_inj.1 (hq'.symm.trans hq), hqprop] at hcf
    cases hcf
  · rw [Option.some_inj.1 (hq'.symm.trans hq), ← hB.isInsertion_iff hql, hqknown] at hle
    cases hle

/-- Nothing but what is nested, or below it, is not tied. -/
theorem old?_self (hno : ∀ x ∈ start.source.live, ¬ Nested start.source x)
    (hx : x ∈ start.source.live) : start.matching.old? x = some x := by
  have hB := h.edited.toBranch
  have w := hB.wellFormed
  rw [h.selfTied.old?_iff]
  induction x using w.up_induction with
  | h x ih =>
    rw [h.tied x hx]
    by_cases hlt : x < n
    · exact .inl hlt
    cases hcf : start.source.isControlFlow x with
    | true => exact .inr (.inl rfl)
    | false =>
      have hle := Nat.le_of_not_lt hlt
      have hr : x ≠ root := by
        rintro rfl
        exact hlt h.edited.root_lt
      obtain ⟨q, hq, hql⟩ := w.exists_parent_of_live hx hr
      refine .inr (.inr ⟨q, hq, ?_⟩)
      cases hqcf : start.source.isControlFlow q with
      | true => exact .inl rfl
      | false =>
        refine .inr ⟨(hB.isInsertion_iff hql).1 ?_, ih q hq hql⟩
        by_contra hqknown
        have hins := (hB.isInsertion_iff hx).2 hle
        exact hno x hx ⟨hins, hcf, q, hq, Bool.eq_false_iff.2 hqknown, hqcf⟩

theorem new_eq (hm : Unmoved start m) (hx : x ∈ start.source.live) :
    ∀ e ∈ m.sourceUpdates x x, e.2.new = (m.target.content x).field e.1 := by
  have hB := h.edited.toBranch
  have hmark : m.target.mark x = m.source.mark x := by
    rw [hm.target, h.alike.mark, hm.source]
  rw [hm.target, h.alike.content, sourceUpdates, bothInserted, hmark, Bool.and_self, hm.source,
    hm.target, h.alike.content]
  split
  · rw [Content.diffFields_self]
    exact fun e he ↦ absurd he List.not_mem_nil
  · next hknown =>
    have hlt := Nat.lt_of_not_le fun hle ↦ hknown ((hB.isInsertion_iff hx).2 hle)
    obtain ⟨y, hy, hrecords⟩ := h.edited.records x hx hlt
    rw [hy]
    exact hrecords.new_eq

theorem not_doomed (t : NodeId) : t ∉ start.mergePlacement.mergeContent.doomed := by
  intro ht
  obtain ⟨hl, -, -, hnot⟩ := h.ready.mem_doomed.1 ht
  rw [h.alike.toSameShape.live] at hl
  exact hnot hl

section Plain

variable (hold : ∀ x ∈ start.source.live, start.matching.old? x = some x)
include hold

theorem unmoved_follow (hm : Unmoved start m) (hs : s ∈ start.source.live)
    (deleted : List (Nat × NodeId)) : Unmoved m (follow deleted m s) := by
  have hcounterpart {x : NodeId} (hx : x ∈ start.source.live) : m.counterpart? x = some x := by
    rw [counterpart?, hm.matching]
    exact hold x hx
  rw [follow, hcounterpart hs]
  dsimp only
  unfold placeMatched
  split
  · next ps hmark hps =>
    rw [hm.source] at hmark hps
    -- both branches moved the node to the same place
    have hmoved : m.target.mark s = .movedHere := by
      rw [hm.target, h.alike.mark, hmark]
    have hpar : m.target.parent? s = some ps := by
      rw [hm.target, h.alike.parent?, hps]
    rw [hcounterpart (h.edited.wellFormed.parent_live hs hps), hmoved, hpar]
    simp only [beq_self_eq_true, Bool.and_self, if_true]
    exact ⟨rfl, rfl, rfl, rfl, rfl⟩
  · exact .refl m

theorem unmoved_mergePlacement : Unmoved start start.mergePlacement :=
  .mergePlacement fun _ _ hm hs ↦ h.unmoved_follow hold hm hs _

theorem mergeContent_eq (hm : Unmoved start m) : m.mergeContent = m := by
  refine mergeContent_eq_self fun s t hst hs ↦ ?_
  rw [hm.source] at hs
  rw [hm.matching, hold s hs] at hst
  obtain rfl := Option.some_inj.1 hst
  refine List.foldlRecOn _ _ (motive := fun m' : Merge ↦ m' = m) rfl fun m' hm' e he ↦ ?_
  rw [hm', mergeField]
  dsimp only
  rw [if_pos (h.new_eq hm hs e he).symm]

theorem run_spec : Alike start.run.tree start.source ∧ start.run.conflicts.resolved = [] := by
  have hm := h.unmoved_mergePlacement hold
  have hcontent := h.mergeContent_eq hold hm
  have hdoomed := List.eq_nil_iff_forall_not_mem.2 h.not_doomed
  rw [hcontent] at hdoomed
  obtain ⟨htree, hresolved, -⟩ := hm.run_spec hcontent hdoomed
  rw [h.ready.resolved, h.ready.pending] at hresolved
  exact ⟨htree.trans h.alike, hresolved⟩

end Plain

theorem mem_live_run (hx : x ∈ start.mergePlacement.target.live) : x ∈ start.run.tree.live :=
  h.ready.mem_live_run.2 ⟨hx, fun d hd ↦ absurd hd (h.not_doomed d)⟩

/-- What is nested is carried over although it is there. -/
theorem length_live_lt (hl : x ∈ start.source.live) (hx : Nested start.source x)
    (hcalm : start.run.conflicts.resolved = []) :
    start.source.live.length < start.run.tree.live.length := by
  have hB := h.edited.toBranch
  have w := hB.wellFormed
  have hp := h.ready.placed
  obtain ⟨t, ht⟩ := h.ready.exists_counterpart h.edited.root_lt h.dropped hcalm hl
    ((hB.isInsertion_iff hl).1 hx.1)
  obtain ⟨hnew, -⟩ := h.ready.copied x t ht (h.old?_of_nested hl hx)
  rw [h.alike.size] at hnew
  -- the copy has a new place in the store, so it comes on top of all that branch B has
  have hfresh : t ∉ start.source.live := fun hl ↦ Nat.not_lt_of_le hnew (w.live_lt hl)
  have hsub : t :: start.source.live ⊆ start.run.tree.live := by
    intro y hy
    apply h.mem_live_run
    rcases List.mem_cons.1 hy with rfl | hy
    · exact (hp.aligned.live x y ht).2
    · refine (hp.live y (h.alike.size ▸ w.live_lt hy)).2 ?_
      rwa [h.alike.toSameShape.live]
  exact ((List.nodup_cons.2 ⟨hfresh, w.nodup_live⟩).subperm hsub).length_le

end Twins

/-- Merging two identical branches gives that branch and no conflict unless, and only unless, it
inserts a property below a property of the base. -/
theorem twins_ofTrees [Lawful α] (config : Config α) (hleaf : lt zero config.thresholds.leaf = true)
    (hinner : lt zero config.thresholds.inner = true) (wo : base.WellFormed) (wa : a.WellFormed)
    (uo : base.Unambiguous) (ua : a.Unambiguous) :
    ∃ d r, Diff.deltaTree config base a = .ok d ∧ ofTrees config base a a = .ok r ∧
      ((r.conflicts = {} ∧ r.merged.sameContent a = true) ↔ ∀ x ∈ d.live, ¬ Nested d x) := by
  have hm := config.oneToOne_matchTrees base a
  obtain ⟨d, f, hd, hp⟩ := Script.patched_derive wo wa hm
  have hd' : Diff.deltaTree config base a = .ok d := hd
  have hedited := edited_of_patched hp wo wa (Script.clean_clean wo wa hm) uo ua
  have h := twins_start config hleaf hinner hedited base
  have hmirrors := (hp.mirrors uo ua).trans (mirrors_ascribed d .branchA) wa hp.wellFormed
  have wrun : (ofDeltas config base d d).tree.WellFormed :=
    (alike_run _).toSameShape.wellFormed h.ready.cleared.wellFormed
  have hlive : (ascribed d .branchA).live = d.live := (sameShape_ascribed d .branchA).live
  have hnested {x : NodeId} (hx : x ∈ d.live) : Nested (ascribed d .branchA) x ↔ Nested d x :=
    nested_ascribed hedited.toBranch .branchA hx
  refine ⟨d, ofDeltas config base d d, hd', ofTrees_eq hd' hd', fun ⟨hcalm, hsame⟩ x hx hnx ↦ ?_,
    fun hno ↦ ?_⟩
  · have hlt := h.length_live_lt (hlive.symm ▸ hx) ((hnested hx).2 hnx)
      (congrArg ConflictLog.resolved hcalm)
    have wmerged : (ofDeltas config base d d).merged.WellFormed := wrun.rebuild fun _ ↦ .plain
    have hout := length_live_of_sameContent wmerged wa hsame
    have hin := congrArg List.length (hmirrors.live_map wa h.edited.wellFormed)
    rw [MergeResult.merged, toPlain, wrun.live_rebuild, List.length_range] at hout
    rw [List.length_map] at hin
    exact Nat.ne_of_lt hlt (hin.trans hout.symm)
  · obtain ⟨halike, hresolved⟩ := h.run_spec fun x hx ↦ h.old?_self (fun x hx hnx ↦
      hno x (hlive ▸ hx) ((hnested (hlive ▸ hx)).1 hnx)) hx
    have hresult := hmirrors.trans (.of_sameShape halike.toSameShape halike.content) wa
      h.edited.wellFormed
    exact ⟨conflicts_run _ hresolved, merged_sameContent hresult wa wrun⟩

def labelledCall (parents : List NodeId) : Tree :=
  .ofList { label := "description" } ([(0, callTo "pay"), (1, { label := "parameters" })] ++
    parents.map fun p ↦ (p, { label := "label", text := some "Pay" }))

/-- Both branches give the call a label. -/
theorem twins_ofTrees_labelledCall :
    ∃ r, ofTrees (Config.standard : Config Rat) (labelledCall []) (labelledCall [1])
        (labelledCall [1]) = .ok r ∧
      r.conflicts = {} ∧ r.merged.sameContent (labelledCall [1]) = true := by
  have wf (ps : List NodeId) (h : _) : (labelledCall ps).WellFormed := wellFormed_ofList _ _ h
  obtain ⟨d, r, hd, hr, h⟩ := twins_ofTrees (Config.standard : Config Rat) (by decide +kernel)
    (by decide +kernel) (wf [] (by decide)) (wf [1] (by decide)) (by decide +kernel)
    (by decide +kernel)
  have hno : ∀ x ∈ (deltaOf (Config.standard : Config Rat) (labelledCall [])
      (labelledCall [1])).live, ¬ Nested (deltaOf (Config.standard : Config Rat) (labelledCall [])
        (labelledCall [1])) x := by decide +kernel
  rw [deltaOf_eq hd] at hno
  exact ⟨r, hr, h.2 hno⟩

/-- Both branches give the parameters of the call a label, and then they have two. -/
theorem not_twins_labelledCall :
    ∃ r, ofTrees (Config.standard : Config Rat) (labelledCall []) (labelledCall [2])
        (labelledCall [2]) = .ok r ∧
      r.merged.sameContent (labelledCall [2]) = false ∧
      r.merged.sameContent (labelledCall [2, 2]) = true := by
  have wf (ps : List NodeId) (h : _) : (labelledCall ps).WellFormed := wellFormed_ofList _ _ h
  obtain ⟨d, hd, -⟩ := branch_deltaTree (Config.standard : Config Rat) (wf [] (by decide))
    (wf [2] (by decide))
  have htwo : (outcomeOf (Config.standard : Config Rat) (labelledCall []) (labelledCall [2])
        (labelledCall [2])).merged.sameContent (labelledCall [2]) = false ∧
      (outcomeOf (Config.standard : Config Rat) (labelledCall []) (labelledCall [2])
        (labelledCall [2])).merged.sameContent (labelledCall [2, 2]) = true := by decide +kernel
  exact ⟨_, ofTrees_eq_outcomeOf hd hd, htwo⟩

end FlowMerge.Merge
