import FlowMerge.Proofs.Merge.Solo

namespace FlowMerge.Merge

open FlowMerge.Tree

variable {α : Type} [Score α] {base x d : Tree} {start m m' m'' : Merge} {matching : Matching}
  {r : MergeResult} {f : NodeId → NodeId} {s : NodeId} {n : Nat}

structure Unmoved (m m' : Merge) : Prop where
  source : m'.source = m.source
  target : m'.target = m.target
  matching : m'.matching = m.matching
  conflicts : m'.conflicts = m.conflicts
  edits : m'.edits = m.edits

namespace Unmoved

theorem refl (m : Merge) : Unmoved m m := ⟨rfl, rfl, rfl, rfl, rfl⟩

theorem trans (h : Unmoved m m') (h' : Unmoved m' m'') : Unmoved m m'' :=
  ⟨h'.source.trans h.source, h'.target.trans h.target, h'.matching.trans h.matching,
    h'.conflicts.trans h.conflicts, h'.edits.trans h.edits⟩

theorem mergePlacement (h : ∀ m' s, Unmoved m m' → s ∈ m.source.live →
    Unmoved m' (follow (deletedInTarget m.target) m' s)) : Unmoved m m.mergePlacement := by
  rw [mergePlacement_eq]
  exact List.foldlRecOn _ _ (refl m) fun m' hm' s hs ↦
    hm'.trans (h m' s hm' (List.mem_of_mem_tail hs))

theorem run_spec (h : Unmoved m m.mergePlacement)
    (hcontent : m.mergePlacement.mergeContent = m.mergePlacement)
    (hdoomed : m.mergePlacement.doomed = []) : Alike m.run.tree m.target ∧
      m.run.conflicts.resolved = m.conflicts.resolved ++ m.conflicts.pending ∧
        m.run.edits = m.edits := by
  have hrun : m.run = m.mergePlacement.finish := by
    rw [run, hcontent, mergeDeletions_eq, hdoomed]
    rfl
  obtain ⟨htree, hresolved, hedits⟩ := finish_spec m.mergePlacement
  rw [h.target] at htree
  rw [h.conflicts] at hresolved
  rw [h.edits] at hedits
  rw [hrun]
  exact ⟨htree, hresolved, hedits⟩

end Unmoved

theorem mergeContent_eq_self (h : ∀ s t, m.matching.old? s = some t → s ∈ m.source.live →
    m.mergeFields (s, t) = m) : m.mergeContent = m := by
  rw [mergeContent_eq]
  refine List.foldlRecOn _ _ (motive := fun m' : Merge ↦ m' = m) rfl fun m' hm' p hp ↦ ?_
  rw [hm']
  exact h p.1 p.2 (mem_pairs.1 hp).2 (mem_pairs.1 hp).1

namespace Untouched

variable (h : Untouched n base m.source)
include h

theorem changedInSource (hs : s ∈ m.source.live) : m.changedInSource s = false := by
  have w := h.wellFormed
  rw [Merge.changedInSource, Bool.eq_false_iff, ne_eq, List.any_eq_true]
  rintro ⟨d, hd, hch⟩
  have hdl := w.mem_live.2 ((w.mem_live.1 hs).trans ((w.mem_preorder (w.live_lt hs)).1 hd))
  obtain ⟨y, hy, -, hm, hu⟩ := h.blank d ((h.live d).1 hdl)
  rw [Bool.and_eq_true, isNil, hy, Option.any_some, Delta.isNil, Delta.isUpdate, hm, hu] at hch
  exact Bool.false_ne_true hch.2

theorem unmoved_placeMatched (hs : s ∈ m.source.live) (t : NodeId) :
    Unmoved m (m.placeMatched s t) := by
  unfold placeMatched
  split
  · next ps hm _ =>
    rw [h.mark ((h.live s).1 hs)] at hm
    cases hm
  · exact .refl m

theorem unmoved_carryUnmatched (hs : s ∈ m.source.live) (deleted : List (Nat × NodeId)) :
    Unmoved m (m.carryUnmatched deleted s) := by
  unfold carryUnmatched
  split
  · exact .refl m
  · split
    · exact ⟨rfl, rfl, rfl, rfl, rfl⟩
    · split
      · next hm =>
        rw [h.mark ((h.live s).1 hs)] at hm
        cases hm
      · have hcalm : (m.drop s).changedInSource s = false := h.changedInSource hs
        unfold dropDeleted
        dsimp only
        rw [if_neg (Bool.eq_false_iff.1 hcalm)]
        split
        · exact ⟨rfl, rfl, rfl, rfl, rfl⟩
        · exact ⟨rfl, rfl, rfl, rfl, rfl⟩

theorem unmoved_follow (hs : s ∈ m.source.live) (deleted : List (Nat × NodeId)) :
    Unmoved m (follow deleted m s) := by
  unfold follow
  split
  · exact h.unmoved_placeMatched hs _
  · exact h.unmoved_carryUnmatched hs deleted

theorem unmoved_mergePlacement : Unmoved m m.mergePlacement := by
  refine .mergePlacement fun m' s hm' hs ↦ ?_
  rw [← hm'.source] at h hs
  exact h.unmoved_follow hs _

theorem mergeContent_eq : m.mergeContent = m := by
  refine mergeContent_eq_self fun s t _ hs ↦ ?_
  have hlt := (h.live s).1 hs
  have hboth : m.bothInserted s t = false := by
    rw [bothInserted, h.mark hlt]
    rfl
  obtain ⟨y, hy, -, -, hu⟩ := h.blank s hlt
  have hnone : m.sourceUpdates s t = [] := by
    rw [sourceUpdates, hboth, if_neg Bool.false_ne_true, hy]
    exact hu
  rw [mergeFields, hnone]
  rfl

theorem doomed_eq (ht : Branch n base.parent? m.target) : m.doomed = [] := by
  refine List.eq_nil_iff_forall_not_mem.2 fun t hd ↦ ?_
  obtain ⟨-, -, hlt, hnot⟩ := (mem_doomed h.branch ht).1 hd
  exact hnot ((h.live t).2 hlt)

/-- An untouched branch A leaves branch B as it is. -/
theorem run_spec (ht : Branch n base.parent? m.target) : Alike m.run.tree m.target ∧
    m.run.conflicts.resolved = m.conflicts.resolved ++ m.conflicts.pending ∧
      m.run.edits = m.edits := by
  have hm := h.unmoved_mergePlacement
  have hu : Untouched n base m.mergePlacement.source := hm.source ▸ h
  exact hm.run_spec hu.mergeContent_eq (hu.doomed_eq (hm.target ▸ ht))

end Untouched

theorem conflicts_run (m : Merge) (h : m.run.conflicts.resolved = []) : m.run.conflicts = {} := by
  have hlog : m.run.conflicts = ⟨[], m.run.conflicts.resolved⟩ := rfl
  rw [hlog, h]

theorem merged_sameContent (h : Mirrors f x r.tree) (wx : x.WellFormed) (w : r.tree.WellFormed) :
    r.merged.sameContent x = true :=
  (h.trans (w.mirrors_rebuild fun _ ↦ .plain) wx w).sameContent wx (w.rebuild _)

theorem solo_start (config : Config α) (ha : Edited n base d) (hb : Untouched n base x)
    (t : Tree) : Solo n base (Merge.start config t d x) where
  edited := ha.ascribed .branchA
  untouched := hb.ascribed .branchB
  aligned := aligned_align config.thresholds (ha.toBranch.ascribed .branchA)
    (hb.branch.ascribed .branchB)
  pending := rfl
  resolved := rfl
  dropped := rfl

theorem Solo.wellFormed_run (h : Solo n base start) : start.run.tree.WellFormed :=
  (alike_run start).toSameShape.wellFormed h.ready.cleared.wellFormed

theorem mirrors_ascribed (d : Tree) (p : Provenance) : Mirrors id d (ascribed d p) :=
  .of_sameShape (sameShape_ascribed d p) (content_ascribed d p)

/-- Merging with an unchanged branch gives the other one. -/
theorem unchanged_ofDeltas (wo : base.WellFormed) (wx : x.WellFormed) (uo : base.Unambiguous)
    (ux : x.Unambiguous) (hm : matching.OneToOne) :
    ∃ d n, Script.patch base (Script.derive base x matching) = .ok d ∧
      Script.patch base [] = .ok n ∧
      ∀ {α : Type} [Score α] (config : Config α),
        ((ofDeltas config base d n).merged.sameContent x = true ∧
          (ofDeltas config base d n).conflicts = {}) ∧
        ((ofDeltas config base n d).merged.sameContent x = true ∧
          (ofDeltas config base n d).conflicts = {} ∧ (ofDeltas config base n d).edits = []) := by
  obtain ⟨d, f, hd, hp⟩ := Script.patched_derive wo wx hm
  have hmirrors := hp.mirrors uo ux
  have hA := edited_of_patched hp wo wx (Script.clean_clean wo wx hm) uo ux
  have hN := untouched_pristine wo
  refine ⟨d, Script.pristine base, hd, rfl, fun config ↦ ⟨?_, ?_⟩⟩
  · have h := solo_start config hA hN base
    have hsource := (hmirrors.trans (mirrors_ascribed d .branchA) wx hp.wellFormed).trans
      h.mirrors_run wx h.edited.wellFormed
    exact ⟨merged_sameContent hsource wx h.wellFormed_run, conflicts_run _ h.resolved_run⟩
  · have hB := hA.toBranch.ascribed .branchB
    have hU := hN.ascribed .branchA
    obtain ⟨hal, hresolved, hedits⟩ := Untouched.run_spec
      (m := Merge.start config base (Script.pristine base) d) hU hB
    have htarget := (hmirrors.trans (mirrors_ascribed d .branchB) wx hp.wellFormed).trans
      (.of_sameShape hal.toSameShape hal.content) wx hB.wellFormed
    exact ⟨merged_sameContent htarget wx (hal.toSameShape.wellFormed hB.wellFormed),
      conflicts_run _ hresolved, hedits⟩

def loopAroundCall : Tree :=
  .ofList { label := "description" } [(0, { label := "loop" }), (1, { label := "call" })]

def callAroundLoop : Tree :=
  .ofList { label := "description" }
    [(0, { label := "call" }), (1, { label := "loop" }), (2, { label := "choose" })]

/-- The call and the loop change their places. -/
theorem unchanged_ofDeltas_callAroundLoop :
    ∃ d n, Script.patch loopAroundCall
        (Script.derive loopAroundCall callAroundLoop (.ofPairs [(1, 2), (2, 1)])) = .ok d ∧
      Script.patch loopAroundCall [] = .ok n ∧
      (ofDeltas (Config.standard : Config Rat) loopAroundCall d n).merged.sameContent
        callAroundLoop = true ∧
      (ofDeltas (Config.standard : Config Rat) loopAroundCall n d).conflicts = {} := by
  have wo : loopAroundCall.WellFormed := wellFormed_ofList _ _ (by decide)
  have wx : callAroundLoop.WellFormed := wellFormed_ofList _ _ (by decide)
  obtain ⟨d, n, hd, hn, h⟩ := unchanged_ofDeltas wo wx (by decide +kernel) (by decide +kernel)
    (.ofPairs [(1, 2), (2, 1)])
  obtain ⟨hfirst, hsecond⟩ := h (Config.standard : Config Rat)
  exact ⟨d, n, hd, hn, hfirst.1, hsecond.2.1⟩

end FlowMerge.Merge
