import FlowMerge.Proofs.Merge.Decisions

namespace FlowMerge.Merge

open FlowMerge.Tree

variable {α : Type} [Score α] {start m : Merge} {base a b : Tree} {ma mb : Matching}
  {s x k n : NodeId} {up : NodeId → Option NodeId} {c : Conflict}

/-- The merged tree has the node, or a conflict about a deletion is logged for a node that was
taken out with it. -/
def Accounted (base : Tree) (r : MergeResult) (k : Nat) : Prop :=
  Holds r.tree k ∨ ∃ x t d, base? r.tree x = some k ∧ r.tree.Above t x ∧ t ∉ r.tree.live ∧
    base? r.tree t = some d ∧ ∃ c ∈ r.conflicts.resolved, c.kind = .deletion ∧
      c.resolution = .deleted ∧ c.base = (base.live.map base.path)[d]?

/-- A node will go with nodes above it, and branch B changed nothing below any of these. -/
def Overlooked (m : Merge) (x : NodeId) : Prop :=
  (∃ d ∈ m.doomed, m.target.Above d x) ∧
    ∀ d ∈ m.doomed, m.target.Above d x → m.changedInTarget d = false

/-- A node is gone with one that only branch A deleted. It went as part of a node that branch A
moved, and a conflict tells that this move was not followed. -/
def Stranded (base da db : Tree) (r : MergeResult) (k : Nat) : Prop :=
  ∃ x t y, base? r.tree x = some k ∧ t ∉ r.tree.live ∧ r.tree.Above t y ∧ r.tree.Above y x ∧
    (∃ d, base? r.tree t = some d ∧ Holds db d ∧ ¬ Holds da d) ∧
    ∃ i, base? r.tree y = some i ∧ (∃ s ∈ da.live, base? da s = some i ∧ da.mark s = .movedHere) ∧
      ∃ c ∈ r.conflicts.resolved, c.kind = .move ∧ c.resolution = .branchB ∧
        c.base = (base.live.map base.path)[i]?

def beforeRemovals {α : Type} [Score α] (config : Config α) (base a b : Tree) : Merge :=
  (Merge.start config base a b).mergePlacement.mergeContent

/-- All conflicts about deletions are about nodes of the base that branch B does not have. -/
def OneSided (n : Nat) (start m : Merge) : Prop :=
  ∀ c ∈ m.conflicts.pending, c.kind = .deletion →
    ∃ s < n, s ∉ start.target.live ∧ c.base = start.basePaths[s]?

theorem conflicts_moveBelow (m : Merge) (s t tp : NodeId) :
    (m.moveBelow s t tp).conflicts = m.conflicts := rfl

theorem mem_placeMatched {m : Merge} {s t : NodeId}
    (hc : c ∈ (m.placeMatched s t).conflicts.pending) :
    c ∈ m.conflicts.pending ∨ c.kind = .move := by
  have hmove {m' : Merge} {text : String} {r : Resolution}
      (h : c ∈ (m'.moveConflict t text r).conflicts.pending) :
      c ∈ m'.conflicts.pending ∨ c.kind = .move := by
    refine (List.mem_append.1 h).imp_right fun h ↦ ?_
    rw [List.mem_singleton.1 h]
  unfold placeMatched at hc
  split at hc
  · dsimp only at hc
    split at hc
    · exact hmove hc
    · split at hc
      · exact .inl hc
      · split at hc
        · exact hmove hc
        · split at hc
          · have hc' := hmove hc
            rwa [conflicts_moveBelow] at hc'
          · exact .inl hc
  · exact .inl hc

structure Alarms (m : Merge) (s : NodeId) (c : Conflict) : Prop where
  kind : c.kind = .deletion
  text : c.text = "deleted in branch B, changed in branch A"
  path : c.path = m.source.path s
  base : c.base = m.basePath? m.source s
  changed : m.changedInSource s = true

theorem mem_dropDeleted {m : Merge} {deleted : List (Nat × NodeId)}
    (hc : c ∈ (m.dropDeleted deleted s).conflicts.pending) :
    c ∈ m.conflicts.pending ∨ Alarms m s c := by
  have hqueued (c' : Conflict) (ha : Alarms m s c') (h : c ∈ m.conflicts.pending ++ [c']) :
      c ∈ m.conflicts.pending ∨ Alarms m s c := by
    refine (List.mem_append.1 h).imp_right fun h ↦ ?_
    rwa [List.mem_singleton.1 h]
  unfold dropDeleted at hc
  dsimp only at hc
  split at hc
  · next hch =>
    split at hc
    · exact hqueued _ ⟨rfl, rfl, rfl, rfl, hch⟩ hc
    · exact hqueued _ ⟨rfl, rfl, rfl, rfl, hch⟩ hc
  · split at hc
    · exact .inl hc
    · exact .inl hc

/-- A turn logs conflicts about moves, and about the deletion of the node it is about, which then
has no counterpart. -/
theorem mem_follow {m : Merge} {deleted : List (Nat × NodeId)}
    (hc : c ∈ (follow deleted m s).conflicts.pending) :
    c ∈ m.conflicts.pending ∨ c.kind = .move ∨ m.matching.old? s = none ∧
      (m.source.mark s).isInsertion = false ∧ Alarms m s c := by
  unfold follow at hc
  split at hc
  · exact (mem_placeMatched hc).imp_right .inl
  · next hold =>
    unfold carryUnmatched at hc
    split at hc
    · exact .inl hc
    · split at hc
      · exact .inl hc
      · split at hc
        · split at hc
          · exact .inl hc
          · exact .inl hc
        · next hmark =>
          exact (mem_dropDeleted hc).imp_right fun h ↦
            .inr ⟨hold, Bool.eq_false_iff.2 hmark, h⟩

namespace Ready

variable (h : Ready n up start)
include h

theorem gone_of_alone {seen : List NodeId} (hp : Placed n up start seen m)
    (hs : s ∈ start.source.live) (hold : m.matching.old? s = none)
    (hmark : (start.source.mark s).isInsertion = false) : s < n ∧ s ∉ start.target.live := by
  have hsn : s < n := by
    refine h.source.lt_of_mark hs fun hm ↦ ?_
    rw [hm] at hmark
    cases hmark
  refine ⟨hsn, fun hst ↦ ?_⟩
  have hknown := hp.aligned.known s hsn hs ((hp.live s (h.target.lt_size hsn)).2 hst)
  rw [hold] at hknown
  cases hknown

theorem oneSided_placement : OneSided n start start.mergePlacement := by
  refine h.placement_induction (P := fun _ m ↦ OneSided n start m) ?_ fun pre s m hp hs ih ↦ ?_
  · intro c hc
    rw [h.pending] at hc
    cases hc
  · intro c hc hk
    rcases mem_follow hc with hc | hmove | ⟨hold, hmark, halarm⟩
    · exact ih c hc hk
    · rw [hk] at hmove
      cases hmove
    · have hbase := halarm.base
      rw [hp.source] at hmark hbase
      obtain ⟨hsn, hst⟩ := h.gone_of_alone hp hs.live hold hmark
      refine ⟨s, hsn, hst, ?_⟩
      rw [hbase, basePath?, h.source.base?, if_pos hsn, Option.bind_some, hp.basePaths]

theorem oneSided : OneSided n start start.mergePlacement.mergeContent := by
  intro c hc hk
  rcases mem_mergeContent _ c hc with hc | ⟨hu, -⟩
  · exact h.oneSided_placement c hc hk
  · rw [hk] at hu
    cases hu

theorem basePath?_target (hx : x < n) : start.mergePlacement.mergeContent.basePath?
    start.mergePlacement.mergeContent.target x = start.basePaths[x]? := by
  obtain ⟨hb, -, hpaths⟩ := h.reworded
  rw [basePath?, hb.base?, if_pos hx, hpaths]
  rfl

theorem changed_of_logged (hpaths : start.basePaths.Nodup) (hlen : start.basePaths.length = n)
    (hx : x < n) (hxt : x ∈ start.target.live) (hc : c ∈ start.run.conflicts.resolved)
    (hk : c.kind = .deletion) (hbase : c.base = start.basePaths[x]?) :
    x ∈ start.mergePlacement.mergeContent.doomed ∧
      start.mergePlacement.mergeContent.changedInTarget x = true := by
  have hinj {y : NodeId} (hy : start.basePaths[x]? = start.basePaths[y]?) : x = y :=
    (List.getElem?_inj (hlen ▸ hx) hpaths).1 hy
  rw [h.resolved_run] at hc
  rcases h.cleared.logged c hc with hc | ⟨t, ht, hch, -, hbt⟩
  · obtain ⟨s, -, hst, hbs⟩ := h.oneSided c hc hk
    obtain rfl := hinj (hbase.symm.trans hbs)
    exact absurd hxt hst
  · rw [h.basePath?_target (h.mem_doomed.1 ht).2.2.1] at hbt
    obtain rfl := hinj (hbase.symm.trans hbt)
    exact ⟨ht, hch⟩

theorem live_beforeRemovals (hxt : x ∈ start.target.live) (hxn : x < n) :
    x ∈ start.mergePlacement.mergeContent.target.live := by
  rw [(Reworded.mergeContent start.mergePlacement).target.shape.live]
  exact (h.placed.live x (h.target.lt_size hxn)).2 hxt

theorem not_accounted (hpaths : start.basePaths = base.live.map base.path)
    (hn : base.live.length = n) (wo : base.WellFormed) (hxt : x ∈ start.target.live)
    (hxn : x < n) (hseen : Overlooked start.mergePlacement.mergeContent x) :
    ¬ Accounted base start.run x := by
  have hw := Reworded.mergeContent start.mergePlacement
  have hbase := h.branch_or_base
  have hof {y : NodeId} {k : Nat} (hy : base? start.run.tree y = some k) : y = k ∧ y < n := by
    rw [hbase] at hy
    split at hy
    · next hlt => exact ⟨Option.some_inj.1 hy, hlt⟩
    · cases hy
  obtain ⟨⟨e, he, hex⟩, hsilent⟩ := hseen
  rintro (hheld | ⟨y, t, d, hy, htx, -, htd, c, hc, hk, -, hcb⟩)
  · have hgone := (h.mem_live_run.1 ((holds_iff hbase).1 hheld).1).2 e he
    exact hgone (hw.target.shape.above.1 hex)
  · obtain ⟨rfl, -⟩ := hof hy
    obtain ⟨rfl, hlt⟩ := hof htd
    rw [(alike_run start).toSameShape.above] at htx
    have htx' := h.cleared.above htx
    have htt : t ∈ start.target.live := by
      rw [← h.placed.live t (h.target.lt_size hlt), ← hw.target.shape.live]
      exact h.reworded.1.wellFormed.above_live (h.live_beforeRemovals hxt hxn) htx'
    have hnodup : start.basePaths.Nodup := hpaths ▸ wo.nodup_paths
    have hlen : start.basePaths.length = n := by rw [hpaths, List.length_map, hn]
    obtain ⟨htd', hch⟩ := h.changed_of_logged hnodup hlen hlt htt hc hk (hpaths ▸ hcb)
    rw [hsilent t htd' htx'] at hch
    cases hch

theorem accounted (hpaths : start.basePaths = base.live.map base.path)
    (hx : x ∈ start.source.live) (hxt : x ∈ start.target.live) (hxn : x < n)
    (hseen : ¬ Overlooked start.mergePlacement.mergeContent x) : Accounted base start.run x := by
  have hw := Reworded.mergeContent start.mergePlacement
  have w := h.reworded.1.wellFormed
  have hbase := h.branch_or_base
  by_cases hxr : x ∈ start.run.tree.live
  · exact .inl ((holds_iff hbase).2 ⟨hxr, hxn⟩)
  · obtain ⟨t, ht, htop, htx, hfirst, hlog, -⟩ := h.lost hx hxt hxn hxr
    obtain ⟨-, htr, htn, -⟩ := h.mem_doomed.1 ht
    have hxl := h.live_beforeRemovals hxt hxn
    have htx' : start.mergePlacement.mergeContent.target.Above t x := by
      rw [(alike_run start).toSameShape.above] at htx
      exact h.cleared.above htx
    -- the subtree that is taken out holds those of all doomed nodes above the lost one
    have hch : start.mergePlacement.mergeContent.changedInTarget t = true := by
      by_contra hcalm
      refine hseen ⟨⟨t, ht, htx'⟩, fun d hd hdx ↦ Bool.eq_false_iff.2 fun hchd ↦ hcalm ?_⟩
      have htd : start.mergePlacement.mergeContent.target.Above t d := by
        rcases WellFormed.above_total htx' hdx with htd | hdt
        · exact htd
        · rw [hfirst d hd (hw.target.shape.above.1 hdt)]
      have hdl := w.above_live hxl hdx
      obtain ⟨y, hdy, hy⟩ := (changedInTarget_iff w (w.live_lt hdl)).1 hchd
      exact (changedInTarget_iff w (w.live_lt (w.above_live hxl htx'))).2 ⟨y, htd.trans hdy, hy⟩
    obtain ⟨c, hc, hk, hres, hcb⟩ := hlog hch
    refine .inr ⟨x, t, t, by rw [hbase, if_pos hxn], htx, fun htl' ↦ ?_,
      by rw [hbase, if_pos htn], c, h.resolved_run ▸ hc, hk, hres, hpaths ▸ hcb⟩
    have hatt := (h.mem_live_run.1 htl').2 t ht
    exact hatt .refl

/-- What is overlooked is gone with a node whose move was not followed. -/
theorem stranded (hpaths : start.basePaths = base.live.map base.path)
    (hx : x ∈ start.source.live) (hxt : x ∈ start.target.live) (hxn : x < n)
    (hseen : Overlooked start.mergePlacement.mergeContent x) :
    Stranded base start.source start.target start.run x := by
  have hw := Reworded.mergeContent start.mergePlacement
  have hbase := h.branch_or_base
  have hal := alike_run start
  obtain ⟨⟨d, hd, hdx⟩, hsilent⟩ := hseen
  have hnot : x ∉ start.run.tree.live := fun hl ↦
    (h.mem_live_run.1 hl).2 d hd (hw.target.shape.above.1 hdx)
  obtain ⟨t, ht, -, htx, -, -, hrefused⟩ := h.lost hx hxt hxn hnot
  obtain ⟨htt, -, htn, hts⟩ := h.mem_doomed.1 ht
  have htx' := hal.toSameShape.above.1 htx
  obtain ⟨y, hty, hyx, hys, hmark, c, hc, hk, hres, hcb⟩ :=
    hrefused (hsilent t ht (h.cleared.above htx'))
  have hyn : y < n := by
    by_contra hle
    rw [h.source.inserted y hys (Nat.le_of_not_lt hle)] at hmark
    cases hmark
  -- the removal leaves the way from the top of the subtree to the node as it was
  have hway : start.run.tree.Above t y ∧ start.run.tree.Above y x :=
    h.placed.branch.wellFormed.above_between (fun z p hzp ↦ by
      rw [hal.parent?] at hzp
      exact (hw.target.shape.parent? z).symm.trans (h.cleared.link z p hzp)) htx hty hyx
  refine ⟨x, t, y, by rw [hbase, if_pos hxn], fun htl ↦ ?_, hway.1, hway.2,
    ⟨t, by rw [hbase, if_pos htn], (holds_iff h.target.base?).2 ⟨htt, htn⟩, fun hheld ↦ ?_⟩,
    y, by rw [hbase, if_pos hyn], ⟨y, hys, (base?_eq_some h.source).2 ⟨rfl, hyn⟩, hmark⟩,
    c, ?_, hk, hres, ?_⟩
  · have hout := (h.mem_live_run.1 htl).2 t ht
    exact hout .refl
  · exact hts ((holds_iff h.source.base?).1 hheld).1
  · rw [h.resolved_run]
    exact (hw.pending.trans h.cleared.kept).subset hc
  · rw [hcb, h.placed.basePaths, hpaths]

end Ready

/-- What a merge does to a node that both branches kept. It is there, or a deletion conflict tells
of its loss, unless it is overlooked. Then it is stranded. -/
theorem accounted_ofDeltas (wo : base.WellFormed) (wa : a.WellFormed) (wb : b.WellFormed)
    (ha : ma.OneToOne) (hb : mb.OneToOne) :
    ∃ da db, Script.patch base (Script.derive base a ma) = .ok da ∧
      Script.patch base (Script.derive base b mb) = .ok db ∧
      ∀ {α : Type} [Score α] (config : Config α) (k : Nat), Holds da k → Holds db k →
        (Accounted base (ofDeltas config base da db) k ↔
          ¬ Overlooked (beforeRemovals config base da db) k) ∧
        (Overlooked (beforeRemovals config base da db) k →
          Stranded base da db (ofDeltas config base da db) k) := by
  obtain ⟨da, hda, hA⟩ := branch_derive wo wa ha
  obtain ⟨db, hdb, hB⟩ := branch_derive wo wb hb
  refine ⟨da, db, hda, hdb, fun config k hka hkb ↦ ?_⟩
  have h : Ready base.live.length (Script.pristine base).parent? (Merge.start config base da db) :=
    ready_start config hA hB
  obtain ⟨hx, hxn⟩ := (holds_iff h.source.base?).1 ((hA.holds_ascribed .branchA k).2 hka)
  obtain ⟨hxt, -⟩ := (holds_iff h.target.base?).1 ((hB.holds_ascribed .branchB k).2 hkb)
  refine ⟨⟨fun hacc hseen ↦ h.not_accounted rfl rfl wo hxt hxn hseen hacc,
    h.accounted rfl hx hxt hxn⟩, fun hseen ↦ ?_⟩
  obtain ⟨x, t, y, hxk, htl, hty, hyx, ⟨d, htd, hd, hd'⟩, i, hyi, ⟨s, hs, hsi, hmark⟩, hc⟩ :=
    h.stranded rfl hx hxt hxn hseen
  have hsl : s ∈ da.live := (sameShape_ascribed da .branchA).live ▸ hs
  exact ⟨x, t, y, hxk, htl, hty, hyx,
    ⟨d, htd, (hB.holds_ascribed .branchB d).1 hd,
      fun hd ↦ hd' ((hA.holds_ascribed .branchA d).2 hd)⟩,
    i, hyi, ⟨s, hsl, (hA.base?_ascribed .branchA s).symm.trans hsi,
      (hA.mark_ascribed .branchA hsl).symm.trans hmark⟩, hc⟩

def callTo (endpoint : String) : Content :=
  { label := "call", attributes := .ofList [("endpoint", endpoint)] }

def loopAndCritical : Tree :=
  .ofList { label := "description" }
    [(0, { label := "loop" }), (1, callTo "y"), (0, { label := "critical" }), (3, callTo "k")]

def bothInCritical : Tree :=
  .ofList { label := "description" }
    [(0, { label := "critical" }), (1, callTo "k"), (1, callTo "y")]

def loopAlone : Tree :=
  .ofList { label := "description" } [(0, { label := "loop" }), (1, callTo "y")]

def toCritical : Matching := .ofPairs [(1, 3), (2, 4), (3, 2)]

def keepLoop : Matching := .ofPairs [(1, 1), (2, 2)]

def patched (old new : Tree) (m : Matching) : Tree :=
  (Script.patch old (Script.derive old new m)).toOption.getD default

theorem patched_eq {old new d : Tree} {m : Matching}
    (h : Script.patch old (Script.derive old new m) = .ok d) : patched old new m = d := by
  rw [patched, h]
  rfl

theorem lost_callOfLoop :
    2 ∈ (patched loopAndCritical bothInCritical toCritical).live ∧
      2 ∈ (patched loopAndCritical loopAlone keepLoop).live ∧ 2 < loopAndCritical.live.length ∧
      2 ∉ (ofDeltas (Config.standard : Config Rat) loopAndCritical
        (patched loopAndCritical bothInCritical toCritical)
        (patched loopAndCritical loopAlone keepLoop)).tree.live ∧
      ∀ c ∈ (ofDeltas (Config.standard : Config Rat) loopAndCritical
        (patched loopAndCritical bothInCritical toCritical)
        (patched loopAndCritical loopAlone keepLoop)).conflicts.resolved, c.kind ≠ .deletion := by
  decide +kernel

theorem holds_callOfLoop {da db : Tree}
    (hda : Script.patch loopAndCritical
      (Script.derive loopAndCritical bothInCritical toCritical) = .ok da)
    (hdb : Script.patch loopAndCritical
      (Script.derive loopAndCritical loopAlone keepLoop) = .ok db) :
    Holds da 2 ∧ Holds db 2 ∧ ¬ Accounted loopAndCritical
      (ofDeltas (Config.standard : Config Rat) loopAndCritical da db) 2 := by
  have wo : loopAndCritical.WellFormed := wellFormed_ofList _ _ (by decide)
  have wa : bothInCritical.WellFormed := wellFormed_ofList _ _ (by decide)
  have wb : loopAlone.WellFormed := wellFormed_ofList _ _ (by decide)
  obtain ⟨da', hda', hA⟩ := branch_derive (m := toCritical) wo wa (.ofPairs _)
  obtain ⟨db', hdb', hB⟩ := branch_derive (m := keepLoop) wo wb (.ofPairs _)
  obtain rfl := Except.ok.inj (hda.symm.trans hda')
  obtain rfl := Except.ok.inj (hdb.symm.trans hdb')
  obtain ⟨ha, hb, hn, hgone, hkinds⟩ := lost_callOfLoop
  rw [patched_eq hda] at ha hgone hkinds
  rw [patched_eq hdb] at hb hgone hkinds
  have hready : Ready loopAndCritical.live.length (Script.pristine loopAndCritical).parent?
      (Merge.start (Config.standard : Config Rat) loopAndCritical da db) := ready_start _ hA hB
  refine ⟨(holds_iff hA.base?).2 ⟨ha, hn⟩, (holds_iff hB.base?).2 ⟨hb, hn⟩, ?_⟩
  rintro (hheld | ⟨-, -, -, -, -, -, -, c, hc, hk, -⟩)
  · exact hgone ((holds_iff hready.branch_or_base).1 hheld).1
  · exact hkinds c hc hk

/-- The call that both branches keep is lost with the loop, and no deletion conflict is logged. -/
theorem not_accounted_callOfLoop :
    ∃ da db, Script.patch loopAndCritical
        (Script.derive loopAndCritical bothInCritical toCritical) = .ok da ∧
      Script.patch loopAndCritical (Script.derive loopAndCritical loopAlone keepLoop) = .ok db ∧
      Holds da 2 ∧ Holds db 2 ∧ ¬ Accounted loopAndCritical
        (ofDeltas (Config.standard : Config Rat) loopAndCritical da db) 2 := by
  have wo : loopAndCritical.WellFormed := wellFormed_ofList _ _ (by decide)
  have wa : bothInCritical.WellFormed := wellFormed_ofList _ _ (by decide)
  have wb : loopAlone.WellFormed := wellFormed_ofList _ _ (by decide)
  obtain ⟨da, hda, -⟩ := branch_derive (m := toCritical) wo wa (.ofPairs _)
  obtain ⟨db, hdb, -⟩ := branch_derive (m := keepLoop) wo wb (.ofPairs _)
  exact ⟨da, db, hda, hdb, holds_callOfLoop hda hdb⟩

/-- Branch A's move of the call under the critical section is not followed. -/
theorem accounted_ofDeltas_callOfLoop :
    ∃ da db, Script.patch loopAndCritical
        (Script.derive loopAndCritical bothInCritical toCritical) = .ok da ∧
      Script.patch loopAndCritical (Script.derive loopAndCritical loopAlone keepLoop) = .ok db ∧
      Overlooked (beforeRemovals (Config.standard : Config Rat) loopAndCritical da db) 2 ∧
      Stranded loopAndCritical da db
        (ofDeltas (Config.standard : Config Rat) loopAndCritical da db) 2 := by
  have wo : loopAndCritical.WellFormed := wellFormed_ofList _ _ (by decide)
  have wa : bothInCritical.WellFormed := wellFormed_ofList _ _ (by decide)
  have wb : loopAlone.WellFormed := wellFormed_ofList _ _ (by decide)
  have hma : toCritical.OneToOne := .ofPairs _
  have hmb : keepLoop.OneToOne := .ofPairs _
  obtain ⟨da, db, hda, hdb, h⟩ := accounted_ofDeltas wo wa wb hma hmb
  obtain ⟨ha, hb, hlost⟩ := holds_callOfLoop hda hdb
  obtain ⟨hiff, hstranded⟩ := h (Config.standard : Config Rat) 2 ha hb
  have hseen := Classical.not_not.1 fun hnot ↦ hlost (hiff.2 hnot)
  exact ⟨da, db, hda, hdb, hseen, hstranded hseen⟩

end FlowMerge.Merge
