import FlowMerge.Proofs.Merge.Insertions
import FlowMerge.Proofs.Merge.Survivors

namespace FlowMerge.Merge

open FlowMerge.Tree

variable {start m : Merge} {base a b da db r : Tree} {ma mb : Matching} {s d x t p n : NodeId}
  {c : Conflict} {up : NodeId → Option NodeId} {partner stand : NodeId → Option NodeId}

def Alarmed (r : MergeResult) (path : Path) : Prop :=
  ∃ c ∈ r.conflicts.resolved, c.kind = .deletion ∧
    c.text = "deleted in branch B, changed in branch A" ∧ c.path = path

/-- Branch A changed a node, and the outcome `r` does not show it. A node that was inserted has no
live node that stands for it, and a node of the base that was moved or updated is not there. -/
def Vain (da r : Tree) (stand : NodeId → Option NodeId) (d : NodeId) : Prop :=
  isNil da d = false ∧ if (da.mark d).isInsertion then ∀ t, stand d = some t → t ∉ r.live
    else ∃ k, base? da d = some k ∧ ¬ Holds r k

structure Stirs (da : Tree) (partner : NodeId → Option NodeId) (s d : NodeId) : Prop where
  below : da.Above s d
  alone : partner d = none
  changed : isNil da d = false

structure Rescued (da r : Tree) (partner stand : NodeId → Option NodeId) (s d : NodeId) : Prop where
  inserted : (da.mark d).isInsertion = true
  there : ∃ t, stand d = some t ∧ t ∈ r.live
  kept : ∃ k, da.Above s k ∧ k ≠ s ∧ da.Above k d ∧ k ≠ d ∧ partner k ≠ none

/-- What a conflict about the node `s` of branch A goes back to. Branch B deleted the node, and some
change of branch A has no effect. Or else there are changes, but only insertions that are in the
outcome `r` all the same. -/
structure Alarming (da db r : Tree) (partner stand : NodeId → Option NodeId) (s : NodeId) :
    Prop where
  deleted : ∃ k, base? da s = some k ∧ ¬ Holds db k
  cause : (∃ d, da.Above s d ∧ Vain da r stand d) ∨
    (∃ d, Stirs da partner s d) ∧ ∀ d, Stirs da partner s d → Rescued da r partner stand s d

theorem mem_remove (h : c ∈ (m.remove t p).conflicts.pending) :
    c ∈ m.conflicts.pending ∨ c.text = "deleted in branch A, changed in branch B" := by
  rw [(remove_rest m t p).2.2.2, condemned] at h
  split at h
  · refine (List.mem_append.1 h).imp_right fun h ↦ ?_
    rw [List.mem_singleton.1 h]
  · exact .inl h

theorem mem_mergeDeletions (m : Merge) : ∀ c ∈ m.mergeDeletions.conflicts.pending,
    c ∈ m.conflicts.pending ∨ c.text = "deleted in branch A, changed in branch B" := by
  rw [mergeDeletions_eq]
  refine List.foldlRecOn _ _ (motive := fun m' : Merge ↦ ∀ c ∈ m'.conflicts.pending,
    c ∈ m.conflicts.pending ∨ c.text = "deleted in branch A, changed in branch B")
    (fun _ hc ↦ .inl hc) fun m' ih t _ c hc ↦ ?_
  rw [prune] at hc
  split at hc
  · split at hc
    · rcases mem_remove hc with hc | htext
      · exact ih c hc
      · exact .inr htext
    · exact ih c hc
  · exact ih c hc

namespace Ready

variable (h : Ready n up start)
include h

/-- At the turn of a node without counterpart the alignment ties nothing else to what is found
below it than it did at the start. -/
theorem stirs_of_alarms {seen : List NodeId} (hp : Placed n up start seen m)
    (hs : s ∈ start.source.live) (hold : m.matching.old? s = none) (hc : Alarms m s c) :
    ∃ d, Stirs start.source start.counterpart? s d := by
  have hch := hc.changed
  rw [changedInSource, hp.source, List.any_eq_true] at hch
  obtain ⟨d, hd, hch⟩ := hch
  rw [Bool.and_eq_true, Bool.or_eq_true, Bool.not_eq_true', Bool.not_eq_true', beq_iff_eq] at hch
  refine ⟨d, (h.source.wellFormed.mem_preorder (h.source.wellFormed.live_lt hs)).1 hd, ?_, hch.2⟩
  have hfree : m.matching.old? d = none := by
    rcases hch.1 with rfl | hfree
    · exact hold
    · exact Matching.hasNew_eq_false.1 hfree
  rw [counterpart?]
  cases hst : start.matching.old? d with
  | none => rfl
  | some t =>
    rw [hp.kept d t hst] at hfree
    cases hfree

/-- All alarms are about nodes of the base that branch B does not have. -/
theorem alarms_placement : ∀ c ∈ start.mergePlacement.conflicts.pending, c.kind = .deletion →
    ∃ s ∈ start.source.live, s < n ∧ s ∉ start.target.live ∧ c.path = start.source.path s ∧
      ∃ d, Stirs start.source start.counterpart? s d := by
  refine h.placement_induction (P := fun _ m ↦ ∀ c ∈ m.conflicts.pending, c.kind = .deletion →
    ∃ s ∈ start.source.live, s < n ∧ s ∉ start.target.live ∧ c.path = start.source.path s ∧
      ∃ d, Stirs start.source start.counterpart? s d) ?_ fun pre s m hp hs ih c hc hk ↦ ?_
  · intro c hc
    rw [h.pending] at hc
    cases hc
  · rcases mem_follow hc with hc | hmove | ⟨hold, hmark, halarm⟩
    · exact ih c hc hk
    · rw [hk] at hmove
      cases hmove
    · obtain ⟨hsn, hst⟩ := h.gone_of_alone hp hs.live hold (hp.source ▸ hmark)
      exact ⟨s, hs.live, hsn, hst, hp.source ▸ halarm.path,
        h.stirs_of_alarms hp hs.live hold halarm⟩

theorem alarms_run (hc : c ∈ start.run.conflicts.resolved) (hk : c.kind = .deletion)
    (htext : c.text = "deleted in branch B, changed in branch A") :
    ∃ s ∈ start.source.live, s < n ∧ s ∉ start.target.live ∧ c.path = start.source.path s ∧
      ∃ d, Stirs start.source start.counterpart? s d := by
  rw [h.resolved_run] at hc
  rcases mem_mergeDeletions _ c hc with hc | htext'
  · rcases mem_mergeContent _ c hc with hc | ⟨hu, -⟩
    · exact h.alarms_placement c hc hk
    · rw [hk] at hu
      cases hu
  · rw [htext] at htext'
    exact absurd htext' (by decide)

/-- What is tied in the end below a node that is not hangs below a node that was tied from the
start. -/
theorem exists_kept (hs : start.mergePlacement.matching.old? s = none)
    (hsx : start.source.Above s x) (hx : start.mergePlacement.matching.old? x ≠ none) :
    ∃ k, start.source.Above s k ∧ k ≠ s ∧ start.source.Above k x ∧
      start.matching.old? k ≠ none := by
  induction hsx with
  | refl => exact absurd hs hx
  | @tail q x hsq hqx ih =>
    by_cases hstart : start.matching.old? x = none
    · obtain ⟨t, ht⟩ := Option.ne_none_iff_exists'.1 hx
      obtain ⟨-, -, p, tp, hp, htp, -⟩ := h.copied x t ht hstart
      obtain rfl := Option.some_inj.1 (hqx.symm.trans hp)
      obtain ⟨k, hsk, hne, hkq, hk⟩ := ih (by rw [htp]; exact Option.some_ne_none tp)
      exact ⟨k, hsk, hne, hkq.tail hqx, hk⟩
    · refine ⟨x, hsq.tail hqx, ?_, .refl, hstart⟩
      rintro rfl
      exact h.source.wellFormed.not_above_of_parent hqx hsq

theorem vain_or_rescued (hs : s ∈ start.source.live) (hsn : s < n) (hst : s ∉ start.target.live)
    (hd : Stirs start.source start.counterpart? s d) :
    Vain start.source start.run.tree start.mergePlacement.counterpart? d ∨
      Rescued start.source start.run.tree start.counterpart? start.mergePlacement.counterpart?
        s d := by
  have hp := h.placed
  have hdl : d ∈ start.source.live := h.source.wellFormed.mem_live.2
    ((h.source.wellFormed.mem_live.1 hs).trans hd.below)
  by_cases hins : (start.source.mark d).isInsertion = true
  · by_cases hthere : ∃ t, start.mergePlacement.counterpart? d = some t ∧ t ∈ start.run.tree.live
    · obtain ⟨t, ht, htl⟩ := hthere
      -- only nodes of the base are tied to nodes of the base, and this one is not there
      have hfree : start.mergePlacement.matching.old? s = none := by
        rw [Option.eq_none_iff_forall_ne_some]
        intro y hy
        obtain rfl := hp.aligned.eq_of_lt h.source hp.branch hy hsn
        exact hst ((hp.live y (h.target.lt_size hsn)).1 (hp.aligned.live y y hy).2)
      obtain ⟨k, hsk, hne, hkd, hk⟩ := h.exists_kept hfree hd.below
        (Option.ne_none_iff_exists'.2 ⟨t, ht⟩)
      refine .inr ⟨hins, ⟨t, ht, htl⟩, k, hsk, hne, hkd, ?_, hk⟩
      rintro rfl
      exact hk hd.alone
    · refine .inl ⟨hd.changed, ?_⟩
      rw [if_pos hins]
      exact fun t ht htl ↦ hthere ⟨t, ht, htl⟩
  · have hdn : d < n := Nat.lt_of_not_le fun hle ↦ hins ((h.source.isInsertion_iff hdl).2 hle)
    refine .inl ⟨hd.changed, ?_⟩
    rw [if_neg hins]
    refine ⟨d, (base?_eq_some h.source).2 ⟨rfl, hdn⟩, fun hheld ↦ ?_⟩
    obtain ⟨hl, -⟩ := (holds_iff h.branch_or_base).1 hheld
    -- a node of the base that is still there has had its counterpart all along
    have hknown := h.aligned.known d hdn hdl (h.kept_of_mem_live hl hdn).2
    have halone := hd.alone
    rw [counterpart?, hknown] at halone
    cases halone

theorem alarming (hs : s ∈ start.source.live)
    (halarm : Alarmed start.run (start.source.path s)) :
    Alarming start.source start.target start.run.tree start.counterpart?
      start.mergePlacement.counterpart? s := by
  obtain ⟨c, hc, hk, htext, hpath⟩ := halarm
  obtain ⟨s', hs', hsn, hst, hpath', hstirs⟩ := h.alarms_run hc hk htext
  obtain rfl := path_inj h.source.wellFormed hs hs' (hpath.symm.trans hpath')
  refine ⟨⟨s, (base?_eq_some h.source).2 ⟨rfl, hsn⟩, fun hheld ↦
    hst ((holds_iff h.target.base?).1 hheld).1⟩, ?_⟩
  by_cases hvain : ∃ d, start.source.Above s d ∧
      Vain start.source start.run.tree start.mergePlacement.counterpart? d
  · exact .inl hvain
  · exact .inr ⟨hstirs, fun d hd ↦ (h.vain_or_rescued hs hsn hst hd).resolve_left fun hv ↦
      hvain ⟨d, hd.below, hv⟩⟩

end Ready

section Ascribed

variable (ha : Branch n up da) (q : Provenance)
include ha

theorem isNil_ascribed (hd : d ∈ da.live) : isNil (ascribed da q) d = isNil da d := by
  obtain ⟨y, hy⟩ := ha.recorded d hd
  exact isNil_congr ((delta?_ascribed da q hy).trans hy.symm)

theorem vain_ascribed (hd : d ∈ da.live) : Vain (ascribed da q) r stand d ↔ Vain da r stand d := by
  rw [Vain, isNil_ascribed ha q hd, ha.mark_ascribed q hd, ha.base?_ascribed, Vain]

theorem stirs_ascribed (hs : s ∈ da.live) :
    Stirs (ascribed da q) partner s d ↔ Stirs da partner s d := by
  have habove : (ascribed da q).Above s d ↔ da.Above s d := (sameShape_ascribed da q).above
  have hnil (h : da.Above s d) : isNil (ascribed da q) d = isNil da d :=
    isNil_ascribed ha q (ha.wellFormed.mem_live.2 ((ha.wellFormed.mem_live.1 hs).trans h))
  exact ⟨fun h ↦ ⟨habove.1 h.below, h.alone, hnil (habove.1 h.below) ▸ h.changed⟩,
    fun h ↦ ⟨habove.2 h.below, h.alone, (hnil h.below).trans h.changed⟩⟩

theorem Rescued.of_ascribed (h : Rescued (ascribed da q) r partner stand s d)
    (hd : d ∈ da.live) : Rescued da r partner stand s d := by
  obtain ⟨hins, hthere, k, hsk, hne, hkd, hrest⟩ := h
  have hshape := sameShape_ascribed da q
  exact ⟨ha.mark_ascribed q hd ▸ hins, hthere, k, hshape.above.1 hsk, hne, hshape.above.1 hkd,
    hrest⟩

theorem Alarming.of_ascribed {q' : Provenance}
    (h : Alarming (ascribed da q) (ascribed db q') r partner stand s) (hb : Branch n up db)
    (hs : s ∈ da.live) : Alarming da db r partner stand s := by
  have hlive {d : NodeId} (h : da.Above s d) : d ∈ da.live :=
    ha.wellFormed.mem_live.2 ((ha.wellFormed.mem_live.1 hs).trans h)
  obtain ⟨⟨k, hk, hgone⟩, hcause⟩ := h
  refine ⟨⟨k, (ha.base?_ascribed q s).symm.trans hk,
    fun hheld ↦ hgone ((hb.holds_ascribed q' k).2 hheld)⟩, ?_⟩
  simp only [stirs_ascribed ha q hs] at hcause
  refine hcause.imp ?_ (And.imp_right fun hall d hd ↦ (hall d hd).of_ascribed ha q (hlive hd.below))
  rintro ⟨d, hsd, hd⟩
  have hsd' := (sameShape_ascribed da q).above.1 hsd
  exact ⟨d, hsd', (vain_ascribed ha q (hlive hsd')).1 hd⟩

end Ascribed

/-- A conflict about a node that branch B deleted and in which branch A changed something goes back
to a change of branch A that has no effect, or else to insertions only that were made below nodes
that branch B kept. -/
theorem alarming_ofDeltas (wo : base.WellFormed) (wa : a.WellFormed) (wb : b.WellFormed)
    (ha : ma.OneToOne) (hb : mb.OneToOne) :
    ∃ da db, Script.patch base (Script.derive base a ma) = .ok da ∧
      Script.patch base (Script.derive base b mb) = .ok db ∧
      ∀ {α : Type} [Score α] (config : Config α), ∀ s ∈ da.live,
        Alarmed (ofDeltas config base da db) (da.path s) →
          Alarming da db (ofDeltas config base da db).tree (partner? config base da db)
            (standIn? config base da db) s := by
  obtain ⟨da, hda, hA⟩ := branch_derive wo wa ha
  obtain ⟨db, hdb, hB⟩ := branch_derive wo wb hb
  refine ⟨da, db, hda, hdb, fun config s hs halarm ↦ ?_⟩
  have h : Ready base.live.length (Script.pristine base).parent? (Merge.start config base da db) :=
    ready_start config hA hB
  have hshape := sameShape_ascribed da .branchA
  rw [← hshape.path] at halarm
  exact (h.alarming (hshape.live.symm ▸ hs) halarm).of_ascribed hA .branchA hB hs

instance (r : MergeResult) (path : Path) : Decidable (Alarmed r path) :=
  inferInstanceAs (Decidable (∃ c ∈ r.conflicts.resolved, c.kind = .deletion ∧
    c.text = "deleted in branch B, changed in branch A" ∧ c.path = path))

def loopWithParameters : Tree :=
  .ofList { label := "description" }
    [(0, { label := "loop" }), (1, callTo "k"), (2, { label := "parameters" })]

def addParameters : Matching := .ofPairs [(1, 1), (2, 2)]

def deleteLoop : Matching := .ofPairs [(1, 2)]

theorem alarmed_addParameters :
    1 ∈ (patched (loopOf [callTo "k"] []) loopWithParameters addParameters).live ∧
      Alarmed (ofDeltas (Config.standard : Config Rat) (loopOf [callTo "k"] [])
        (patched (loopOf [callTo "k"] []) loopWithParameters addParameters)
        (patched (loopOf [callTo "k"] []) (callAlone "k") deleteLoop))
        ((patched (loopOf [callTo "k"] []) loopWithParameters addParameters).path 1) := by
  decide +kernel

theorem there_addParameters :
    ((patched (loopOf [callTo "k"] []) loopWithParameters addParameters).mark 3).isInsertion ∧
      standIn? (Config.standard : Config Rat) (loopOf [callTo "k"] [])
        (patched (loopOf [callTo "k"] []) loopWithParameters addParameters)
        (patched (loopOf [callTo "k"] []) (callAlone "k") deleteLoop) 3 = some 4 ∧
      4 ∈ (ofDeltas (Config.standard : Config Rat) (loopOf [callTo "k"] [])
        (patched (loopOf [callTo "k"] []) loopWithParameters addParameters)
        (patched (loopOf [callTo "k"] []) (callAlone "k") deleteLoop)).tree.live ∧
      ∀ d ∈ (patched (loopOf [callTo "k"] []) loopWithParameters addParameters).preorder 1,
        d = 3 ∨ isNil (patched (loopOf [callTo "k"] []) loopWithParameters addParameters) d := by
  decide +kernel

/-- Branch B takes a call out of a loop and deletes the loop, while branch A gives the call
parameters. A conflict is logged for the loop, but the parameters are in the merged tree, and
nothing else was changed. -/
theorem not_vain_addParameters :
    ∃ da db, Script.patch (loopOf [callTo "k"] [])
        (Script.derive (loopOf [callTo "k"] []) loopWithParameters addParameters) = .ok da ∧
      Script.patch (loopOf [callTo "k"] [])
        (Script.derive (loopOf [callTo "k"] []) (callAlone "k") deleteLoop) = .ok db ∧
      1 ∈ da.live ∧ Alarmed (ofDeltas (Config.standard : Config Rat) (loopOf [callTo "k"] []) da db)
        (da.path 1) ∧
      ∀ d, da.Above 1 d → ¬ Vain da
        (ofDeltas (Config.standard : Config Rat) (loopOf [callTo "k"] []) da db).tree
        (standIn? (Config.standard : Config Rat) (loopOf [callTo "k"] []) da db) d := by
  have wo : (loopOf [callTo "k"] []).WellFormed := wellFormed_ofList _ _ (by decide)
  have wa : loopWithParameters.WellFormed := wellFormed_ofList _ _ (by decide)
  have wb : (callAlone "k").WellFormed := wellFormed_ofList _ _ (by decide)
  obtain ⟨da, hda, hA⟩ := branch_derive (m := addParameters) wo wa (.ofPairs _)
  obtain ⟨db, hdb, -⟩ := branch_derive (m := deleteLoop) wo wb (.ofPairs _)
  obtain ⟨hlive, halarm⟩ := alarmed_addParameters
  obtain ⟨hins, hstand, hthere, honly⟩ := there_addParameters
  rw [patched_eq hda] at hlive halarm hins hstand hthere honly
  rw [patched_eq hdb] at halarm hstand hthere
  refine ⟨da, db, hda, hdb, hlive, halarm, fun d hd ↦ ?_⟩
  rintro ⟨hchanged, hlost⟩
  rcases honly d ((hA.wellFormed.mem_preorder (hA.wellFormed.live_lt hlive)).2 hd) with rfl | hnil
  · rw [if_pos hins] at hlost
    exact hlost 4 hstand hthere
  · rw [hnil] at hchanged
    cases hchanged

/-- What the conflict about the loop goes back to. -/
theorem alarming_ofDeltas_addParameters :
    ∃ da db, Script.patch (loopOf [callTo "k"] [])
        (Script.derive (loopOf [callTo "k"] []) loopWithParameters addParameters) = .ok da ∧
      Script.patch (loopOf [callTo "k"] [])
        (Script.derive (loopOf [callTo "k"] []) (callAlone "k") deleteLoop) = .ok db ∧
      Alarming da db (ofDeltas (Config.standard : Config Rat) (loopOf [callTo "k"] []) da db).tree
        (partner? (Config.standard : Config Rat) (loopOf [callTo "k"] []) da db)
        (standIn? (Config.standard : Config Rat) (loopOf [callTo "k"] []) da db) 1 := by
  have wo : (loopOf [callTo "k"] []).WellFormed := wellFormed_ofList _ _ (by decide)
  have wa : loopWithParameters.WellFormed := wellFormed_ofList _ _ (by decide)
  have wb : (callAlone "k").WellFormed := wellFormed_ofList _ _ (by decide)
  have hma : addParameters.OneToOne := .ofPairs _
  have hmb : deleteLoop.OneToOne := .ofPairs _
  obtain ⟨da, db, hda, hdb, h⟩ := alarming_ofDeltas wo wa wb hma hmb
  obtain ⟨hlive, halarm⟩ := alarmed_addParameters
  rw [patched_eq hda] at hlive halarm
  rw [patched_eq hdb] at halarm
  exact ⟨da, db, hda, hdb, h (Config.standard : Config Rat) 1 hlive halarm⟩

end FlowMerge.Merge
