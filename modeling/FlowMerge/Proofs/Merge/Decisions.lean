import FlowMerge.Proofs.Merge.Outcome

namespace FlowMerge.Merge

open FlowMerge.Tree

variable {start : Merge} {base a b da db r : Tree} {ma mb : Matching} {x k n : NodeId}
  {up : NodeId → Option NodeId}

def Holds (t : Tree) (k : Nat) : Prop := ∃ x ∈ t.live, base? t x = some k

/-- The merged tree `r` has the nodes of the base that both branches have, each where branch A moved
it, and otherwise where branch B has it. Nodes of branch A are found in the merged tree along
`stand`. -/
structure Honours (da db r : Tree) (stand : NodeId → Option NodeId) : Prop where
  kept : ∀ k, Holds r k ↔ Holds da k ∧ Holds db k
  once : ∀ x ∈ r.live, ∀ y ∈ r.live, base? r x ≠ none → base? r x = base? r y → x = y
  moved : ∀ x ∈ r.live, x ≠ root → ∀ s ∈ da.live, base? r x ≠ none → base? da s = base? r x →
    da.mark s = .movedHere →
      ∃ p q, da.parent? s = some p ∧ stand p = some q ∧ r.parent? x = some q
  unmoved : ∀ x ∈ r.live, x ≠ root → ∀ s ∈ da.live, base? r x ≠ none → base? da s = base? r x →
    da.mark s ≠ .movedHere → ∀ y ∈ db.live, base? db y = base? r x →
      ∃ q, db.parent? y = some q ∧ r.parent? x = some q

theorem holds_iff (h : ∀ x, base? r x = if x < n then some x else none) :
    Holds r k ↔ k ∈ r.live ∧ k < n := by
  have hbase {x : NodeId} : base? r x = some k ↔ x = k ∧ x < n := by
    rw [h]
    split
    · next hx => simp [hx]
    · next hx => simp [hx]
  constructor
  · rintro ⟨x, hx, hxk⟩
    obtain ⟨rfl, hlt⟩ := hbase.1 hxk
    exact ⟨hx, hlt⟩
  · exact fun ⟨hk, hlt⟩ ↦ ⟨k, hk, hbase.2 ⟨rfl, hlt⟩⟩

namespace Ready

variable (h : Ready n up start)
include h

theorem calm (hcalm : start.run.conflicts.resolved = []) :
    start.mergePlacement.conflicts.pending = [] ∧
      start.mergePlacement.mergeContent.mergeDeletions.conflicts.pending = [] := by
  rw [h.resolved_run] at hcalm
  have hw := (Reworded.mergeContent start.mergePlacement).pending.trans h.cleared.kept
  rw [hcalm] at hw
  exact ⟨List.prefix_nil.1 hw, hcalm⟩

/-- Without conflicts nothing that both branches kept is lost. -/
theorem mem_live_of_calm (hcalm : start.run.conflicts.resolved = []) (hx : x ∈ start.source.live)
    (hxt : x ∈ start.target.live) (hxn : x < n) : x ∈ start.run.tree.live := by
  obtain ⟨hplaced, hcleared⟩ := h.calm hcalm
  by_contra hnot
  obtain ⟨t, -, -, -, -, hlog, hrefused⟩ := h.lost hx hxt hxn hnot
  cases hch : start.mergePlacement.mergeContent.changedInTarget t with
  | true =>
    obtain ⟨c, hc, -⟩ := hlog hch
    rw [hcleared] at hc
    cases hc
  | false =>
    obtain ⟨-, -, -, -, -, c, hc, -⟩ := hrefused hch
    rw [hplaced] at hc
    cases hc

theorem kept_of_mem_live (hx : x ∈ start.run.tree.live) (hxn : x < n) :
    x ∈ start.source.live ∧ x ∈ start.target.live := by
  obtain ⟨hl, hdoomed⟩ := h.mem_live_run.1 hx
  have htl := (h.placed.live x (h.target.lt_size hxn)).1 hl
  refine ⟨?_, htl⟩
  by_contra hxs
  have hr : x ≠ root := by
    rintro rfl
    exact hxs h.source.wellFormed.root_mem_live
  exact hdoomed x (h.mem_doomed.2 ⟨htl, hr, hxn, hxs⟩) .refl

theorem parent?_run (hx : x ∈ start.run.tree.live) :
    start.run.tree.parent? x = start.mergePlacement.target.parent? x := by
  have hw := Reworded.mergeContent start.mergePlacement
  have hal := alike_run start
  rw [hal.parent?, h.cleared.parent? x (hal.toSameShape.live ▸ hx), hw.target.shape.parent?]

theorem honours (hcalm : start.run.conflicts.resolved = []) :
    Honours start.source start.target start.run.tree start.mergePlacement.counterpart? := by
  have hbase := h.branch_or_base
  have hlt {x : NodeId} (hx : base? start.run.tree x ≠ none) : x < n := by
    by_contra hn
    rw [hbase, if_neg hn] at hx
    exact hx rfl
  have hsame {t : Tree} (ht : Branch n up t) {s x : NodeId} (hx : x < n)
      (hs : base? t s = base? start.run.tree x) : s = x := by
    rw [hbase, if_pos hx] at hs
    exact ((base?_eq_some ht).1 hs).1
  refine ⟨fun k ↦ ?_, fun x _ y _ hx hxy ↦ ?_, fun x hx hr s hs hxb hsx hm ↦ ?_,
    fun x hx hr s hs hxb hsx hm y hy hyx ↦ ?_⟩
  · rw [holds_iff hbase, holds_iff h.source.base?, holds_iff h.target.base?]
    constructor
    · rintro ⟨hk, hkn⟩
      obtain ⟨hs, ht⟩ := h.kept_of_mem_live hk hkn
      exact ⟨⟨hs, hkn⟩, ht, hkn⟩
    · rintro ⟨⟨hs, hkn⟩, ht, -⟩
      exact ⟨h.mem_live_of_calm hcalm hs ht hkn, hkn⟩
  · rw [hbase, hbase, if_pos (hlt hx)] at hxy
    split at hxy
    · exact Option.some_inj.1 hxy
    · cases hxy
  · -- a refused move would have left a conflict
    obtain rfl := hsame h.source (hlt hxb) hsx
    obtain ⟨p, hp, -⟩ := h.source.wellFormed.exists_parent_of_live hs hr
    have hl := (h.mem_live_run.1 hx).1
    rcases h.placed.decided s (h.source.wellFormed.mem_live_tail.2 ⟨hs, hr⟩) (hlt hxb) hm hl p hp
      with ⟨c, hc, -⟩ | ⟨q, hq, hpar, -⟩
    · rw [(h.calm hcalm).1] at hc
      cases hc
    · exact ⟨p, q, hp, hq, (h.parent?_run hx).trans hpar⟩
  · obtain rfl := hsame h.source (hlt hxb) hsx
    obtain rfl := hsame h.target (hlt hxb) hyx
    obtain ⟨q, hq, -⟩ := h.target.wellFormed.exists_parent_of_live hy hr
    refine ⟨q, hq, (h.parent?_run hx).trans (Eq.trans ?_ hq)⟩
    exact h.placed.awaiting y (h.target.lt_size (hlt hxb)) fun _ ↦ hm

end Ready

theorem Branch.holds_ascribed (h : Branch n up da) (p : Provenance) (k : Nat) :
    Holds (Merge.ascribed da p) k ↔ Holds da k := by
  rw [Holds, (sameShape_ascribed da p).live, Holds]
  simp only [h.base?_ascribed]

theorem Honours.of_ascribed {p q : Provenance} {stand : NodeId → Option NodeId}
    (h : Honours (ascribed da p) (ascribed db q) r stand) (ha : Branch n up da)
    (hb : Branch n up db) : Honours da db r stand := by
  have hsa := sameShape_ascribed da p
  have hsb := sameShape_ascribed db q
  have hba := ha.base?_ascribed p
  have hbb := hb.base?_ascribed q
  have hmark {s : NodeId} (hs : s ∈ da.live) := ha.mark_ascribed p hs
  have hkept := h.kept
  simp only [ha.holds_ascribed, hb.holds_ascribed] at hkept
  refine ⟨hkept, h.once, fun x hx hr s hs hxb hsx hm ↦ ?_,
    fun x hx hr s hs hxb hsx hm y hy hyx ↦ ?_⟩
  · have hmoved := h.moved x hx hr s (hsa.live ▸ hs) hxb ((hba s).trans hsx)
      ((hmark hs).trans hm)
    rwa [hsa.parent?] at hmoved
  · have hstay := h.unmoved x hx hr s (hsa.live ▸ hs) hxb ((hba s).trans hsx)
      (fun he ↦ hm ((hmark hs).symm.trans he)) y (hsb.live ▸ hy) ((hbb y).trans hyx)
    rwa [hsb.parent?] at hstay

def standIn? {α : Type} [Score α] (config : Config α) (base a b : Tree) (s : NodeId) :
    Option NodeId := (Merge.start config base a b).mergePlacement.counterpart? s

/-- A merge that logs no conflict honours what both branches decided about the base. -/
theorem honours_ofDeltas (wo : base.WellFormed) (wa : a.WellFormed) (wb : b.WellFormed)
    (ha : ma.OneToOne) (hb : mb.OneToOne) :
    ∃ da db, Script.patch base (Script.derive base a ma) = .ok da ∧
      Script.patch base (Script.derive base b mb) = .ok db ∧
      ∀ {α : Type} [Score α] (config : Config α),
        (ofDeltas config base da db).conflicts.resolved = [] →
          Honours da db (ofDeltas config base da db).tree (standIn? config base da db) := by
  obtain ⟨da, hda, hA⟩ := branch_derive wo wa ha
  obtain ⟨db, hdb, hB⟩ := branch_derive wo wb hb
  refine ⟨da, db, hda, hdb, fun config hcalm ↦ ?_⟩
  exact ((ready_start config hA hB).honours hcalm).of_ascribed hA hB

def loopCallCritical : Tree :=
  .ofList { label := "description" }
    [(0, { label := "loop" }), (0, { label := "call" }), (0, { label := "critical" })]

def loopOfCall : Tree :=
  .ofList { label := "description" }
    [(0, { label := "loop" }), (1, { label := "call" }), (0, { label := "critical" })]

def loopCall : Tree :=
  .ofList { label := "description" } [(0, { label := "loop" }), (0, { label := "call" })]

/-- Branch A moves the call into the loop, and branch B deletes the critical section. -/
theorem honours_ofDeltas_loopOfCall :
    ∃ da db, Script.patch loopCallCritical
        (Script.derive loopCallCritical loopOfCall (.ofPairs [(1, 1), (2, 2), (3, 3)])) = .ok da ∧
      Script.patch loopCallCritical
        (Script.derive loopCallCritical loopCall (.ofPairs [(1, 1), (2, 2)])) = .ok db ∧
      Honours da db (ofDeltas (Config.standard : Config Rat) loopCallCritical da db).tree
        (standIn? (Config.standard : Config Rat) loopCallCritical da db) := by
  have wo : loopCallCritical.WellFormed := wellFormed_ofList _ _ (by decide)
  have wa : loopOfCall.WellFormed := wellFormed_ofList _ _ (by decide)
  have wb : loopCall.WellFormed := wellFormed_ofList _ _ (by decide)
  obtain ⟨da, db, hda, hdb, h⟩ := honours_ofDeltas wo wa wb
    (.ofPairs [(1, 1), (2, 2), (3, 3)]) (.ofPairs [(1, 1), (2, 2)])
  refine ⟨da, db, hda, hdb, h _ ?_⟩
  have hcalm : (ofDeltas (Config.standard : Config Rat) loopCallCritical
      ((Script.patch loopCallCritical (Script.derive loopCallCritical loopOfCall
        (.ofPairs [(1, 1), (2, 2), (3, 3)]))).toOption.getD default)
      ((Script.patch loopCallCritical (Script.derive loopCallCritical loopCall
        (.ofPairs [(1, 1), (2, 2)]))).toOption.getD default)).conflicts.resolved.isEmpty = true := by
    decide +kernel
  rw [hda, hdb] at hcalm
  exact List.isEmpty_iff.1 hcalm

end FlowMerge.Merge
