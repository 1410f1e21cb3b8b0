import FlowMerge.Proofs.Merge.Contents
import FlowMerge.Proofs.Script.Annotated

namespace FlowMerge.Merge

open FlowMerge.Tree

variable {base a b d u : Tree} {ma mb : Matching} {start m : Merge} {t x : NodeId} {n : Nat}
  {up : NodeId → Option NodeId} {first : NodeId → Content} {e : String × Update}
  {contested : String → Bool} {p : NodeId × NodeId}

theorem Annotated.mergeField (h : Annotated n first m.target)
    (hlabel : t < n → e.1 = Content.labelKey → e.2.new ≠ none) :
    Annotated n first (mergeField contested t m e).target := by
  have hq := (quiet_mergeField contested t m e).alike
  split at hq
  · exact h.steady (.of_alike hq)
  · exact (h.updateField t e hlabel).steady (.of_alike hq)

/-- What branch A recorded on a node of the base can be recorded on top of what branch B did. -/
theorem Annotated.mergeFields (hA : Branch n up m.source) (hs : Annotated n first m.source)
    (ha : Aligned n m.source u m.matching) (hu : Branch n up u) (hp : p ∈ m.pairs)
    (h : Annotated n first m.target) : Annotated n first (m.mergeFields p).target := by
  obtain ⟨s, t⟩ := p
  obtain ⟨hsl, hst⟩ := mem_pairs.1 hp
  have hlabel : ∀ e ∈ m.sourceUpdates s t, t < n → e.1 = Content.labelKey → e.2.new ≠ none := by
    intro e he hlt hk
    have hsn : s < n := by
      by_contra hle
      exact Nat.not_lt_of_le (ha.le_of_le hA hu hst (Nat.le_of_not_lt hle)) hlt
    have hboth : m.bothInserted s t = false := by
      rw [bothInserted, hA.known s hsl hsn, Bool.false_and]
    obtain ⟨y, hy, -, hex⟩ := hs s hsn
    rw [sourceUpdates, hboth, if_neg Bool.false_ne_true, hy] at he
    exact Content.ne_none_of_eq_field (hex.records.new_eq e he) hk
  exact List.foldlRecOn _ _ (motive := fun m' : Merge ↦ Annotated n first m'.target) h
    fun m' hm' e he ↦ Annotated.mergeField hm' (hlabel e he)

theorem Annotated.mergeContent (hA : Branch n up m.source) (hs : Annotated n first m.source)
    (ha : Aligned n m.source m.target m.matching) (hB : Branch n up m.target)
    (h : Annotated n first m.target) : Annotated n first m.mergeContent.target := by
  rw [mergeContent_eq]
  refine (List.foldlRecOn m.pairs _ (motive := fun m' : Merge ↦
    Reworded m m' ∧ Annotated n first m'.target) ⟨.refl m, h⟩ fun m' ⟨hr, hm'⟩ p hp ↦ ?_).2
  refine ⟨hr.trans (.mergeFields m' p), ?_⟩
  rw [← hr.source] at hA hs
  rw [← hr.source, ← hr.matching] at ha
  refine Annotated.mergeFields hA hs ha hB (mem_pairs.2 ?_) hm'
  rw [hr.source, hr.matching]
  exact mem_pairs.1 hp

theorem steady_remove (m : Merge) (t p : NodeId) : Steady m.target (m.remove t p).target := by
  have hcondemned := Steady.of_alike (quiet_condemned m t).alike
  have hstruck := Steady.of_alike (quiet_struck (m.condemned t) t).alike
  rw [remove_eq]
  generalize (m.condemned t).struck t = v at hstruck
  have hmarked : Steady m.target v.target := (hcondemned.trans (.markDeleted _ t)).trans hstruck
  exact (hmarked.trans (.addPlaceholder _ p t)).trans (.detach _ t)

theorem steady_mergeDeletions (m : Merge) : Steady m.target m.mergeDeletions.target := by
  rw [mergeDeletions_eq]
  refine List.foldlRecOn _ _ (motive := fun m' : Merge ↦ Steady m.target m'.target) (.refl _)
    fun m' h t _ ↦ h.trans ?_
  rw [prune]
  split
  · split
    · exact steady_remove m' t _
    · exact .refl _
  · exact .refl _

theorem annotated_ascribed (h : Annotated n first u) (p : Provenance) :
    Annotated n first (ascribed u p) := by
  intro x hx
  obtain ⟨y, hy, hrest⟩ := h x hx
  exact ⟨y, delta?_ascribed u p hy, (content_ascribed u p x).symm ▸ hrest⟩

/-- If both branches say exactly what they did to the base, so does the outcome. -/
theorem Ready.annotated_run (h : Ready n up start) (ha : Annotated n first start.source)
    (hb : Annotated n first start.target) : Annotated n first start.run.tree := by
  have hp := h.placed
  have hplaced : Annotated n first start.mergePlacement.target := hb.steady h.steady
  have hcontent : Annotated n first start.mergePlacement.mergeContent.target := by
    refine Annotated.mergeContent ?_ ?_ ?_ hp.branch hplaced
    · exact hp.source ▸ h.source
    · exact hp.source ▸ ha
    · exact hp.source ▸ hp.aligned
  exact (hcontent.steady (steady_mergeDeletions _)).steady (.of_alike (alike_run start))

/-- On all nodes of `d` that come from `base` the difference to the base is recorded, and their
marks do not deny it. -/
def Recounts (base d : Tree) : Prop :=
  ∀ x i, base? d x = some i → ∃ o y, base.live[i]? = some o ∧ d.delta? x = some y ∧
    y.updates = (base.content o).diffFields (d.content x) ∧
      (y.mark = .unchanged → y.updates = []) ∧ (y.mark = .updated → y.updates ≠ [])

theorem recounts_of_annotated (w : base.WellFormed) (ub : base.Unambiguous)
    (h : Annotated base.live.length (Script.pristine base).content d)
    (hbase : ∀ x, base? d x = if x < base.live.length then some x else none) :
    Recounts base d := by
  intro x i hx
  rw [hbase] at hx
  split at hx
  · next hlt =>
    obtain rfl := Option.some_inj.1 hx
    obtain ⟨o, ho, rfl⟩ := w.exists_place hlt
    obtain ⟨y, hy, -, hex⟩ := h _ hlt
    rw [Script.content_pristine w ho] at hex
    exact ⟨o, y, List.getElem?_idxOf ho, hy, hex.updates_eq (ub o ho), hex.unchanged, hex.updated⟩
  · cases hx

/-- Whatever the matchings and thresholds, the branches and the outcome of a merge tell how each
node differs from what it was in the base. -/
theorem recounts_ofDeltas (wo : base.WellFormed) (wa : a.WellFormed) (wb : b.WellFormed)
    (uo : base.Unambiguous) (ua : a.Unambiguous) (ub : b.Unambiguous)
    (ha : ma.OneToOne) (hb : mb.OneToOne) :
    ∃ da db, Script.patch base (Script.derive base a ma) = .ok da ∧
      Script.patch base (Script.derive base b mb) = .ok db ∧
      Recounts base da ∧ Recounts base db ∧
      ∀ {α : Type} [Score α] (config : Config α),
        Recounts base (ofDeltas config base da db).tree := by
  obtain ⟨da, hda, hA⟩ := branch_derive wo wa ha
  obtain ⟨db, hdb, hB⟩ := branch_derive wo wb hb
  have hAnn := (Script.annotated_patch wo wa uo ua ha hda).1
  have hBnn := (Script.annotated_patch wo wb uo ub hb hdb).1
  refine ⟨da, db, hda, hdb, recounts_of_annotated wo uo hAnn hA.base?,
    recounts_of_annotated wo uo hBnn hB.base?, fun config ↦ ?_⟩
  have h : Ready _ _ (Merge.start config base da db) := ready_start config hA hB
  exact recounts_of_annotated wo uo (h.annotated_run (annotated_ascribed hAnn .branchA)
    (annotated_ascribed hBnn .branchB)) h.branch_or_base

def callBefore (endpoint : String) : Tree :=
  .ofList { label := "description" } [(0, callTo endpoint), (0, { label := "loop" })]

def callInside (endpoint : String) : Tree :=
  .ofList { label := "description" } [(0, { label := "loop" }), (1, callTo endpoint)]

/-- Branch A moves a call and sets its endpoint, and branch B sets the endpoint to something
else. -/
theorem recounts_ofDeltas_callInside :
    ∃ da db, Script.patch (callBefore "x")
        (Script.derive (callBefore "x") (callInside "y") (.ofPairs [(1, 2), (2, 1)])) = .ok da ∧
      Script.patch (callBefore "x")
        (Script.derive (callBefore "x") (callBefore "z") (.ofPairs [(1, 1), (2, 2)])) = .ok db ∧
      Recounts (callBefore "x")
        (ofDeltas (Config.standard : Config Rat) (callBefore "x") da db).tree := by
  have wbefore (e : String) : (callBefore e).WellFormed := wellFormed_ofList _ _ (by simp)
  have winside (e : String) : (callInside e).WellFormed := wellFormed_ofList _ _ (by simp)
  obtain ⟨da, db, hda, hdb, -, -, h⟩ := recounts_ofDeltas (wbefore "x") (winside "y")
    (wbefore "z") (by decide +kernel) (by decide +kernel) (by decide +kernel)
    (.ofPairs [(1, 2), (2, 1)]) (.ofPairs [(1, 1), (2, 2)])
  exact ⟨da, db, hda, hdb, h (Config.standard : Config Rat)⟩

end FlowMerge.Merge
