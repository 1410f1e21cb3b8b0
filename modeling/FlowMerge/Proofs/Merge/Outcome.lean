import FlowMerge.Merge.Run
import FlowMerge.Proofs.Merge.Removal

namespace FlowMerge.Merge

open FlowMerge.Tree

variable {α : Type} [Score α] {start m : Merge} {base a b u : Tree} {x y d : NodeId} {n : Nat}
  {up : NodeId → Option NodeId}

theorem alike_disown (u : Tree) : Alike ⟨u.nodes.map disown⟩ u := by
  have hnode (x : NodeId) : (⟨u.nodes.map disown⟩ : Tree).node x = u.node x ∨
      ∃ f, (⟨u.nodes.map disown⟩ : Tree).node x =
        { u.node x with overlay := (u.node x).overlay.mapInfo f } := by
    simp only [node, Array.getD_eq_getD_getElem?, Array.getElem?_map]
    cases u.nodes[x]? with
    | none => exact .inl rfl
    | some k =>
      rw [Option.map_some, Option.getD_some, Option.getD_some, disown]
      split
      · exact .inr ⟨_, rfl⟩
      · exact .inl rfl
  refine ⟨⟨by simp only [size, Array.size_map], fun x ↦ ?_, fun x ↦ ?_, fun x ↦ ?_⟩, fun x ↦ ?_,
    fun x ↦ ?_⟩ <;> rcases hnode x with hx | ⟨f, hx⟩
  · rw [children, hx, children]
  · rw [children, hx, children]
  · rw [parent?, hx, parent?]
  · rw [parent?, hx, parent?]
  · rw [position, hx, position]
  · rw [position, hx, position]
  · rw [content, hx, content]
  · rw [content, hx, content]
  · rw [delta?, overlay, hx, delta?, overlay]
  · rw [delta?, overlay, hx, delta?_mapInfo, delta?, overlay]

theorem tree_finish (m : Merge) : m.finish.tree = ⟨m.target.nodes.map disown⟩ := by
  have ht : (m.target.live.foldl (fun m t ↦ m.setState t (m.finalState t)) m).target = m.target :=
    List.foldlRecOn _ _ (motive := fun m' : Merge ↦ m'.target = m.target) rfl fun _ h _ _ ↦ h
  rw [finish]
  dsimp only
  rw [ht]

theorem finish_spec (m : Merge) : Alike m.finish.tree m.target ∧
    m.finish.conflicts.resolved = m.conflicts.resolved ++ m.conflicts.pending ∧
      m.finish.edits = m.edits := by
  obtain ⟨hc, he⟩ : (m.target.live.foldl (fun m t ↦ m.setState t (m.finalState t)) m).conflicts =
      m.conflicts ∧ (m.target.live.foldl (fun m t ↦ m.setState t (m.finalState t)) m).edits =
        m.edits :=
    List.foldlRecOn _ _ (motive := fun m' : Merge ↦ m'.conflicts = m.conflicts ∧
      m'.edits = m.edits) ⟨rfl, rfl⟩ fun _ h _ _ ↦ h
  refine ⟨?_, ?_, he⟩
  · rw [tree_finish]
    exact alike_disown m.target
  · rw [finish]
    dsimp only
    rw [hc]
    rfl

theorem alike_run (start : Merge) :
    Alike start.run.tree start.mergePlacement.mergeContent.mergeDeletions.target :=
  (finish_spec _).1

theorem mark_of_isNil (hx : isNil u x = true) : u.mark x = .unchanged := by
  rw [isNil, Option.any_eq_true] at hx
  obtain ⟨y, hy, hnil⟩ := hx
  rw [Delta.isNil, Bool.and_eq_true, beq_iff_eq] at hnil
  rw [mark, hy]
  exact hnil.1

structure Ready (n : Nat) (up : NodeId → Option NodeId) (start : Merge) : Prop where
  source : Branch n up start.source
  target : Branch n up start.target
  aligned : Aligned n start.source start.target start.matching
  pending : start.conflicts.pending = []
  resolved : start.conflicts.resolved = []

theorem ready_start (config : Config α) (ha : Branch n up a) (hb : Branch n up b) :
    Ready n up (Merge.start config base a b) where
  source := ha.ascribed .branchA
  target := hb.ascribed .branchB
  aligned := aligned_align config.thresholds (ha.ascribed .branchA) (hb.ascribed .branchB)
  pending := rfl
  resolved := rfl

namespace Ready

variable (h : Ready n up start)
include h

theorem placement_induction {P : List NodeId → Merge → Prop} (first : P [] start)
    (turn : ∀ pre s m, Placed n up start pre m → start.source.Due pre s → P pre m →
      P (pre ++ [s]) (follow (deletedInTarget start.target) m s)) :
    P start.source.live.tail start.mergePlacement := by
  rw [mergePlacement_eq]
  refine (foldl_induction (P := fun pre m ↦ Placed n up start pre m ∧ P pre m)
    ⟨.refl h.target h.aligned, first⟩ fun pre s post m hsplit ⟨hp, hP⟩ ↦ ?_).2
  have hs := h.source.wellFormed.due_of_split hsplit
  exact ⟨hp.turn h.source hs.live hs.ne_root hs.unseen (turned_follow _ m s),
    turn pre s m hp hs hP⟩

theorem placed : Placed n up start start.source.live.tail start.mergePlacement :=
  placed_mergePlacement h.source h.target h.aligned

theorem reworded : Branch n up start.mergePlacement.mergeContent.target ∧
    start.mergePlacement.mergeContent.source = start.source ∧
      start.mergePlacement.mergeContent.basePaths = start.basePaths := by
  have hw := Reworded.mergeContent start.mergePlacement
  exact ⟨h.placed.branch.rewritten hw.target, hw.source.trans h.placed.source,
    hw.basePaths.trans h.placed.basePaths⟩

theorem cleared : Cleared start.mergePlacement.mergeContent
    start.mergePlacement.mergeContent.doomed
    start.mergePlacement.mergeContent.mergeDeletions :=
  cleared_mergeDeletions h.reworded.1.wellFormed

theorem mem_doomed : d ∈ start.mergePlacement.mergeContent.doomed ↔
    d ∈ start.target.live ∧ d ≠ root ∧ d < n ∧ d ∉ start.source.live := by
  obtain ⟨hb, hs, -⟩ := h.reworded
  have hw := Reworded.mergeContent start.mergePlacement
  rw [Merge.mem_doomed (hs ▸ h.source) hb, hs, hw.target.shape.live]
  constructor
  · rintro ⟨hl, hrest⟩
    exact ⟨(h.placed.live d (h.target.lt_size hrest.2.1)).1 hl, hrest⟩
  · rintro ⟨hl, hrest⟩
    exact ⟨(h.placed.live d (h.target.lt_size hrest.2.1)).2 hl, hrest⟩

theorem branch_or_base (x : NodeId) : base? start.run.tree x = if x < n then some x else none := by
  rw [base?, (alike_run start).delta?, ← base?, h.cleared.base, h.reworded.1.base?]

theorem mem_live_run : x ∈ start.run.tree.live ↔
    x ∈ start.mergePlacement.target.live ∧
      ∀ d ∈ start.mergePlacement.mergeContent.doomed,
        ¬ start.mergePlacement.target.Above d x := by
  have hw := Reworded.mergeContent start.mergePlacement
  rw [(alike_run start).toSameShape.live, h.cleared.live, hw.target.shape.live]
  refine and_congr_right fun _ ↦ forall₂_congr fun d _ ↦ ?_
  rw [hw.target.shape.above]

theorem resolved_run : start.run.conflicts.resolved =
    start.mergePlacement.mergeContent.mergeDeletions.conflicts.pending := by
  have hw := Reworded.mergeContent start.mergePlacement
  have hres : start.mergePlacement.mergeContent.mergeDeletions.conflicts.resolved = [] := by
    rw [h.cleared.resolved, hw.resolved, h.placed.resolved, h.resolved]
  have hrun := (finish_spec start.mergePlacement.mergeContent.mergeDeletions).2.1
  rw [hres, List.nil_append] at hrun
  exact hrun

/-- If a node kept by both branches is still where the base has it, below a node that branch A has
deleted, then branch A moved it away and was refused. -/
theorem refused_of_parent (hx : x ∈ start.source.live) (hxn : x < n)
    (hxt : x ∈ start.mergePlacement.target.live)
    (hstill : start.mergePlacement.target.mark x ≠ .movedHere)
    (hqx : start.mergePlacement.target.parent? x = some q) (hq : q ∉ start.source.live) :
    start.source.mark x = .movedHere ∧ Refused start.mergePlacement x := by
  have hp := h.placed
  have ws := h.source.wellFormed
  have hup : up x = some q := (hp.branch.unmoved x hxt hxn hstill).symm.trans hqx
  have hmark : start.source.mark x = .movedHere := by
    by_contra hm
    exact hq (ws.parent_live hx ((h.source.unmoved x hx hxn hm).trans hup))
  have hr : x ≠ root := hp.branch.wellFormed.child_ne_root hqx
  obtain ⟨ps, hps, -⟩ := ws.exists_parent_of_live hx hr
  refine ⟨hmark, (hp.decided x (ws.mem_live_tail.2 ⟨hx, hr⟩) hxn hmark hxt ps hps).resolve_right ?_⟩
  rintro ⟨tp, -, -, hm⟩
  exact hstill hm

/-- If a node kept by branch A is below a doomed one, and nothing between is changed, then a move
of branch A was refused there. -/
theorem exists_refused (hd : d ∈ start.mergePlacement.mergeContent.doomed)
    (hdx : start.mergePlacement.target.Above d x) (hx : x ∈ start.source.live)
    (hnil : ∀ y, start.mergePlacement.target.Above d y →
      start.mergePlacement.target.Above y x →
        isNil start.mergePlacement.mergeContent.target y = true) :
    ∃ c, start.mergePlacement.target.Above d c ∧ start.mergePlacement.target.Above c x ∧
      c ∈ start.source.live ∧ start.source.mark c = .movedHere ∧
        Refused start.mergePlacement c := by
  have hp := h.placed
  have w := hp.branch.wellFormed
  have hw := Reworded.mergeContent start.mergePlacement
  obtain ⟨hdl, -, hdn, hds⟩ := h.mem_doomed.1 hd
  have hdl' : d ∈ start.mergePlacement.target.live :=
    (hp.live d (h.target.lt_size hdn)).2 hdl
  have hlive {y : NodeId} (hy : start.mergePlacement.target.Above d y) :
      y ∈ start.mergePlacement.target.live := w.mem_live.2 ((w.mem_live.1 hdl').trans hy)
  -- what is not changed comes from the base
  have hlt {y : NodeId} (hdy : start.mergePlacement.target.Above d y)
      (hyx : start.mergePlacement.target.Above y x) : y < n := by
    by_contra hle
    have hm := mark_of_isNil (hnil y hdy hyx)
    rw [(h.reworded.1.inserted y (hw.target.shape.live ▸ hlive hdy) (Nat.le_of_not_lt hle))] at hm
    cases hm
  induction hdx with
  | refl => exact absurd hx hds
  | @tail q x hdq hqx ih =>
    have hbelow {y : NodeId} (hy : start.mergePlacement.target.Above y q) :
        start.mergePlacement.target.Above y x := hy.tail hqx
    by_cases hq : q ∈ start.source.live
    · obtain ⟨c, hdc, hcq, hrest⟩ := ih hq (fun y hdy hyq ↦ hnil y hdy (hbelow hyq))
        fun hdy hyq ↦ hlt hdy (hbelow hyq)
      exact ⟨c, hdc, hbelow hcq, hrest⟩
    · have hdx := hdq.tail hqx
      have hstill : start.mergePlacement.target.mark x ≠ .movedHere := by
        intro hm
        have hof : ¬ (start.mergePlacement.target.mark x).OfFields := by
          rw [hm]
          rintro (hf | hf) <;> cases hf
        have hm' := mark_of_isNil (hnil x hdx .refl)
        rw [hw.target.mark_eq hof, hm] at hm'
        cases hm'
      exact ⟨x, hdx, .refl, hx, h.refused_of_parent hx (hlt hdx .refl) (hlive hdx) hstill hqx hq⟩

/-- What became of a node that both branches kept and that is not there. -/
theorem lost (hx : x ∈ start.source.live) (hxt : x ∈ start.target.live) (hxn : x < n)
    (hnot : x ∉ start.run.tree.live) :
    ∃ t ∈ start.mergePlacement.mergeContent.doomed, start.run.tree.parent? t = none ∧
      start.run.tree.Above t x ∧
      (∀ d ∈ start.mergePlacement.mergeContent.doomed,
        start.mergePlacement.target.Above d t → d = t) ∧
      (start.mergePlacement.mergeContent.changedInTarget t = true →
        DeletionLogged start.mergePlacement.mergeContent.mergeDeletions
          start.basePaths[t]?) ∧
      (start.mergePlacement.mergeContent.changedInTarget t = false →
        ∃ c, start.mergePlacement.target.Above t c ∧ start.mergePlacement.target.Above c x ∧
          c ∈ start.source.live ∧ start.source.mark c = .movedHere ∧
            Refused start.mergePlacement c) := by
  have hw := Reworded.mergeContent start.mergePlacement
  obtain ⟨hb, -, hpaths⟩ := h.reworded
  have hx₁ : x ∈ start.mergePlacement.target.live :=
    (h.placed.live x (h.target.lt_size hxn)).2 hxt
  rw [(alike_run start).toSameShape.live] at hnot
  obtain ⟨t, ht, htop, htx, hfirst, hlog⟩ :=
    h.cleared.lost x (hw.target.shape.live ▸ hx₁) hnot
  have htn := (h.mem_doomed.1 ht).2.2.1
  have htl := (h.placed.live t (h.target.lt_size htn)).2 (h.mem_doomed.1 ht).1
  have hpath : start.mergePlacement.mergeContent.basePath?
      start.mergePlacement.mergeContent.target t = start.basePaths[t]? := by
    rw [basePath?, hb.base?, if_pos htn, hpaths]
    rfl
  refine ⟨t, ht, ((alike_run start).parent? t).trans htop,
    (alike_run start).toSameShape.above.2 htx,
    fun d hd hdt ↦ hfirst d hd (hw.target.shape.above.2 hdt), fun hch ↦ hpath ▸ hlog hch,
    fun hch ↦ ?_⟩
  have htx₁ := hw.target.shape.above.1 (h.cleared.above htx)
  refine h.exists_refused ht htx₁ hx fun y hty _ ↦ ?_
  -- nothing below an unchanged node is changed
  have hsame : start.mergePlacement.mergeContent.target.size = start.mergePlacement.target.size :=
    hw.target.shape.size
  by_contra hy
  refine Bool.eq_false_iff.1 hch ((changedInTarget_iff hb.wellFormed ?_).2
    ⟨y, hw.target.shape.above.2 hty, Bool.eq_false_iff.2 hy⟩)
  rw [hsame]
  exact h.placed.branch.wellFormed.live_lt htl

end Ready

end FlowMerge.Merge
