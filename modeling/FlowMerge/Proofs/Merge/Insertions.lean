import FlowMerge.Proofs.Merge.Contents

namespace FlowMerge.Merge

open FlowMerge.Tree

variable {α : Type} [Score α] {base a b : Tree} {start m m' : Merge} {seen : List NodeId}
  {s t x y z ps : NodeId} {n : Nat} {up : NodeId → Option NodeId}

theorem Placed.old?_of_reshaped (h : Placed n up start seen m) (hr : Reshaped n m s m')
    (hxt : m.matching.old? x = some t) : m'.matching.old? x = some t := by
  cases hr with
  | same _ hm => rwa [hm]
  | moved _ _ _ hm => rwa [hm]
  | added _ _ _ _ _ _ hfree hm =>
    rw [hm]
    exact (h.aligned.old?_link h.branch.wellFormed hfree).2 (.inr hxt)

def Copied (start m : Merge) : Prop :=
  ∀ s t, m.matching.old? s = some t → start.matching.old? s = none →
    start.target.size ≤ t ∧ m.target.content t = start.source.content s ∧
      ∃ ps tp, start.source.parent? s = some ps ∧ m.matching.old? ps = some tp ∧
        m.target.parent? t = some tp

theorem Placed.copied (h : Placed n up start seen m) (hr : Reshaped n m s m')
    (hle : n ≤ start.target.size) (hc : Copied start m) : Copied start m' := by
  have hkeep {x t : NodeId} (hxt : m.matching.old? x = some t) := h.old?_of_reshaped hr hxt
  intro x t hxt hnone
  cases hr with
  | same ha hm =>
    rw [hm, ha.content, ha.parent?]
    exact hc x t (hm ▸ hxt) hnone
  | moved tp i hlt hm hmoved =>
    rw [hm] at hxt ⊢
    obtain ⟨hsize, hcontent, ps, tp', hps, htp, hpar⟩ := hc x t hxt hnone
    -- what moves is from the base, and no copy is
    have hne : t ≠ s := Nat.ne_of_gt (Nat.lt_of_lt_of_le hlt (Nat.le_trans hle hsize))
    refine ⟨hsize, (hmoved.content t).trans hcontent, ps, tp', hps, htp, ?_⟩
    rw [hmoved.parent?, if_neg hne, hpar]
  | added ps tp i _ hps habove hfree hm hadded =>
    rw [hm, h.aligned.old?_link h.branch.wellFormed hfree] at hxt
    rcases hxt with ⟨rfl, rfl⟩ | hxt
    · rw [h.source] at hps hadded
      refine ⟨h.size_le, ?_, ps, tp, hps, hkeep habove, ?_⟩
      · rw [hadded.content, if_pos rfl]
      · rw [hadded.parent?, if_pos rfl]
    · obtain ⟨hsize, hcontent, ps', tp', hps', htp, hpar⟩ := hc x t hxt hnone
      have hne : t ≠ m.target.size :=
        Nat.ne_of_lt (h.branch.wellFormed.live_lt (h.aligned.live x t hxt).2)
      refine ⟨hsize, ?_, ps', tp', hps', hkeep htp, ?_⟩
      · rw [hadded.content, if_neg hne, hcontent]
      · rw [hadded.parent?, if_neg hne, hpar]

/-- The nodes in `seen` that have no counterparts are dropped. Unless a conflict is logged, branch A
has changed nothing on those below a dropped node that have none. -/
structure Forgone (start : Merge) (seen : List NodeId) (m : Merge) : Prop where
  dropped : ∀ x ∈ seen, m.matching.old? x = none → x ∈ m.dropped
  silent : m.conflicts.pending = [] → ∀ y ∈ m.dropped, ∀ z, start.source.Above y z →
    m.matching.old? z = none → isNil start.source z = true

theorem isNil_of_changedInSource (w : m.source.WellFormed) (hs : s < m.source.size)
    (h : m.changedInSource s = false) (hz : m.source.Above s z)
    (hnone : m.matching.old? z = none) : isNil m.source z = true := by
  rw [changedInSource, List.any_eq_false] at h
  have hfree : m.matching.hasNew z = false := Matching.hasNew_eq_false.2 hnone
  have hd := h z ((w.mem_preorder hs).2 hz)
  simpa [hfree] using hd

namespace Forgone

variable (h : Forgone start seen m)
include h

theorem keep (hnone : ∀ x, m'.matching.old? x = none → m.matching.old? x = none)
    (hdropped : m'.dropped = m.dropped) (hpre : m.conflicts.pending <+: m'.conflicts.pending)
    (hst : m'.matching.old? s = some t) : Forgone start (seen ++ [s]) m' := by
  refine ⟨fun x hx hxn ↦ ?_, fun hcalm ↦ ?_⟩
  · rcases List.mem_append.1 hx with hx | hx
    · exact hdropped ▸ h.dropped x hx (hnone x hxn)
    · obtain rfl := List.mem_singleton.1 hx
      rw [hxn] at hst
      cases hst
  · rw [hcalm, List.prefix_nil] at hpre
    rw [hdropped]
    exact fun y hy z hyz hz ↦ h.silent hpre y hy z hyz (hnone z hz)

theorem drop (hmatching : m'.matching = m.matching) (hdropped : m'.dropped = s :: m.dropped)
    (hpre : m.conflicts.pending <+: m'.conflicts.pending)
    (hbelow : m'.conflicts.pending = [] → ∀ z, start.source.Above s z →
      m.matching.old? z = none → isNil start.source z = true) : Forgone start (seen ++ [s]) m' := by
  constructor
  · intro x hx hxn
    rw [hmatching] at hxn
    rw [hdropped]
    rcases List.mem_append.1 hx with hx | hx
    · exact List.mem_cons_of_mem s (h.dropped x hx hxn)
    · exact List.mem_cons.2 (.inl (List.mem_singleton.1 hx))
  · intro hcalm y hy z hyz hz
    rw [hmatching] at hz
    rw [hdropped] at hy
    rcases List.mem_cons.1 hy with rfl | hy
    · exact hbelow hcalm z hyz hz
    · rw [hcalm, List.prefix_nil] at hpre
      exact h.silent hpre y hy z hyz hz

theorem turn (hp : Placed n up start seen m) (hA : Branch n up start.source)
    (hT : Branch n up start.target) (hroot : root < n) (hs : start.source.Due seen s)
    (ht : Turned m s m') : Forgone start (seen ++ [s]) m' := by
  have hr := hp.reshaped hA hs.live hs.ne_root ht
  have hnone (x : NodeId) (hx : m'.matching.old? x = none) : m.matching.old? x = none := by
    cases hxt : m.matching.old? x with
    | none => rfl
    | some t =>
      rw [hp.old?_of_reshaped hr hxt] at hx
      cases hx
  have hsource := hp.source
  cases ht with
  | still q _ why =>
    obtain ⟨p, hparent, -⟩ := hA.wellFormed.exists_parent_of_live hs.live hs.ne_root
    rcases why with hno | ⟨t, hst, -⟩
    · rw [hsource, hparent] at hno
      cases hno
    · exact h.keep hnone q.dropped q.pending (hp.old?_of_reshaped hr hst)
  | refused t ps q _ _ hst => exact h.keep hnone q.dropped q.pending (hp.old?_of_reshaped hr hst)
  | shifted t ps tp q _ _ _ hst =>
    exact h.keep hnone q.dropped q.pending (hp.old?_of_reshaped hr hst)
  | grafted ps tp q _ _ _ hfree =>
    have hlink : m'.matching = m.matching.link s m.target.size := q.matching
    refine h.keep (t := m.target.size) hnone q.dropped q.pending ?_
    rw [hlink]
    exact (hp.aligned.old?_link hp.branch.wellFormed hfree).2 (.inl ⟨rfl, rfl⟩)
  | dropped ps q hps hfree why =>
    rw [hsource] at hps
    have hpre : m.conflicts.pending <+: m'.conflicts.pending := q.pending
    refine h.drop q.matching q.dropped hpre fun hcalm z hsz hz ↦ ?_
    have hbefore : m.conflicts.pending = [] := by rwa [hcalm, List.prefix_nil] at hpre
    -- what is below a dropped parent is below the node too
    have hup (hin : ps ∈ m.dropped) : isNil start.source z = true :=
      h.silent hbefore ps hin z (hsz.head hps) hz
    rcases why with hin | habove | ⟨-, hcalm'⟩
    · exact hup hin
    · have hne := hA.wellFormed.parent_ne hps
      refine hup (h.dropped ps ((hs.above ps (.single hps) hne).resolve_left ?_) habove)
      rintro rfl
      have hroots := hp.aligned.known root hroot hA.wellFormed.root_mem_live
        ((hp.live root (hT.lt_size hroot)).2 hT.wellFormed.root_mem_live)
      rw [hroots] at habove
      cases habove
    · rw [← hsource] at hsz ⊢
      refine isNil_of_changedInSource (hsource ▸ hA.wellFormed) ?_
        (hcalm' (hcalm.trans hbefore.symm)) hsz hz
      exact hsource ▸ hA.wellFormed.live_lt hs.live

end Forgone

namespace Ready

variable (h : Ready n up start)
include h

theorem copied : Copied start start.mergePlacement := by
  refine h.placement_induction (P := fun _ m ↦ Copied start m) ?_ fun pre s m hp hs ih ↦ ?_
  · intro s t hst hnone
    rw [hst] at hnone
    cases hnone
  · exact hp.copied (hp.reshaped h.source hs.live hs.ne_root (turned_follow _ m s))
      h.target.le_size ih

theorem forgone (hroot : root < n) (hdropped : start.dropped = []) :
    Forgone start start.source.live.tail start.mergePlacement := by
  refine h.placement_induction ⟨fun x hx ↦ absurd hx List.not_mem_nil, fun _ y hy ↦ ?_⟩
    fun pre s m hp hs ih ↦ ih.turn hp h.source h.target hroot hs (turned_follow _ m s)
  rw [hdropped] at hy
  cases hy

theorem exists_counterpart (hroot : root < n) (hdropped : start.dropped = [])
    (hcalm : start.run.conflicts.resolved = []) (hs : s ∈ start.source.live) (hn : n ≤ s) :
    ∃ t, start.mergePlacement.matching.old? s = some t := by
  by_contra hno
  have hnone : start.mergePlacement.matching.old? s = none := by
    cases hst : start.mergePlacement.matching.old? s with
    | none => rfl
    | some t => exact absurd ⟨t, hst⟩ hno
  have hf := h.forgone hroot hdropped
  have hr : s ≠ root := Nat.ne_of_gt (Nat.lt_of_lt_of_le hroot hn)
  have hin := hf.dropped s (h.source.wellFormed.mem_live_tail.2 ⟨hs, hr⟩) hnone
  have hm := mark_of_isNil (hf.silent (h.calm hcalm).1 s hin s .refl hnone)
  rw [h.source.inserted s hs hn] at hm
  cases hm

theorem mem_live_of_changed (hcalm : start.run.conflicts.resolved = [])
    (hx : x ∈ start.mergePlacement.target.live)
    (hch : isNil start.mergePlacement.mergeContent.target x = false) :
    x ∈ start.run.tree.live := by
  have hw := Reworded.mergeContent start.mergePlacement
  have w := h.reworded.1.wellFormed
  rw [← hw.target.shape.live] at hx
  by_contra hnot
  rw [(alike_run start).toSameShape.live] at hnot
  obtain ⟨t, -, -, htx, -, hlog⟩ := h.cleared.lost x hx hnot
  have htx' := h.cleared.above htx
  have hchanged := (changedInTarget_iff w (w.live_lt (w.above_live hx htx'))).2 ⟨x, htx', hch⟩
  obtain ⟨c, hc, -⟩ := hlog hchanged
  rw [(h.calm hcalm).2] at hc
  cases hc

theorem sourceUpdates_of_inserted (hst : start.mergePlacement.matching.old? s = some t)
    (hn : n ≤ s) (hm : Spared t start.mergePlacement m) : m.sourceUpdates s t =
      (start.mergePlacement.target.content t).diffFields (start.source.content s) := by
  have hp := h.placed
  obtain ⟨hs, ht⟩ := hp.aligned.live s t hst
  have htn := hp.aligned.le_of_le h.source hp.branch hst hn
  have hsource : m.source = start.source := hm.source.trans hp.source
  have hmark : m.target.mark t = .inserted := by
    rw [mark, hm.delta?, ← mark, hp.branch.inserted t ht htn]
  have hboth : m.bothInserted s t = true := by
    rw [bothInserted, hsource, h.source.inserted s hs hn, hmark]
    rfl
  rw [sourceUpdates, hboth, if_pos rfl, hm.content, hsource]

theorem content_run_of_copied (hst : start.mergePlacement.matching.old? s = some t) (hn : n ≤ s)
    (hnone : start.matching.old? s = none) :
    start.run.tree.content t = start.source.content s := by
  obtain ⟨m, hbefore, hafter, -⟩ := h.exists_turn_of_tied hst
  obtain ⟨-, hcopy, -⟩ := h.copied s t hst hnone
  have hupdates := h.sourceUpdates_of_inserted hst hn hbefore
  rw [hcopy, Content.diffFields_self] at hupdates
  have hfields : m.mergeFields (s, t) = m := by
    rw [mergeFields, hupdates]
    rfl
  rw [hfields] at hafter
  rw [(alike_run start).content, h.cleared.content, hafter.content, hbefore.content, hcopy]

theorem same_run_of_shared (hst : start.matching.old? s = some t) (hn : n ≤ s)
    (us : (start.source.content s).Unambiguous) (ut : (start.target.content t).Unambiguous) :
    (start.run.tree.content t == start.source.content s) = true := by
  have hp := h.placed
  have hst' := hp.kept s t hst
  obtain ⟨m, hbefore, hafter, hsource, hlt⟩ := h.exists_turn_of_tied hst'
  have hkept := h.steady.content t (h.target.wellFormed.live_lt (h.aligned.live s t hst).2)
  have hupdates := h.sourceUpdates_of_inserted hst' hn hbefore
  have hcontent : m.target.content t = start.target.content t := hbefore.content.trans hkept
  rw [hkept, ← hcontent] at hupdates
  rw [← hcontent] at ut
  rw [(alike_run start).content, h.cleared.content, hafter.content, mergeFields, hupdates]
  exact same_foldl_mergeField hlt ut us (Content.records_diffFields ut us)

end Ready

/-- Where the insertions of branch A are in the outcome `r` of a merge. `partner` leads from them
to the insertions of branch B that they are tied to, and `stand` leads from all nodes of branch A to
those that stand for them. -/
structure Housed (da db r : Tree) (partner stand : NodeId → Option NodeId) : Prop where
  own : ∀ s ∈ da.live, (da.mark s).isInsertion = true → partner s = none →
    ∃ p q t, da.parent? s = some p ∧ stand p = some q ∧ stand s = some t ∧ t ∈ r.live ∧
      r.parent? t = some q ∧ r.content t = da.content s
  shared : ∀ s ∈ da.live, (da.mark s).isInsertion = true → ∀ t, partner s = some t →
    stand s = some t ∧ t ∈ r.live ∧ t ∈ db.live ∧ (db.mark t).isInsertion = true ∧
      r.parent? t = db.parent? t ∧ ((da.content s).Unambiguous → (db.content t).Unambiguous →
        (r.content t == da.content s) = true)

theorem Ready.housed (h : Ready n up start) (hroot : root < n) (hdropped : start.dropped = [])
    (hcalm : start.run.conflicts.resolved = []) : Housed start.source start.target start.run.tree
      start.counterpart? start.mergePlacement.counterpart? := by
  have hp := h.placed
  have hw := Reworded.mergeContent start.mergePlacement
  -- what stands for an insertion is there
  have hthere {s t : NodeId} (hn : n ≤ s)
      (hst : start.mergePlacement.matching.old? s = some t) : n ≤ t ∧ t ∈ start.run.tree.live := by
    have htl := (hp.aligned.live s t hst).2
    have htn := hp.aligned.le_of_le h.source hp.branch hst hn
    refine ⟨htn, h.mem_live_of_changed hcalm htl (Bool.eq_false_iff.2 fun hnil ↦ ?_)⟩
    have hm := hp.branch.inserted t htl htn
    have hstill := hw.target.mark_eq (x := t) (by rw [hm]; rintro (hf | hf) <;> cases hf)
    rw [mark_of_isNil hnil, hm] at hstill
    cases hstill
  constructor
  · intro s hs hins hnone
    have hn := (h.source.isInsertion_iff hs).1 hins
    obtain ⟨t, hst⟩ := h.exists_counterpart hroot hdropped hcalm hs hn
    obtain ⟨-, -, p, q, hp', hq, hpar⟩ := h.copied s t hst hnone
    have hl := (hthere hn hst).2
    exact ⟨p, q, t, hp', hq, hst, hl, (h.parent?_run hl).trans hpar,
      h.content_run_of_copied hst hn hnone⟩
  · intro s hs hins t hst
    have hn := (h.source.isInsertion_iff hs).1 hins
    have hst' := hp.kept s t hst
    obtain ⟨htn, hl⟩ := hthere hn hst'
    have htl := (h.aligned.live s t hst).2
    refine ⟨hst', hl, htl, (h.target.isInsertion_iff htl).2 htn, ?_,
      h.same_run_of_shared hst hn⟩
    rw [h.parent?_run hl]
    refine hp.awaiting t (h.target.wellFormed.live_lt htl) fun hseen hmoved ↦ ?_
    rw [h.source.inserted t (List.mem_of_mem_tail hseen) htn] at hmoved
    cases hmoved

theorem Housed.of_ascribed {da db r : Tree} {p q : Provenance}
    {partner stand : NodeId → Option NodeId}
    (h : Housed (ascribed da p) (ascribed db q) r partner stand) (ha : Branch n up da)
    (hb : Branch n up db) : Housed da db r partner stand := by
  have hsa := sameShape_ascribed da p
  have hsb := sameShape_ascribed db q
  constructor
  · intro s hs hins hnone
    have hown := h.own s (hsa.live ▸ hs) ((ha.mark_ascribed p hs).symm ▸ hins) hnone
    rwa [hsa.parent?, content_ascribed] at hown
  · intro s hs hins t hst
    obtain ⟨hstand, hl, htl, htins, hrest⟩ :=
      h.shared s (hsa.live ▸ hs) ((ha.mark_ascribed p hs).symm ▸ hins) t hst
    have htl' : t ∈ db.live := hsb.live ▸ htl
    rw [hsb.parent?, content_ascribed, content_ascribed] at hrest
    exact ⟨hstand, hl, htl', hb.mark_ascribed q htl' ▸ htins, hrest⟩

def partner? (config : Config α) (base a b : Tree) (s : NodeId) : Option NodeId :=
  (Merge.start config base a b).counterpart? s

theorem ofTrees_eq {config : Config α} {da db : Tree} (ha : Diff.deltaTree config base a = .ok da)
    (hb : Diff.deltaTree config base b = .ok db) :
    ofTrees config base a b = .ok (ofDeltas config base da db) := by
  rw [ofTrees, ha, hb]
  rfl

theorem branch_deltaTree (config : Config α) (wo : base.WellFormed) (wa : a.WellFormed) :
    ∃ d, Diff.deltaTree config base a = .ok d ∧
      Branch base.live.length (Script.pristine base).parent? d :=
  branch_derive wo wa (config.oneToOne_matchTrees base a)

/-- If a merge logs no conflict, each insertion of branch A is where branch A has it, or where
branch B has its twin. -/
theorem housed_ofTrees (config : Config α) (wo : base.WellFormed) (wa : a.WellFormed)
    (wb : b.WellFormed) :
    ∃ da db r, Diff.deltaTree config base a = .ok da ∧ Diff.deltaTree config base b = .ok db ∧
      ofTrees config base a b = .ok r ∧ (r.conflicts.resolved = [] →
        Housed da db r.tree (partner? config base da db) (standIn? config base da db)) := by
  obtain ⟨da, hda, hA⟩ := branch_deltaTree config wo wa
  obtain ⟨db, hdb, hB⟩ := branch_deltaTree config wo wb
  refine ⟨da, db, ofDeltas config base da db, hda, hdb, ofTrees_eq hda hdb, fun hcalm ↦ ?_⟩
  have hroot : root < base.live.length := wo.place_root ▸ place_lt wo.root_mem_live
  exact ((ready_start config hA hB).housed hroot rfl hcalm).of_ascribed hA hB

def deltaOf (config : Config α) (base a : Tree) : Tree :=
  (Diff.deltaTree config base a).toOption.getD default

theorem deltaOf_eq {config : Config α} {d : Tree} (h : Diff.deltaTree config base a = .ok d) :
    deltaOf config base a = d := by
  rw [deltaOf, h]
  rfl

def outcomeOf (config : Config α) (base a b : Tree) : MergeResult :=
  ofDeltas config base (deltaOf config base a) (deltaOf config base b)

theorem ofTrees_eq_outcomeOf {config : Config α} {da db : Tree}
    (ha : Diff.deltaTree config base a = .ok da) (hb : Diff.deltaTree config base b = .ok db) :
    ofTrees config base a b = .ok (outcomeOf config base a b) := by
  rw [outcomeOf, deltaOf_eq ha, deltaOf_eq hb]
  exact ofTrees_eq ha hb

def loopOf (inside after : List Content) : Tree :=
  .ofList { label := "description" } ((0, { label := "loop" }) ::
    (inside.map fun c ↦ (1, c)) ++ after.map fun c ↦ (0, c))

/-- Each branch inserts a call of its own. -/
theorem housed_ofTrees_loopOf :
    ∃ da db r, Diff.deltaTree (Config.standard : Config Rat) (loopOf [callTo "p"] [])
        (loopOf [callTo "p", callTo "x"] []) = .ok da ∧
      Diff.deltaTree (Config.standard : Config Rat) (loopOf [callTo "p"] [])
        (loopOf [callTo "p"] [callTo "zzzz"]) = .ok db ∧
      ofTrees (Config.standard : Config Rat) (loopOf [callTo "p"] [])
        (loopOf [callTo "p", callTo "x"] []) (loopOf [callTo "p"] [callTo "zzzz"]) = .ok r ∧
      Housed da db r.tree (partner? (Config.standard : Config Rat) (loopOf [callTo "p"] []) da db)
        (standIn? (Config.standard : Config Rat) (loopOf [callTo "p"] []) da db) := by
  have wf (inside after : List Content) (h : _) : (loopOf inside after).WellFormed :=
    wellFormed_ofList _ _ h
  obtain ⟨da, db, r, hda, hdb, hr, h⟩ := housed_ofTrees (Config.standard : Config Rat)
    (wf [callTo "p"] [] (by decide)) (wf [callTo "p", callTo "x"] [] (by decide))
    (wf [callTo "p"] [callTo "zzzz"] (by decide))
  refine ⟨da, db, r, hda, hdb, hr, h ?_⟩
  have hcalm : (outcomeOf (Config.standard : Config Rat) (loopOf [callTo "p"] [])
      (loopOf [callTo "p", callTo "x"] [])
      (loopOf [callTo "p"] [callTo "zzzz"])).conflicts.resolved.isEmpty = true := by decide +kernel
  obtain rfl := Except.ok.inj (hr.symm.trans (ofTrees_eq_outcomeOf hda hdb))
  exact List.isEmpty_iff.1 hcalm

def AsInserted (da r : Tree) (stand : NodeId → Option NodeId) (s : NodeId) : Prop :=
  ∃ t ∈ r.live, (r.content t == da.content s) = true ∧ r.parent? t ≠ none ∧
    r.parent? t = (da.parent? s).bind stand

instance (da r : Tree) (stand : NodeId → Option NodeId) (s : NodeId) :
    Decidable (AsInserted da r stand s) :=
  inferInstanceAs (Decidable (∃ t ∈ r.live, (r.content t == da.content s) = true ∧
    r.parent? t ≠ none ∧ r.parent? t = (da.parent? s).bind stand))

/-- Some insertion of branch A is not where branch A has it although no conflict is logged. -/
def Misses (config : Config α) (base a b : Tree) : Prop :=
  ∃ da db r, Diff.deltaTree config base a = .ok da ∧ Diff.deltaTree config base b = .ok db ∧
    ofTrees config base a b = .ok r ∧ r.conflicts.resolved = [] ∧ ∃ s ∈ da.live,
      (da.mark s).isInsertion = true ∧
        ¬ AsInserted da r.tree (standIn? config base da db) s

theorem misses_of_outcomeOf (config : Config α) (wo : base.WellFormed) (wa : a.WellFormed)
    (wb : b.WellFormed) (hcalm : (outcomeOf config base a b).conflicts.resolved.isEmpty = true)
    (h : ∃ s ∈ (deltaOf config base a).live, ((deltaOf config base a).mark s).isInsertion = true ∧
      ¬ AsInserted (deltaOf config base a) (outcomeOf config base a b).tree
        (standIn? config base (deltaOf config base a) (deltaOf config base b)) s) :
    Misses config base a b := by
  obtain ⟨da, hda, -⟩ := branch_deltaTree config wo wa
  obtain ⟨db, hdb, -⟩ := branch_deltaTree config wo wb
  refine ⟨da, db, _, hda, hdb, ofTrees_eq_outcomeOf hda hdb, List.isEmpty_iff.1 hcalm, ?_⟩
  rwa [deltaOf_eq hda, deltaOf_eq hdb] at h

def callWithText (attributes : List (String × String)) : Content :=
  { label := "call", attributes := .ofList attributes, text := some "v" }

/-- Branch B inserts the same call, but elsewhere. Or it inserts a call whose text is what branch
A's call has as text and as an attribute. -/
theorem misses_lookAlikes :
    Misses (Config.standard : Config Rat) (loopOf [callTo "p"] [])
        (loopOf [callTo "p", callTo "x"] []) (loopOf [callTo "p"] [callTo "x"]) ∧
      Misses (Config.standard : Config Rat) (loopOf [] [])
        (loopOf [callWithText [("text", "v")]] []) (loopOf [callWithText []] []) := by
  constructor
  · apply misses_of_outcomeOf
    · exact wellFormed_ofList _ _ (by decide)
    · exact wellFormed_ofList _ _ (by decide)
    · exact wellFormed_ofList _ _ (by decide)
    · decide +kernel
    · decide +kernel
  · apply misses_of_outcomeOf
    · exact wellFormed_ofList _ _ (by decide)
    · exact wellFormed_ofList _ _ (by decide)
    · exact wellFormed_ofList _ _ (by decide)
    · decide +kernel
    · decide +kernel

end FlowMerge.Merge
