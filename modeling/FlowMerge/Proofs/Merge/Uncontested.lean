import FlowMerge.Proofs.Merge.Replay
import FlowMerge.Proofs.Merge.Rewriting

namespace FlowMerge.Merge

open FlowMerge.Tree

variable {m m' m'' : Merge} {s t x : NodeId} {e : String × Update} {d : Content}
  {contested : String → Bool} {p : NodeId × NodeId} {ps : List (NodeId × NodeId)}

structure Retouched (t : NodeId) (m m' : Merge) : Prop extends Reworded m m' where
  content : ∀ x ≠ t, m'.target.content x = m.target.content x
  delta? : ∀ x ≠ t, m'.target.delta? x = m.target.delta? x
  provenance? : ∀ x ≠ t, m'.target.provenance? x = m.target.provenance? x

namespace Retouched

theorem refl (t : NodeId) (m : Merge) : Retouched t m m :=
  ⟨.refl m, fun _ _ ↦ rfl, fun _ _ ↦ rfl, fun _ _ ↦ rfl⟩

theorem trans (h : Retouched t m m') (h' : Retouched t m' m'') : Retouched t m m'' :=
  ⟨h.toReworded.trans h'.toReworded, fun x hx ↦ (h'.content x hx).trans (h.content x hx),
    fun x hx ↦ (h'.delta? x hx).trans (h.delta? x hx),
    fun x hx ↦ (h'.provenance? x hx).trans (h.provenance? x hx)⟩

theorem mergeField (contested : String → Bool) (t : NodeId) (m : Merge) (e : String × Update) :
    Retouched t m (mergeField contested t m e) := by
  have hq := quiet_mergeField contested t m e
  refine ⟨.mergeField contested t m e, fun x hx ↦ ?_, fun x hx ↦ ?_, fun x hx ↦ ?_⟩
  · rw [hq.alike.content]
    split
    · rfl
    · exact (content_wrote ..).trans (if_neg fun h ↦ hx h.1)
  · rw [hq.alike.delta?]
    split
    · rfl
    · exact (delta?_wrote ..).trans (if_neg hx)
  · exact (ascribes_mergeField contested t m e).kept x fun h ↦ hx h.1

theorem mergeFields (m : Merge) (p : NodeId × NodeId) : Retouched p.2 m (m.mergeFields p) :=
  List.foldlRecOn _ _ (refl p.2 m) fun m' h e _ ↦ h.trans (mergeField _ p.2 m' e)

end Retouched

theorem content_mergeField (ht : t < m.target.size) :
    (mergeField contested t m e).target.content t =
      if (m.target.content t).field e.1 = e.2.new then m.target.content t
      else (m.target.content t).setField e.1 e.2.new := by
  rw [(quiet_mergeField contested t m e).alike.content]
  split
  · rfl
  · exact (content_wrote ..).trans (if_pos ⟨rfl, ht⟩)

theorem field_mergeField (ht : t < m.target.size)
    (hlabel : e.1 = Content.labelKey → e.2.new ≠ none) (k : String) :
    ((mergeField contested t m e).target.content t).field k =
      if k = e.1 then e.2.new else (m.target.content t).field k := by
  rw [content_mergeField ht]
  split
  · next hsame =>
    split
    · next hk => rw [hk, hsame]
    · rfl
  · exact Content.field_setField _ hlabel k

theorem writes_mergeField (ht : t < m.target.size) (e : String × Update)
    (hlabel : e.1 = Content.labelKey → e.2.new ≠ none) :
    t < (mergeField contested t m e).target.size ∧
      ∀ k, ((mergeField contested t m e).target.content t).field k =
        if k = e.1 then e.2.new else (m.target.content t).field k := by
  refine ⟨?_, field_mergeField ht hlabel⟩
  rwa [(Reworded.mergeField contested t m e).target.shape.size]

theorem same_foldl_mergeField {us : Updates} (ht : t < m.target.size)
    (hc : (m.target.content t).Unambiguous) (hd : d.Unambiguous)
    (h : us.Records (m.target.content t) d) :
    ((us.foldl (mergeField contested t) m).target.content t == d) = true := by
  have hstep : ∀ m' : Merge, (t < m'.target.size ∧ (m'.target.content t).Unambiguous) →
      ∀ e : String × Update, (e.1 = Content.labelKey → e.2.new ≠ none) →
        (t < (mergeField contested t m' e).target.size ∧
          ((mergeField contested t m' e).target.content t).Unambiguous) ∧
        ∀ k, ((mergeField contested t m' e).target.content t).field k =
          if k = e.1 then e.2.new else (m'.target.content t).field k := by
    rintro m' ⟨ht', hu⟩ e hlabel
    obtain ⟨hsize, hfields⟩ := writes_mergeField ht' e hlabel
    refine ⟨⟨hsize, ?_⟩, hfields⟩
    rw [content_mergeField ht']
    split
    · exact hu
    · exact hu.setField e.1 e.2.new
  exact Content.same_foldl (f := mergeField contested t) (g := fun m' ↦ m'.target.content t)
    hstep (fun _ hm' ↦ hm'.2.comparable hd) ⟨ht, hc⟩ h

/-- The two branches do not compete for the fields of a pair of nodes. -/
inductive Uncontested (m : Merge) (s t : NodeId) : Prop
  | settled (none : m.sourceUpdates s t = [])
      (same : (m.target.content t == m.source.content s) = true)
  | edited (lt : t < m.target.size) (known : m.bothInserted s t = false)
      (calm : ((m.target.delta? t).map Delta.updates).getD [] = [])
      (records : (m.sourceUpdates s t).Records (m.target.content t) (m.source.content s))
      (before : (m.target.content t).Unambiguous) (after : (m.source.content s).Unambiguous)

namespace Uncontested

theorem same_mergeFields (h : Uncontested m p.1 p.2) :
    ((m.mergeFields p).target.content p.2 == m.source.content p.1) = true := by
  rw [mergeFields]
  cases h with
  | settled none same =>
    rw [none]
    exact same
  | edited lt _ _ records before after =>
    exact same_foldl_mergeField lt before after records

theorem pending_mergeFields (h : Uncontested m p.1 p.2) :
    (m.mergeFields p).conflicts.pending = m.conflicts.pending := by
  rw [mergeFields]
  cases h with
  | settled none _ =>
    rw [none]
    rfl
  | edited _ known calm _ _ _ =>
    refine List.foldlRecOn _ _ (motive := fun m' : Merge ↦
      m'.conflicts.pending = m.conflicts.pending) rfl fun m' hm' e _ ↦ ?_
    have hlog := pending_mergeField
      (fun key ↦ m.bothInserted p.1 p.2 ||
        ((((m.target.delta? p.2).map Delta.updates).getD []).get? key).isSome) p.2 m' e
    rw [if_neg] at hlog
    · exact hlog.trans hm'
    · rintro ⟨hc, -⟩
      rw [known, calm] at hc
      cases hc

theorem frame (h : Uncontested m s t) (hm : Retouched x m m') (hx : t ≠ x) :
    Uncontested m' s t := by
  have hsource := hm.source
  have hcontent := hm.content t hx
  have hdelta := hm.delta? t hx
  have hboth : m'.bothInserted s t = m.bothInserted s t := by
    have hmark : m'.target.mark t = m.target.mark t := by rw [mark, hdelta, mark]
    rw [bothInserted, hsource, hmark, bothInserted]
  have hupdates : m'.sourceUpdates s t = m.sourceUpdates s t := by
    rw [sourceUpdates, hboth, hsource, hcontent, sourceUpdates]
  cases h with
  | settled none same =>
    refine .settled (hupdates.trans none) ?_
    rwa [hcontent, hsource]
  | edited lt known calm records before after =>
    refine .edited (hm.target.shape.size ▸ lt) (hboth.trans known) ?_ ?_ ?_ ?_
    · rwa [hdelta]
    · rwa [hupdates, hcontent, hsource]
    · rwa [hcontent]
    · rwa [hsource]

end Uncontested

def pairs (m : Merge) : List (NodeId × NodeId) :=
  m.source.live.filterMap fun s ↦ (m.counterpart? s).map fun t ↦ (s, t)

theorem mergeContent_eq (m : Merge) : m.mergeContent = m.pairs.foldl mergeFields m := rfl

theorem mem_pairs {m : Merge} :
    (s, t) ∈ m.pairs ↔ s ∈ m.source.live ∧ m.matching.old? s = some t := by
  rw [pairs, List.mem_filterMap]
  constructor
  · rintro ⟨s', hs', hp⟩
    obtain ⟨t', ht', he⟩ := Option.map_eq_some_iff.1 hp
    obtain ⟨rfl, rfl⟩ := Prod.mk.inj he
    exact ⟨hs', ht'⟩
  · rintro ⟨hs, ht⟩
    refine ⟨s, hs, ?_⟩
    have hcounterpart : m.counterpart? s = some t := ht
    rw [hcounterpart]
    rfl

theorem nodup_pairs {m : Merge} (w : m.source.WellFormed) (h : m.matching.OneToOne) :
    (m.pairs.map Prod.snd).Nodup := by
  have hsnd : m.pairs.map Prod.snd = m.source.live.filterMap m.counterpart? := by
    rw [pairs, List.map_filterMap]
    refine List.filterMap_congr fun s _ ↦ ?_
    cases m.counterpart? s <;> rfl
  rw [hsnd]
  refine w.nodup_live.filterMap fun s s' t ht ht' ↦ ?_
  exact h.new_inj ht ht'

structure TakenOver (ps : List (NodeId × NodeId)) (m m' : Merge) : Prop extends Reworded m m' where
  calm : m'.conflicts.pending = m.conflicts.pending
  same : ∀ p ∈ ps, (m'.target.content p.2 == m.source.content p.1) = true
  content : ∀ x ∉ ps.map Prod.snd, m'.target.content x = m.target.content x
  delta? : ∀ x ∉ ps.map Prod.snd, m'.target.delta? x = m.target.delta? x

theorem takenOver_foldl (hps : ∀ p ∈ ps, Uncontested m p.1 p.2) (hnd : (ps.map Prod.snd).Nodup) :
    TakenOver ps m (ps.foldl mergeFields m) := by
  induction ps generalizing m with
  | nil =>
    exact ⟨.refl m, rfl, fun p hp ↦ absurd hp List.not_mem_nil, fun _ _ ↦ rfl, fun _ _ ↦ rfl⟩
  | cons p ps ih =>
    rw [List.map_cons, List.nodup_cons] at hnd
    have hp := hps p List.mem_cons_self
    have hr := Retouched.mergeFields m p
    have hne {q : NodeId × NodeId} (hq : q ∈ ps) : q.2 ≠ p.2 := fun he ↦
      hnd.1 (he ▸ List.mem_map_of_mem hq)
    have h := ih (fun q hq ↦ (hps q (List.mem_cons_of_mem _ hq)).frame hr (hne hq)) hnd.2
    refine ⟨hr.toReworded.trans h.toReworded, h.calm.trans hp.pending_mergeFields,
      fun q hq ↦ ?_, fun x hx ↦ ?_, fun x hx ↦ ?_⟩
    · rcases List.mem_cons.1 hq with rfl | hq
      · rw [List.foldl_cons, h.content q.2 hnd.1]
        exact hp.same_mergeFields
      · exact hr.source ▸ h.same q hq
    · rw [List.map_cons, List.mem_cons, not_or] at hx
      exact (h.content x hx.2).trans (hr.content x hx.1)
    · rw [List.map_cons, List.mem_cons, not_or] at hx
      exact (h.delta? x hx.2).trans (hr.delta? x hx.1)

end FlowMerge.Merge
