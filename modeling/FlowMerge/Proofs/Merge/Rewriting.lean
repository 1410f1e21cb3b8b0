import FlowMerge.Merge.Fields
import FlowMerge.Proofs.Merge.Placement

namespace FlowMerge

def Mark.OfFields (m : Mark) : Prop := m = .unchanged ∨ m = .updated

theorem Delta.mark_settled (d : Delta) :
    d.settled.mark = d.mark ∨ (d.mark.OfFields ∧ d.settled.mark.OfFields) := by
  rw [Delta.settled]
  split
  · next h => exact .inr ⟨.inl h.1, .inr rfl⟩
  · split
    · next h => exact .inr ⟨.inr h.1, .inl rfl⟩
    · exact .inl rfl

theorem Delta.mark_record (d : Delta) (key : String) (u : Update) :
    (d.record key u).mark = d.mark ∨ (d.mark.OfFields ∧ (d.record key u).mark.OfFields) :=
  mark_settled { d with updates := d.updatesAfter key u }

namespace Merge

open FlowMerge.Tree

variable {m m' m'' : Merge} {u u' u'' : Tree} {t x : NodeId} {n : Nat}
  {up : NodeId → Option NodeId} {key : String} {e : String × Update} {contested : String → Bool}

/-- The tree `u'` is `u` up to contents and records of field changes. -/
structure Rewritten (u u' : Tree) : Prop where
  shape : SameShape u' u
  base : ∀ x, (u'.delta? x).map Delta.base = (u.delta? x).map Delta.base
  mark : ∀ x, u'.mark x = u.mark x ∨ ((u.mark x).OfFields ∧ (u'.mark x).OfFields)

namespace Rewritten

theorem refl (u : Tree) : Rewritten u u := ⟨.refl u, fun _ ↦ rfl, fun _ ↦ .inl rfl⟩

theorem of_alike (h : Alike u' u) : Rewritten u u' :=
  ⟨h.toSameShape, fun x ↦ by rw [h.delta?], fun x ↦ .inl (h.mark x)⟩

theorem trans (h : Rewritten u u') (h' : Rewritten u' u'') : Rewritten u u'' where
  shape := h'.shape.trans h.shape
  base x := (h'.base x).trans (h.base x)
  mark x := by
    rcases h.mark x with hx | ⟨hx, hx'⟩
    · rw [← hx]
      exact h'.mark x
    · rcases h'.mark x with hy | ⟨-, hy⟩
      · exact .inr ⟨hx, hy ▸ hx'⟩
      · exact .inr ⟨hx, hy⟩

theorem mark_eq (h : Rewritten u u') (hx : ¬ (u.mark x).OfFields) : u'.mark x = u.mark x :=
  (h.mark x).resolve_right fun hf ↦ hx hf.1

end Rewritten

theorem Rewritten.base?_eq (h : Rewritten u u') (x : NodeId) : base? u' x = base? u x := by
  have hb (v : Tree) : base? v x = ((v.delta? x).map Delta.base).join := by
    rw [base?]
    cases v.delta? x <;> rfl
  rw [hb u', hb u, h.base]

theorem basePath?_congr (hp : m'.basePaths = m.basePaths) (h : Rewritten u u') (x : NodeId) :
    m'.basePath? u' x = m.basePath? u x := by rw [basePath?, basePath?, hp, h.base?_eq]

theorem Branch.rewritten (hu : Branch n up u) (h : Rewritten u u') : Branch n up u' := by
  have hlive := h.shape.live
  exact {
    wellFormed := h.shape.wellFormed hu.wellFormed
    base? x := by
      rw [← hu.base?, h.base?_eq]
    recorded x hx := by
      obtain ⟨y, hy⟩ := hu.recorded x (hlive ▸ hx)
      have hb := h.base x
      rw [hy, Option.map_some, Option.map_eq_some_iff] at hb
      exact ⟨hb.choose, hb.choose_spec.1⟩
    inserted x hx hn := by
      have hi := hu.inserted x (hlive ▸ hx) hn
      rw [h.mark_eq, hi]
      rw [hi]
      rintro (hf | hf) <;> cases hf
    known x hx hn := by
      have hk := hu.known x (hlive ▸ hx) hn
      rcases h.mark x with hx | ⟨-, hx | hx⟩
      · rw [hx, hk]
      · rw [hx]
        rfl
      · rw [hx]
        rfl
    unmoved x hx hn hm := by
      rw [h.shape.parent?]
      refine hu.unmoved x (hlive ▸ hx) hn fun hmoved ↦ hm ?_
      rw [h.mark_eq, hmoved]
      rw [hmoved]
      rintro (hf | hf) <;> cases hf }

def wrote (t : NodeId) (key : String) (value : Option String) (u : Tree) : Tree :=
  (u.modifyContent t fun c ↦ c.setField key value).recordUpdate t key
    ⟨(u.content t).field key, value⟩

theorem delta?_wrote (t : NodeId) (key : String) (value : Option String) (u : Tree) (x : NodeId) :
    (wrote t key value u).delta? x = if x = t then
      (u.delta? x).map (·.record key ⟨(u.content t).field key, value⟩) else u.delta? x := by
  rw [wrote, recordUpdate, delta?_modifyDelta, delta?_modifyContent]

theorem content_wrote (t : NodeId) (key : String) (value : Option String) (u : Tree) (x : NodeId) :
    (wrote t key value u).content x = if x = t ∧ x < u.size then
      (u.content x).setField key value else u.content x := by
  rw [wrote, recordUpdate, content_modifyDelta, content_modifyContent]

theorem rewritten_wrote (t : NodeId) (key : String) (value : Option String) (u : Tree) :
    Rewritten u (wrote t key value u) := by
  refine ⟨(sameShape_recordUpdate _ t key _).trans (sameShape_modifyContent u t _), fun x ↦ ?_,
    fun x ↦ ?_⟩
  · rw [delta?_wrote]
    split
    · cases u.delta? x with
      | none => rfl
      | some y => exact congrArg some (y.base_record ..)
    · rfl
  · rw [Tree.mark, delta?_wrote, Tree.mark]
    split
    · cases u.delta? x with
      | none => exact .inl rfl
      | some y => exact y.mark_record ..
    · exact .inl rfl

/-- A field is written unless it has its new value, and a conflict is logged at most if the field
is contested. -/
theorem quiet_mergeField (contested : String → Bool) (t : NodeId) (m : Merge)
    (e : String × Update) :
    Quiet (if (m.target.content t).field e.1 = e.2.new then m
      else m.modifyTarget (wrote t e.1 e.2.new)) (mergeField contested t m e) := by
  rw [mergeField]
  dsimp only
  split
  · exact .refl m
  · have htake : Quiet (m.modifyTarget (wrote t e.1 e.2.new))
        (m.takeField t e.1 ((m.target.content t).field e.1) e.2.new) :=
      (Quiet.setProvenance _ t _).trans (.logEdit _ _ t)
    split
    · exact htake.trans (((Quiet.queue _ _).trans (.setState _ t _)).trans (.doubtContent _ t))
    · exact htake.trans (.setState _ t _)

theorem ascribes_mergeField (contested : String → Bool) (t : NodeId) (m : Merge)
    (e : String × Update) :
    Ascribes (fun x ↦ x = t ∧ (m.target.content t).field e.1 ≠ e.2.new) m.target
      (mergeField contested t m e).target := by
  rw [mergeField]
  dsimp only
  split
  · next hsame => exact (Ascribes.refl m.target).congr fun x ↦ by simp [hsame]
  · next hnew =>
    have hwrote : Ascribes (fun _ ↦ False) m.target (wrote t e.1 e.2.new m.target) :=
      .of_eq fun x ↦ (provenance?_modifyDelta _ t _ x).trans (provenance?_modifyContent _ t _ x)
    have htake : Ascribes (· = t) m.target
        (m.takeField t e.1 ((m.target.content t).field e.1) e.2.new).target :=
      (Ascribes.setProvenance (m.modifyTarget (wrote t e.1 e.2.new)) t).after hwrote
    have hboth (x : NodeId) : x = t ↔ x = t ∧ (m.target.content t).field e.1 ≠ e.2.new :=
      (and_iff_left hnew).symm
    split
    · exact (htake.before (.doubtContent _ t)).congr hboth
    · exact htake.congr hboth

structure Disputes (m : Merge) (t : NodeId) (key : String) (c : Conflict) : Prop where
  kind : c.kind = .update
  resolution : c.resolution = .branchA
  base : c.base = m.basePath? m.target t
  field : c.field = some key

theorem pending_mergeField (contested : String → Bool) (t : NodeId) (m : Merge)
    (e : String × Update) :
    if contested e.1 = true ∧ (m.target.content t).field e.1 ≠ e.2.new then
      ∃ c, (mergeField contested t m e).conflicts.pending = m.conflicts.pending ++ [c] ∧
        Disputes m t e.1 c
    else (mergeField contested t m e).conflicts.pending = m.conflicts.pending := by
  rw [mergeField]
  dsimp only
  by_cases hsame : (m.target.content t).field e.1 = e.2.new
  · rw [if_pos hsame, if_neg fun h ↦ h.2 hsame]
  · rw [if_neg hsame]
    by_cases hc : contested e.1 = true
    · rw [if_pos hc, if_pos ⟨hc, hsame⟩]
      have hwrote : Rewritten m.target
          (m.takeField t e.1 ((m.target.content t).field e.1) e.2.new).target :=
        (rewritten_wrote t e.1 e.2.new m.target).trans (.of_alike (alike_modifyInfo ..))
      exact ⟨_, rfl, rfl, rfl, basePath?_congr rfl hwrote t, rfl⟩
    · rw [if_neg hc, if_neg fun h ↦ hc h.1]
      rfl

structure Reworded (m m' : Merge) : Prop where
  source : m'.source = m.source
  matching : m'.matching = m.matching
  basePaths : m'.basePaths = m.basePaths
  target : Rewritten m.target m'.target
  pending : m.conflicts.pending <+: m'.conflicts.pending
  resolved : m'.conflicts.resolved = m.conflicts.resolved

namespace Reworded

theorem refl (m : Merge) : Reworded m m :=
  ⟨rfl, rfl, rfl, .refl _, List.prefix_rfl, rfl⟩

theorem of_quiet (q : Quiet m m') : Reworded m m' :=
  ⟨q.source, q.matching, q.basePaths, .of_alike q.alike, q.pending, q.resolved⟩

theorem trans (h : Reworded m m') (h' : Reworded m' m'') : Reworded m m'' where
  source := h'.source.trans h.source
  matching := h'.matching.trans h.matching
  basePaths := h'.basePaths.trans h.basePaths
  target := h.target.trans h'.target
  pending := h.pending.trans h'.pending
  resolved := h'.resolved.trans h.resolved

theorem mergeField (contested : String → Bool) (t : NodeId) (m : Merge) (e : String × Update) :
    Reworded m (mergeField contested t m e) := by
  have hq := quiet_mergeField contested t m e
  split at hq
  · exact of_quiet hq
  · have hw : Reworded m (m.modifyTarget (wrote t e.1 e.2.new)) :=
      ⟨rfl, rfl, rfl, rewritten_wrote t e.1 e.2.new m.target, List.prefix_rfl, rfl⟩
    exact hw.trans (of_quiet hq)

theorem mergeFields (m : Merge) (p : NodeId × NodeId) : Reworded m (m.mergeFields p) :=
  List.foldlRecOn _ _ (refl m) fun m' h e _ ↦ h.trans (mergeField _ p.2 m' e)

theorem mergeContent (m : Merge) : Reworded m m.mergeContent :=
  List.foldlRecOn _ _ (refl m) fun m' h p _ ↦ h.trans (mergeFields m' p)

end Reworded

theorem mem_mergeContent (m : Merge) : ∀ c ∈ m.mergeContent.conflicts.pending,
    c ∈ m.conflicts.pending ∨ c.kind = .update ∧ c.resolution = .branchA := by
  let Told (m' : Merge) : Prop := ∀ c ∈ m'.conflicts.pending,
    c ∈ m.conflicts.pending ∨ c.kind = .update ∧ c.resolution = .branchA
  have hfield (contested : String → Bool) (t : NodeId) (m' : Merge) (e : String × Update)
      (h : Told m') : Told (mergeField contested t m' e) := by
    intro c hc
    have hlog := pending_mergeField contested t m' e
    split at hlog
    · obtain ⟨c', hc', hd⟩ := hlog
      rw [hc', List.mem_append, List.mem_singleton] at hc
      rcases hc with hc | rfl
      · exact h c hc
      · exact .inr ⟨hd.kind, hd.resolution⟩
    · exact h c (hlog ▸ hc)
  have hstart : Told m := fun c hc ↦ .inl hc
  exact List.foldlRecOn _ _ (motive := Told) hstart fun m' h p _ ↦
    List.foldlRecOn _ _ (motive := Told) h fun m'' h' e _ ↦ hfield _ p.2 m'' e h'

end Merge

end FlowMerge
