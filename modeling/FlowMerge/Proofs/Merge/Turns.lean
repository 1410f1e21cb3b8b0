import FlowMerge.Proofs.Merge.Align
import FlowMerge.Proofs.Merge.Ascription

namespace FlowMerge.Merge

open FlowMerge.Tree

variable {m m' m'' : Merge} {deleted : List (Nat × NodeId)} {s t tp ps x : NodeId}

structure Quiet (m m' : Merge) : Prop where
  source : m'.source = m.source
  matching : m'.matching = m.matching
  basePaths : m'.basePaths = m.basePaths
  dropped : m'.dropped = m.dropped
  alike : Alike m'.target m.target
  pending : m.conflicts.pending <+: m'.conflicts.pending
  resolved : m'.conflicts.resolved = m.conflicts.resolved

namespace Quiet

theorem refl (m : Merge) : Quiet m m := ⟨rfl, rfl, rfl, rfl, .refl _, List.prefix_rfl, rfl⟩

theorem trans (h : Quiet m m') (h' : Quiet m' m'') : Quiet m m'' where
  source := h'.source.trans h.source
  matching := h'.matching.trans h.matching
  basePaths := h'.basePaths.trans h.basePaths
  dropped := h'.dropped.trans h.dropped
  alike := h'.alike.trans h.alike
  pending := h.pending.trans h'.pending
  resolved := h'.resolved.trans h.resolved

theorem setState (m : Merge) (t : NodeId) (st : MergeState) : Quiet m (m.setState t st) :=
  ⟨rfl, rfl, rfl, rfl, .refl _, List.prefix_rfl, rfl⟩

theorem setProvenance (m : Merge) (t : NodeId) (p : Provenance) : Quiet m (m.setProvenance t p) :=
  ⟨rfl, rfl, rfl, rfl, alike_modifyInfo .., List.prefix_rfl, rfl⟩

theorem doubtContent (m : Merge) (t : NodeId) : Quiet m (m.doubtContent t) :=
  ⟨rfl, rfl, rfl, rfl, alike_modifyInfo .., List.prefix_rfl, rfl⟩

theorem doubtPlace (m : Merge) (t : NodeId) : Quiet m (m.doubtPlace t) :=
  ⟨rfl, rfl, rfl, rfl, alike_modifyInfo .., List.prefix_rfl, rfl⟩

theorem queue (m : Merge) (c : Conflict) : Quiet m (m.queue c) :=
  ⟨rfl, rfl, rfl, rfl, .refl _, List.prefix_append _ _, rfl⟩

theorem logEdit (m : Merge) (k : EditKind) (t : NodeId) : Quiet m (m.logEdit k t) :=
  ⟨rfl, rfl, rfl, rfl, .refl _, List.prefix_rfl, rfl⟩

theorem moveConflict (m : Merge) (t : NodeId) (text : String) (r : Resolution) :
    Quiet m (m.moveConflict t text r) :=
  ((queue m _).trans (setState _ t _)).trans (doubtPlace _ t)

end Quiet

theorem targetIndex_congr (hs : m'.source = m.source) (hm : m'.matching = m.matching)
    (ht : SameShape m'.target m.target) (s tp : NodeId) :
    m'.targetIndex s tp = m.targetIndex s tp := by
  have hc : m'.counterpart? = m.counterpart? := funext fun x ↦ by
    rw [counterpart?, hm, counterpart?]
  have hp : m'.target.parent? = m.target.parent? := funext ht.parent?
  have hi : m'.target.position = m.target.position := funext ht.position
  unfold targetIndex
  rw [hs, hc, hp, hi]

def shift (m : Merge) (s t tp : NodeId) : Merge :=
  let m := m.modifyTarget fun tree ↦ tree.detach t
  m.modifyTarget fun tree ↦ (tree.insertChild tp (m.targetIndex s tp) t).setMark t .movedHere

theorem quiet_moveBelow (m : Merge) (s t tp : NodeId) :
    Quiet (m.shift s t tp) (m.moveBelow s t tp) :=
  (Quiet.setProvenance _ t _).trans (.logEdit _ _ t)

def copied (m : Merge) (s : NodeId) : Tree :=
  (m.target.importNode m.source s).1.setMark m.target.size .inserted

def graft (m : Merge) (s tp : NodeId) : Merge :=
  { m with
    target := (m.copied s).insertChild tp ({ m with target := m.copied s }.targetIndex s tp)
      m.target.size
    matching := m.matching.link s m.target.size }

theorem quiet_carryInsertion (m : Merge) (s tp : NodeId) :
    Quiet (m.graft s tp) (m.carryInsertion s tp) := by
  have hindex := @targetIndex_congr { m with target := m.copied s }
    ({ m with target := m.copied s }.setProvenance m.target.size .branchA) rfl rfl
    (sameShape_modifyInfo ..) s tp
  refine ⟨rfl, rfl, rfl, rfl, ?_, List.prefix_rfl, rfl⟩
  have htarget : (m.carryInsertion s tp).target =
      (({ m with target := m.copied s }.setProvenance m.target.size .branchA).target).insertChild
        tp (({ m with target := m.copied s }.setProvenance m.target.size .branchA).targetIndex s tp)
        m.target.size := rfl
  rw [htarget, hindex]
  exact (insertChild_modifyInfo ..).symm ▸ alike_modifyInfo ..

namespace Ascribes

theorem moveConflict (m : Merge) (t : NodeId) (text : String) (r : Resolution) :
    Ascribes (fun _ ↦ False) m.target (m.moveConflict t text r).target := .doubtPlace _ t

theorem moveBelow (m : Merge) (s t tp : NodeId) :
    Ascribes (· = t) m.target (m.moveBelow s t tp).target := by
  have hdata : SameData ((m.target.detach t).insertChild tp
      ((m.modifyTarget fun tree ↦ tree.detach t).targetIndex s tp) t) m.target :=
    (sameData_insertChild _ _ _ _).trans (sameData_detach _ t)
  have hshift : Ascribes (fun _ ↦ False) m.target (m.shift s t tp).target :=
    (sameData hdata).before (.modifyDelta _ t _)
  exact (setProvenance (m.shift s t tp) t).after hshift

theorem carryInsertion (m : Merge) (s tp : NodeId) :
    Ascribes (· = m.target.size) (m.copied s) (m.carryInsertion s tp).target :=
  (setProvenance { m with target := m.copied s } m.target.size).before
    (sameData (sameData_insertChild _ _ _ _))

theorem dropDeleted (m : Merge) (deleted : List (Nat × NodeId)) (s : NodeId) :
    Ascribes (fun _ ↦ False) m.target (m.dropDeleted deleted s).target := by
  unfold Merge.dropDeleted
  dsimp only
  split
  · split
    · exact .doubtContent _ _
    · exact .refl _
  · split
    · exact .refl _
    · exact .refl _

end Ascribes

def follow (deleted : List (Nat × NodeId)) (m : Merge) (s : NodeId) : Merge :=
  match m.counterpart? s with
  | some t => m.placeMatched s t
  | none => m.carryUnmatched deleted s

theorem mergePlacement_eq (m : Merge) :
    m.mergePlacement = m.source.live.tail.foldl (follow (deletedInTarget m.target)) m := rfl

/-- What may come of a turn. -/
inductive Turned (m : Merge) (s : NodeId) (m' : Merge) : Prop
  | still (h : Quiet m m') (calm : m'.conflicts.pending = m.conflicts.pending)
      (why : m.source.parent? s = none ∨ ∃ t, m.matching.old? s = some t ∧
        (m.source.mark s ≠ .movedHere ∨ ∃ ps tp, m.source.parent? s = some ps ∧
          m.matching.old? ps = some tp ∧ m.target.parent? t = some tp ∧
          m.target.mark t = .movedHere))
      (tags : Ascribes (fun _ ↦ False) m.target m'.target)
  | refused (t ps : NodeId) (h : Quiet m m') (mark : m.source.mark s = .movedHere)
      (parent : m.source.parent? s = some ps) (old : m.matching.old? s = some t)
      (why : ∀ tp, m.matching.old? ps = some tp → m.target.isAncestorOrSelf t tp = true)
      (logged : ∃ c ∈ m'.conflicts.pending, c.kind = .move ∧ c.resolution = .branchB ∧
        c.base = m.basePath? m.target t)
      (tags : Ascribes (fun _ ↦ False) m.target m'.target)
  | shifted (t ps tp : NodeId) (h : Quiet (m.shift s t tp) m')
      (calm : m.target.mark t ≠ .movedHere → m'.conflicts.pending = m.conflicts.pending)
      (mark : m.source.mark s = .movedHere) (parent : m.source.parent? s = some ps)
      (old : m.matching.old? s = some t) (above : m.matching.old? ps = some tp)
      (free : m.target.isAncestorOrSelf t tp = false)
      (news : ¬ (m.target.mark t = .movedHere ∧ m.target.parent? t = some tp))
      (tags : Ascribes (· = t) m.target m'.target)
  | grafted (ps tp : NodeId) (h : Quiet (m.graft s tp) m')
      (calm : m'.conflicts.pending = m.conflicts.pending)
      (mark : (m.source.mark s).isInsertion = true) (parent : m.source.parent? s = some ps)
      (old : m.matching.old? s = none) (above : m.matching.old? ps = some tp)
      (tags : Ascribes (· = m.target.size) (m.copied s) m'.target)
  | dropped (ps : NodeId) (h : Quiet (m.drop s) m') (parent : m.source.parent? s = some ps)
      (old : m.matching.old? s = none)
      (why : ps ∈ m.dropped ∨ m.matching.old? ps = none ∨ ((m.source.mark s).isInsertion = false ∧
        (m'.conflicts.pending = m.conflicts.pending → m.changedInSource s = false)))
      (tags : Ascribes (fun _ ↦ False) m.target m'.target)

theorem turned_placeMatched (hold : m.matching.old? s = some t) :
    Turned m s (m.placeMatched s t) := by
  unfold placeMatched
  split
  · next ps hmark hparent =>
    cases habove : m.counterpart? ps with
    | none =>
      refine .refused t ps (.moveConflict m t _ _) hmark hparent hold (fun tp htp ↦ ?_)
        ⟨_, List.mem_append_right _ List.mem_cons_self, rfl, rfl, rfl⟩ (.moveConflict m t _ _)
      rw [counterpart?, htp] at habove
      cases habove
    | some tp =>
      dsimp only
      split
      · next hsame =>
        rw [Bool.and_eq_true, beq_iff_eq, beq_iff_eq] at hsame
        exact .still (.setState m t _) rfl
          (.inr ⟨t, hold, .inr ⟨ps, tp, hparent, habove, hsame.2, hsame.1⟩⟩) (.refl _)
      · next hnews =>
        rw [Bool.and_eq_true, beq_iff_eq, beq_iff_eq] at hnews
        split
        · next hcycle =>
          refine .refused t ps (.moveConflict m t _ _) hmark hparent hold (fun tp' htp ↦ ?_)
            ⟨_, List.mem_append_right _ List.mem_cons_self, rfl, rfl, rfl⟩ (.moveConflict m t _ _)
          obtain rfl := Option.some_inj.1 (habove.symm.trans htp)
          exact hcycle
        · next hfree =>
          split
          · next hmoved =>
            exact .shifted t ps tp ((quiet_moveBelow m s t tp).trans (.moveConflict _ t _ _))
              (fun hne ↦ absurd (beq_iff_eq.1 hmoved) hne) hmark hparent hold habove
              (Bool.eq_false_iff.2 hfree) hnews ((Ascribes.moveBelow m s t tp).before
                (.moveConflict _ t _ _))
          · exact .shifted t ps tp ((quiet_moveBelow m s t tp).trans (.setState _ t _))
              (fun _ ↦ rfl) hmark hparent hold habove (Bool.eq_false_iff.2 hfree) hnews
              (.moveBelow m s t tp)
  · next hno =>
    refine .still (.refl m) rfl ?_ (.refl _)
    cases hparent : m.source.parent? s with
    | none => exact .inl rfl
    | some ps => exact .inr ⟨t, hold, .inl fun hmark ↦ hno ps hmark hparent⟩

theorem quiet_dropDeleted (m : Merge) (deleted : List (Nat × NodeId)) (s : NodeId) :
    Quiet (m.drop s) (m.dropDeleted deleted s) := by
  unfold dropDeleted
  dsimp only
  split
  · split
    · exact ((Quiet.queue _ _).trans (.setState _ _ _)).trans (.doubtContent _ _)
    · exact .queue _ _
  · split
    · exact .setState _ _ _
    · exact .refl _

theorem changedInSource_of_dropDeleted (h : (m.dropDeleted deleted s).conflicts.pending =
    m.conflicts.pending) : m.changedInSource s = false := by
  have hdrop : (m.drop s).changedInSource s = m.changedInSource s := rfl
  rw [← hdrop]
  by_contra hch
  rw [Bool.not_eq_false] at hch
  unfold dropDeleted at h
  dsimp only at h
  rw [if_pos hch] at h
  have hqueued {c : Conflict} : m.conflicts.pending ++ [c] ≠ m.conflicts.pending := by simp
  split at h
  · exact hqueued h
  · exact hqueued h

theorem turned_carryUnmatched (deleted : List (Nat × NodeId)) (hold : m.matching.old? s = none) :
    Turned m s (m.carryUnmatched deleted s) := by
  unfold carryUnmatched
  split
  · next hparent => exact .still (.refl m) rfl (.inl hparent) (.refl _)
  · next ps hparent =>
    split
    · next hdropped =>
      exact .dropped ps (.refl _) hparent hold (.inl (List.contains_iff_mem.1 hdropped)) (.refl _)
    · split
      · next hmark =>
        split
        · next habove => exact .dropped ps (.refl _) hparent hold (.inr (.inl habove)) (.refl _)
        · next tp habove =>
          exact .grafted ps tp (quiet_carryInsertion m s tp) rfl hmark hparent hold habove
            (.carryInsertion m s tp)
      · next hmark =>
        exact .dropped ps (quiet_dropDeleted m deleted s) hparent hold
          (.inr (.inr ⟨Bool.eq_false_iff.2 hmark, changedInSource_of_dropDeleted⟩))
          (.dropDeleted m deleted s)

theorem turned_follow (deleted : List (Nat × NodeId)) (m : Merge) (s : NodeId) :
    Turned m s (follow deleted m s) := by
  unfold follow
  split
  · next hold => exact turned_placeMatched hold
  · next hold => exact turned_carryUnmatched deleted hold

end FlowMerge.Merge
