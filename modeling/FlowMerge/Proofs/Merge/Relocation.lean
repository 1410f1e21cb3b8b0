import FlowMerge.Proofs.Merge.Proper

namespace FlowMerge.Merge

open FlowMerge.Tree

variable {start m m' : Merge} {pre : List NodeId} {u u' u'' : Tree} {P P' Q Q' : Prop}
  {s t x y : NodeId} {n : Nat} {up : NodeId → Option NodeId}

structure Stands (P : Prop) (u : Tree) (x : NodeId) : Prop where
  ours : P → u.provenance? x = some .branchA ∧ isNil u x = false
  theirs : ¬ P → u.provenance? x = some .branchB

structure Handled (Q : Prop) (x : NodeId) (u u' : Tree) : Prop where
  taken : Q → u'.provenance? x = (u.provenance? x).map (fun _ ↦ .branchA) ∧ isNil u' x = false
  left : ¬ Q → u'.provenance? x = u.provenance? x ∧ isNil u' x = isNil u x

theorem Stands.congr (h : Stands P u x) (hP : P ↔ P') : Stands P' u x :=
  ⟨fun hp ↦ h.ours (hP.2 hp), fun hp ↦ h.theirs fun hp' ↦ hp (hP.1 hp')⟩

theorem Stands.handled (h : Stands P u x) (h' : Handled Q x u u') : Stands (P ∨ Q) u' x := by
  by_cases hq : Q
  · obtain ⟨hprov, hnil⟩ := h'.taken hq
    refine ⟨fun _ ↦ ⟨?_, hnil⟩, fun hno ↦ absurd (.inr hq) hno⟩
    rw [hprov]
    by_cases hp : P
    · rw [(h.ours hp).1]
      rfl
    · rw [h.theirs hp]
      rfl
  · obtain ⟨hprov, hnil⟩ := h'.left hq
    refine ⟨fun hpq ↦ ?_, fun hno ↦ ?_⟩
    · rw [hprov, hnil]
      exact h.ours (hpq.resolve_right hq)
    · rw [hprov]
      exact h.theirs fun hp ↦ hno (.inl hp)

theorem Handled.of_not (hq : ¬ Q) (hprov : u'.provenance? x = u.provenance? x)
    (hdelta : u'.delta? x = u.delta? x) : Handled Q x u u' :=
  ⟨fun h ↦ absurd h hq, fun _ ↦ ⟨hprov, isNil_congr hdelta⟩⟩

theorem Handled.congr (h : Handled Q x u u') (hQ : Q ↔ Q') : Handled Q' x u u' :=
  ⟨fun hq ↦ h.taken (hQ.2 hq), fun hq ↦ h.left fun hq' ↦ hq (hQ.1 hq')⟩

theorem Handled.trans (h : Handled Q x u u') (h' : Handled Q' x u' u'') :
    Handled (Q ∨ Q') x u u'' := by
  by_cases hq' : Q'
  · obtain ⟨hprov, hnil⟩ := h'.taken hq'
    refine ⟨fun _ ↦ ⟨?_, hnil⟩, fun hno ↦ absurd (.inr hq') hno⟩
    rw [hprov]
    by_cases hq : Q
    · rw [(h.taken hq).1, Option.map_map]
      rfl
    · rw [(h.left hq).1]
  · obtain ⟨hprov, hnil⟩ := h'.left hq'
    refine ⟨fun hor ↦ ?_, fun hno ↦ ?_⟩
    · rw [hprov, hnil]
      exact h.taken (hor.resolve_right hq')
    · rw [hprov, hnil]
      exact h.left fun hq ↦ hno (.inl hq)

theorem isNil_of_mark (h : u.mark x ≠ .unchanged) : isNil u x = false :=
  Bool.eq_false_iff.2 fun hnil ↦ h (mark_of_isNil hnil)

theorem provenance?_copied (m : Merge) (s x : NodeId) :
    (m.copied s).provenance? x = if x = m.target.size then
      (m.target.provenance? root).map (fun _ ↦ .neither) else m.target.provenance? x := by
  have hblank (a : Overlay) : a.blank.info?.map MergeInfo.provenance =
      (a.info?.map MergeInfo.provenance).map fun _ ↦ .neither := by
    cases a <;> rfl
  rw [copied, setMark, provenance?_modifyDelta, importNode, provenance?_alloc, hblank]
  rfl

theorem size_shift (m : Merge) (s t tp : NodeId) :
    (m.shift s t tp).target.size = m.target.size := by
  have hset : SameShape (m.shift s t tp).target
      ((m.target.detach t).insertChild tp (m.slot s t tp) t) := sameShape_setMark _ t _
  rw [hset.size, size_insertChild, size_detach]

theorem Reshaped.mem_live (hr : Reshaped n m s m') (hx : x ∈ m.target.live) :
    x ∈ m'.target.live := by
  cases hr with
  | same ha => exact ha.toSameShape.live ▸ hx
  | moved _ _ _ _ hm => exact (hm.live x).2 hx
  | added _ _ _ _ _ _ _ _ ha => exact (ha.live x).2 (.inl hx)

theorem Reshaped.same_of_ne (hr : Reshaped n m s m') (hx : x < m.target.size) (hne : x ≠ s) :
    m'.target.parent? x = m.target.parent? x ∧ m'.target.delta? x = m.target.delta? x := by
  cases hr with
  | same ha => exact ⟨ha.parent? x, ha.delta? x⟩
  | moved _ _ _ _ hm =>
    rw [hm.parent?, hm.delta?, if_neg hne, if_neg hne]
    exact ⟨rfl, rfl⟩
  | added _ _ _ _ _ _ _ _ ha =>
    rw [ha.parent?, ha.delta?, if_neg (Nat.ne_of_lt hx), if_neg (Nat.ne_of_lt hx)]
    exact ⟨rfl, rfl⟩

/-- Branch A moved a node, and it hangs below what stands for its parent in branch A. It was not
branch B that brought it there. -/
structure Relocated (start m : Merge) (x : NodeId) : Prop where
  mark : start.source.mark x = .movedHere
  tied : m.matching.old? x = some x
  place : ∃ ps q, start.source.parent? x = some ps ∧ m.matching.old? ps = some q ∧
    m.target.parent? x = some q ∧
      ¬ (start.target.mark x = .movedHere ∧ start.target.parent? x = some q)

namespace Placed

variable (h : Placed n up start pre m)
include h

theorem old?_of_ne (hr : Reshaped n m s m') (hy : y ≠ s) :
    m'.matching.old? y = m.matching.old? y := by
  cases hr with
  | same _ hm => rw [hm]
  | moved _ _ _ hm => rw [hm]
  | added _ _ _ _ _ _ hfree hm =>
    refine Option.ext fun t ↦ ?_
    rw [hm, h.aligned.old?_link h.branch.wellFormed hfree]
    exact or_iff_right fun hst ↦ hy hst.1

theorem relocated_iff_of_ne (hr : Reshaped n m s m') (hx : x < m.target.size) (hne : x ≠ s)
    (hbelow : start.source.parent? x ≠ some s) : Relocated start m' x ↔ Relocated start m x := by
  have hparent := (hr.same_of_ne hx hne).1
  constructor
  · rintro ⟨hmark, htied, ps, q, hps, hq, hpar, hnews⟩
    have hpne : ps ≠ s := fun he ↦ hbelow (he ▸ hps)
    exact ⟨hmark, h.old?_of_ne hr hne ▸ htied, ps, q, hps, h.old?_of_ne hr hpne ▸ hq,
      hparent ▸ hpar, hnews⟩
  · rintro ⟨hmark, htied, ps, q, hps, hq, hpar, hnews⟩
    have hpne : ps ≠ s := fun he ↦ hbelow (he ▸ hps)
    exact ⟨hmark, (h.old?_of_ne hr hne).trans htied, ps, q, hps, (h.old?_of_ne hr hpne).trans hq,
      hparent.trans hpar, hnews⟩

theorem provenance?_of_ne (hA : Branch n up start.source) (hs : s ∈ start.source.live)
    (ht : Turned m s m') (hx : x < m.target.size) (hne : x < n → x ≠ s) :
    m'.target.provenance? x = m.target.provenance? x := by
  cases ht with
  | still _ _ _ tags => exact tags.kept x not_false
  | refused _ _ _ _ _ _ _ _ tags => exact tags.kept x not_false
  | shifted t _ _ _ _ hm _ hst _ _ _ tags =>
    have hlt : s < n := hA.lt_of_movedHere hs (h.source ▸ hm)
    obtain rfl := h.aligned.eq_of_lt hA h.branch hst hlt
    exact tags.kept x fun he ↦ hne (he ▸ hlt) he
  | grafted _ _ _ _ _ _ _ _ tags =>
    rw [tags.kept x (Nat.ne_of_lt hx), provenance?_copied, if_neg (Nat.ne_of_lt hx)]
  | dropped _ _ _ _ _ tags => exact tags.kept x not_false

theorem handled_turn (hA : Branch n up start.source) (hs : start.source.Due pre s)
    (hlt : s < start.target.size) (hmark : m.target.mark s = start.target.mark s)
    (ht : Turned m s m') : Handled (Relocated start m' s) s m.target m'.target := by
  have w := h.branch.wellFormed
  have hparent : m.target.parent? s = start.target.parent? s :=
    h.awaiting s hlt fun hseen ↦ absurd hseen hs.unseen
  have hsource := h.source
  cases ht with
  | still q _ why tags =>
    refine .of_not ?_ (tags.kept s not_false) (q.alike.delta? s)
    rintro ⟨hmoved, htied, ps, tp, hps, hq, -, hnews⟩
    rw [q.matching] at htied hq
    rw [hsource] at why
    rcases why with hno | ⟨t, hst, hne | ⟨ps', tp', hps', habove, hpar, hm⟩⟩
    · rw [hno] at hps
      cases hps
    · exact hne hmoved
    · obtain rfl := Option.some_inj.1 (hst.symm.trans htied)
      obtain rfl := Option.some_inj.1 (hps'.symm.trans hps)
      obtain rfl := Option.some_inj.1 (habove.symm.trans hq)
      exact hnews ⟨hmark ▸ hm, hparent ▸ hpar⟩
  | refused t ps q hm hps hst why _ tags =>
    refine .of_not ?_ (tags.kept s not_false) (q.alike.delta? s)
    rintro ⟨-, htied, ps', tp, hps', hq, hpar, -⟩
    rw [q.matching] at htied hq
    rw [q.alike.parent?] at hpar
    obtain rfl := Option.some_inj.1 (hst.symm.trans htied)
    rw [hsource] at hps
    obtain rfl := Option.some_inj.1 (hps.symm.trans hps')
    exact w.not_above_of_parent hpar (w.isAncestorOrSelf_iff.1 (why tp hq))
  | shifted t ps tp q _ hm hps hst habove hfree hnews tags =>
    rw [hsource] at hm hps
    obtain rfl := h.aligned.eq_of_lt hA h.branch hst (hA.lt_of_movedHere hs.live hm)
    have htl := (h.aligned.live t t hst).2
    have hmoved := moved_shift q w htl hs.ne_root (h.aligned.live ps tp habove).2 hfree
    obtain ⟨y, hy⟩ := h.branch.recorded t htl
    refine ⟨fun _ ↦ ⟨tags.taken t rfl, isNil_of_mark ?_⟩, fun hno ↦ absurd ?_ hno⟩
    · rw [mark, hmoved.delta?, if_pos rfl, hy]
      change Mark.movedHere ≠ .unchanged
      decide
    · refine ⟨hm, q.matching ▸ hst, ps, tp, hps, q.matching ▸ habove, ?_, ?_⟩
      · rw [hmoved.parent?, if_pos rfl]
      · rwa [← hmark, ← hparent]
  | grafted ps tp q _ hm _ _ habove tags =>
    -- the tag goes on the copy, whose number comes after those of all nodes there were
    have hne : s ≠ m.target.size := Nat.ne_of_lt (Nat.lt_of_lt_of_le hlt h.size_le)
    have hadded := added_graft q w (h.aligned.live ps tp habove).2 h.branch.recorded_root
    refine .of_not ?_ ?_ ?_
    · rintro ⟨hmoved, -⟩
      rw [hsource, hmoved] at hm
      cases hm
    · rw [tags.kept s hne, provenance?_copied, if_neg hne]
    · rw [hadded.delta?, if_neg hne]
  | dropped _ q _ hfree _ tags =>
    refine .of_not ?_ (tags.kept s not_false) (q.alike.delta? s)
    rintro ⟨-, htied, -⟩
    have hsame : m'.matching = m.matching := q.matching
    rw [hsame, hfree] at htied
    cases htied

end Placed

/-- To whom nodes are ascribed when those in `pre` had their turns. -/
structure Traced (start : Merge) (pre : List NodeId) (m : Merge) : Prop where
  old : ∀ x < start.target.size, Stands (x ∈ pre ∧ Relocated start m x) m.target x
  fresh : ∀ x, start.target.size ≤ x → x < m.target.size →
    x ∈ m.target.live ∧ m.target.provenance? x = some .branchA
  awaiting : ∀ x < start.target.size, x ∉ pre → m.target.mark x = start.target.mark x

namespace Traced

variable (h : Traced start pre m)
include h

theorem provenance?_ne_none (hx : x < m.target.size) : m.target.provenance? x ≠ none := by
  by_cases hlt : x < start.target.size
  · by_cases hp : x ∈ pre ∧ Relocated start m x
    · rw [((h.old x hlt).ours hp).1]
      exact nofun
    · rw [(h.old x hlt).theirs hp]
      exact nofun
  · rw [(h.fresh x (Nat.le_of_not_lt hlt) hx).2]
    exact nofun

theorem fresh_turn (hp : Placed n up start pre m) (hA : Branch n up start.source)
    (hT : Branch n up start.target) (hs : start.source.Due pre s) (ht : Turned m s m')
    (hle : start.target.size ≤ x) (hlt : x < m'.target.size) :
    x ∈ m'.target.live ∧ m'.target.provenance? x = some .branchA := by
  by_cases hx : x < m.target.size
  · obtain ⟨hl, hprov⟩ := h.fresh x hle hx
    have hnew : x < n → x ≠ s := fun hn ↦ absurd (hT.lt_size hn) (Nat.not_lt_of_le hle)
    exact ⟨(hp.reshaped hA hs.live hs.ne_root ht).mem_live hl,
      (hp.provenance?_of_ne hA hs.live ht hx hnew).trans hprov⟩
  · cases ht with
    | still q => exact absurd (q.alike.size ▸ hlt) hx
    | refused _ _ q => exact absurd (q.alike.size ▸ hlt) hx
    | shifted t _ tp q => exact absurd ((q.alike.size.trans (size_shift m s t tp)) ▸ hlt) hx
    | grafted ps tp q _ _ _ _ habove tags =>
      have hadded := added_graft q hp.branch.wellFormed (hp.aligned.live ps tp habove).2
        hp.branch.recorded_root
      rw [hadded.size] at hlt
      obtain rfl : x = m.target.size :=
        Nat.le_antisymm (Nat.le_of_lt_succ hlt) (Nat.le_of_not_lt hx)
      obtain ⟨p, hroot⟩ := Option.ne_none_iff_exists'.1
        (h.provenance?_ne_none hp.branch.wellFormed.root_lt)
      refine ⟨(hadded.live _).2 (.inr rfl), ?_⟩
      rw [tags.taken _ rfl, provenance?_copied, if_pos rfl, hroot]
      rfl
    | dropped _ q =>
      have hsize : m'.target.size = m.target.size := q.alike.size
      exact absurd (hsize ▸ hlt) hx

theorem turn (hp : Placed n up start pre m) (hA : Branch n up start.source)
    (hT : Branch n up start.target) (hs : start.source.Due pre s) (ht : Turned m s m') :
    Traced start (pre ++ [s]) m' := by
  have hr := hp.reshaped hA hs.live hs.ne_root ht
  have hsize {x : NodeId} (hx : x < start.target.size) : x < m.target.size :=
    Nat.lt_of_lt_of_le hx hp.size_le
  refine ⟨fun x hx ↦ ?_, fun x ↦ h.fresh_turn hp hA hT hs ht, fun x hx hnot ↦ ?_⟩
  · by_cases hxs : x = s
    · subst hxs
      have hown : Stands False m.target x :=
        (h.old x hx).congr (iff_false_intro fun hpre ↦ hs.unseen hpre.1)
      have hmark := h.awaiting x hx hs.unseen
      refine (hown.handled (hp.handled_turn hA hs hx hmark ht)).congr ?_
      rw [false_or]
      exact (and_iff_right (List.mem_append_right pre List.mem_cons_self)).symm
    · have hother : Handled False x m.target m'.target := .of_not not_false
        (hp.provenance?_of_ne hA hs.live ht (hsize hx) fun _ ↦ hxs) (hr.same_of_ne (hsize hx) hxs).2
      refine ((h.old x hx).handled hother).congr ?_
      rw [or_false, List.mem_append, List.mem_singleton, or_iff_left hxs]
      refine and_congr_right fun hpre ↦
        (hp.relocated_iff_of_ne hr (hsize hx) hxs fun hpar ↦ ?_).symm
      exact hs.below x hpre (.tail .refl hpar)
  · rw [List.mem_append, List.mem_singleton, not_or] at hnot
    rw [mark_eq_of_delta? (hr.same_of_ne (hsize hx) hnot.2).2]
    exact h.awaiting x hx hnot.1

end Traced

namespace Ready

variable (h : Ready n up start)
include h

theorem traced (hown : ∀ x < start.target.size, start.target.provenance? x = some .branchB) :
    Traced start start.source.live.tail start.mergePlacement := by
  refine h.placement_induction ⟨fun x hx ↦ ⟨fun hno ↦ absurd hno.1 List.not_mem_nil,
    fun _ ↦ hown x hx⟩, fun x hle hlt ↦ absurd hlt (Nat.not_lt_of_le hle), fun _ _ _ ↦ rfl⟩ ?_
  intro pre s m hp hs ih
  exact ih.turn hp h.source h.target hs (turned_follow _ m s)

end Ready

end FlowMerge.Merge
