import FlowMerge.Proofs.Merge.Insertions

namespace FlowMerge

namespace MergeState

variable {s t : MergeState}

def OfRemoval (s : MergeState) : Prop := s = .deleted ∨ s = .deleteConflict

theorem settled_eq_deleted : s.settled = .deleted ↔ s.OfRemoval := by
  cases s <;> simp [settled, OfRemoval]

theorem eq_unseen_of_rank (h : ¬ 0 < s.rank) : s = .unseen := by
  cases s <;> simp [rank] at h ⊢

theorem ofRemoval_weightier {g : Prop} (hs : s = .unseen ∨ (s.OfRemoval ↔ g))
    (ht : t.OfRemoval ↔ g) : (s.weightier t).OfRemoval ↔ g := by
  rw [weightier]
  split
  · exact ht
  · next hle =>
    rcases hs with hunseen | hs
    · subst hunseen
      rw [← eq_unseen_of_rank hle]
      exact ht
    · exact hs

end MergeState

namespace Merge

open FlowMerge.Tree

variable {α : Type} [Score α] {base a b : Tree} {start m m' m'' : Merge} {r : MergeResult}
  {seen : List NodeId} {deleted : List (Nat × NodeId)} {gone P Q : NodeId → Prop}
  {st : MergeState} {s t x : NodeId} {n : Nat} {up : NodeId → Option NodeId}

theorem states_setState (m : Merge) (t : NodeId) (st : MergeState) (x : NodeId) :
    (m.setState t st).states[x]? =
      if x = t then some (((m.states[t]?).getD .unseen).weightier st) else m.states[x]? := by
  rw [setState, Std.TreeMap.getElem?_insert]
  simp only [Nat.compare_eq_eq, eq_comm (a := t)]

def Sorted (gone : NodeId → Prop) (m : Merge) : Prop :=
  ∀ x st, m.states[x]? = some st → (st.OfRemoval ↔ gone x)

structure Notes (gone P : NodeId → Prop) (m m' : Merge) : Prop where
  same : ∀ x, ¬ P x → m'.states[x]? = m.states[x]?
  sorted : Sorted gone m → Sorted gone m'

namespace Notes

theorem of_eq (h : m'.states = m.states) : Notes gone P m m' where
  same x _ := by rw [h]
  sorted hs := by
    intro x st hx
    rw [h] at hx
    exact hs x st hx

theorem trans (h : Notes gone P m m') (h' : Notes gone P m' m'') : Notes gone P m m'' where
  same x hx := (h'.same x hx).trans (h.same x hx)
  sorted hs := h'.sorted (h.sorted hs)

theorem mono (h : Notes gone P m m') (hPQ : ∀ x, P x → Q x) : Notes gone Q m m' where
  same x hx := h.same x fun hp ↦ hx (hPQ x hp)
  sorted := h.sorted

theorem setState (m : Merge) (hst : st.OfRemoval ↔ gone t) (ht : P t) :
    Notes gone P m (m.setState t st) where
  same x hx := by
    have hne : x ≠ t := by
      intro he
      subst he
      exact hx ht
    rw [states_setState, if_neg hne]
  sorted hs := by
    intro x st' hx
    rw [states_setState] at hx
    split at hx
    · next he =>
      subst he
      obtain rfl := Option.some_inj.1 hx
      apply MergeState.ofRemoval_weightier _ hst
      cases hmx : m.states[x]? with
      | none => exact .inl rfl
      | some old => exact .inr (hs x old hmx)
    · exact hs x st' hx

theorem rest (h : Notes gone P m m') (hstates : m''.states = m'.states) : Notes gone P m m'' :=
  h.trans (of_eq hstates)

theorem keep (h : Notes gone P m m') (hst : ¬ st.OfRemoval) (ht : ¬ gone t ∧ P t) :
    Notes gone P m (m'.setState t st) := h.trans (setState m' (iff_of_false hst ht.1) ht.2)

theorem remove (h : Notes gone P m m') (hst : st.OfRemoval) (ht : gone t ∧ P t) :
    Notes gone P m (m'.setState t st) := h.trans (setState m' (iff_of_true hst ht.1) ht.2)

end Notes

theorem matching_placeMatched (hold : m.matching.old? s = some t) :
    (m.placeMatched s t).matching = m.matching := by
  cases turned_placeMatched hold with
  | still q => exact q.matching
  | refused _ _ q => exact q.matching
  | shifted _ _ _ q => exact q.matching
  | grafted _ _ _ _ _ _ hfree =>
    rw [hold] at hfree
    cases hfree
  | dropped _ _ _ hfree =>
    rw [hold] at hfree
    cases hfree

theorem states_moveBelow (m : Merge) (s t tp : NodeId) :
    (m.moveBelow s t tp).states = m.states := rfl

theorem notes_placeMatched (m : Merge) (s : NodeId) (ht : ¬ gone t ∧ P t) :
    Notes gone P m (m.placeMatched s t) := by
  have hmoved {m' : Merge} (h : m'.states = m.states) : Notes gone P m (m'.setState t .moved) := by
    apply (Notes.of_eq h).keep _ ht
    simp [MergeState.OfRemoval]
  have hconflict {m' : Merge} {text : String} {r : Resolution} (h : m'.states = m.states) :
      Notes gone P m (m'.moveConflict t text r) := by
    have hset : Notes gone P m (m'.setState t .moveConflict) := by
      apply (Notes.of_eq h).keep _ ht
      simp [MergeState.OfRemoval]
    exact hset.rest rfl
  unfold placeMatched
  split
  · dsimp only
    split
    · exact hconflict rfl
    · split
      · exact hmoved rfl
      · split
        · exact hconflict rfl
        · split
          · exact hconflict (states_moveBelow m s t _)
          · exact hmoved (states_moveBelow m s t _)
  · exact .of_eq rfl

theorem notes_carryInsertion (m : Merge) (s tp : NodeId)
    (ht : ¬ gone m.target.size ∧ P m.target.size) : Notes gone P m (m.carryInsertion s tp) := by
  have hset : Notes gone P m (m.setState m.target.size .inserted) := by
    apply (Notes.of_eq rfl).keep _ ht
    simp [MergeState.OfRemoval]
  exact hset.rest rfl

theorem notes_dropDeleted (m : Merge) (s : NodeId) (hdel : ∀ e ∈ deleted, gone e.2 ∧ P e.2) :
    Notes gone P m (m.dropDeleted deleted s) := by
  have hset {t : NodeId} {st : MergeState} (ht : (m.drop s).deletedCounterpart? deleted s = some t)
      (hst : st.OfRemoval) : Notes gone P m ((m.drop s).setState t st) := by
    obtain ⟨b, -, hb⟩ := Option.bind_eq_some_iff.1 ht
    obtain ⟨e, he, het⟩ := Option.map_eq_some_iff.1 hb
    have hdrop : Notes gone P m (m.drop s) := .of_eq rfl
    apply hdrop.remove hst
    rw [← het]
    exact hdel e (List.mem_of_find?_eq_some he)
  unfold dropDeleted
  dsimp only
  split
  · split
    · next t ht => exact (hset ht (.inr rfl)).rest rfl
    · exact .of_eq rfl
  · split
    · next t ht => exact hset ht (.inl rfl)
    · exact .of_eq rfl

theorem notes_follow (m : Merge) (s : NodeId) (hdel : ∀ e ∈ deleted, gone e.2 ∧ P e.2)
    (htied : ∀ t, (follow deleted m s).matching.old? s = some t → ¬ gone t ∧ P t) :
    Notes gone P m (follow deleted m s) := by
  unfold follow at htied ⊢
  split
  · next t hold =>
    rw [hold] at htied
    apply notes_placeMatched
    apply htied
    dsimp only
    rw [matching_placeMatched hold]
    exact hold
  · next hold =>
    rw [hold] at htied
    dsimp only at htied
    unfold carryUnmatched at htied ⊢
    split
    · exact .of_eq rfl
    · next ps hps =>
      rw [hps] at htied
      dsimp only at htied
      split
      · exact .of_eq rfl
      · next hdropped =>
        rw [if_neg hdropped] at htied
        split
        · next hmark =>
          rw [if_pos hmark] at htied
          split
          · exact .of_eq rfl
          · next tp habove =>
            rw [habove] at htied
            apply notes_carryInsertion
            apply htied
            have hlink : (m.carryInsertion s tp).matching = m.matching.link s m.target.size := rfl
            dsimp only
            rw [hlink, Matching.old?_link, if_pos rfl]
        · exact notes_dropDeleted m s hdel

theorem notes_mergeField (contested : String → Bool) (m : Merge) (e : String × Update)
    (ht : ¬ gone t ∧ P t) : Notes gone P m (mergeField contested t m e) := by
  have hset {m' : Merge} {st : MergeState} (h : m'.states = m.states) (hst : ¬ st.OfRemoval) :
      Notes gone P m (m'.setState t st) := (Notes.of_eq h).keep hst ht
  unfold mergeField
  dsimp only
  split
  · exact .of_eq rfl
  · split
    · exact (hset rfl (by simp [MergeState.OfRemoval])).rest rfl
    · exact hset rfl (by simp [MergeState.OfRemoval])

theorem notes_mergeContent (m : Merge)
    (htied : ∀ s t, m.matching.old? s = some t → ¬ gone t ∧ P t) :
    Notes gone P m m.mergeContent := by
  refine List.foldlRecOn _ _ (.of_eq rfl) fun m' h p hp ↦ h.trans ?_
  obtain ⟨s, -, hs⟩ := List.mem_filterMap.1 hp
  obtain ⟨t, hst, rfl⟩ := Option.map_eq_some_iff.1 hs
  exact List.foldlRecOn _ _ (.of_eq rfl) fun m'' h' e _ ↦
    h'.trans (notes_mergeField _ m'' e (htied s t hst))

theorem states_struck (m : Merge) (t : NodeId) : (m.struck t).states = m.states :=
  List.foldlRecOn _ _ (motive := fun m' : Merge ↦ m'.states = m.states) rfl fun _ h _ _ ↦ h

theorem notes_remove (m : Merge) (p : NodeId) (ht : gone t ∧ P t) :
    Notes gone P m (m.remove t p) := by
  have hcondemned : Notes gone P m (m.condemned t) := by
    unfold condemned
    dsimp only
    split
    · exact .remove (.of_eq rfl) (.inr rfl) ht
    · exact .remove (.of_eq rfl) (.inl rfl) ht
  apply hcondemned.rest
  have hstruck := states_struck (m.condemned t) t
  rw [remove_eq]
  generalize (m.condemned t).struck t = v at hstruck
  exact hstruck

theorem notes_mergeDeletions (m : Merge) (hdoomed : ∀ t ∈ m.doomed, gone t ∧ P t) :
    Notes gone P m m.mergeDeletions := by
  rw [mergeDeletions_eq]
  refine List.foldlRecOn _ _ (.of_eq rfl) fun m' h t ht ↦ h.trans ?_
  rw [prune]
  split
  · split
    · exact notes_remove m' _ (hdoomed t ht)
    · exact .of_eq rfl
  · exact .of_eq rfl

theorem not_ofRemoval_finalState (m : Merge) (t : NodeId) : ¬ (m.finalState t).OfRemoval := by
  unfold finalState
  split
  · simp [MergeState.OfRemoval]
  · simp [MergeState.OfRemoval]
  · simp [MergeState.OfRemoval]
  · split
    · simp [MergeState.OfRemoval]
    · simp [MergeState.OfRemoval]

theorem notes_finish (m : Merge) (hlive : ∀ t ∈ m.target.live, ¬ gone t ∧ P t) :
    ∃ m', Notes gone P m m' ∧
      ∀ x : NodeId, m.finish.states[x]? = (m'.states[x]?).map MergeState.settled := by
  refine ⟨m.target.live.foldl (fun m t ↦ m.setState t (m.finalState t)) m, ?_, fun x ↦ ?_⟩
  · refine List.foldlRecOn _ _ (.of_eq rfl) fun m' h t ht ↦ h.trans ?_
    exact .keep (.of_eq rfl) (not_ofRemoval_finalState m' t) (hlive t ht)
  · rw [finish]
    exact Std.TreeMap.getElem?_map

def Detached (u : Tree) (x : NodeId) : Prop := x < u.size ∧ x ∉ u.live

def Gone (start : Merge) (x : NodeId) : Prop :=
  Detached start.target x ∨ x ∈ start.mergePlacement.mergeContent.doomed

/-- A node had a state when the removals began, and it goes along with a node above it. -/
def TakenAlong (m : Merge) (x : NodeId) : Prop :=
  (∃ st, m.states[x]? = some st) ∧ x ∈ m.target.live ∧
    ∃ d ∈ m.doomed, d ≠ x ∧ m.target.Above d x

/-- The states in the outcome `r` of a merge that was `m` when its removals began. A node that was
taken along keeps its state. All other nodes that have states are live, or they are deleted. -/
structure Told (m : Merge) (r : MergeResult) : Prop where
  settled : ∀ (x : NodeId) (st : MergeState), r.states[x]? = some st → st.isConflict = false
  deleted : ∀ (x : NodeId) (st : MergeState), r.states[x]? = some st →
    (st = .deleted ↔ x ∉ r.tree.live ∧ ¬ TakenAlong m x)
  along : ∀ x, TakenAlong m x → x ∉ r.tree.live ∧ ∃ st, m.states[x]? = some st ∧
    ¬ st.OfRemoval ∧ r.states[x]? = some st.settled

theorem mem_deletedInTarget {u : Tree} {e : Nat × NodeId} (w : u.WellFormed)
    (he : e ∈ deletedInTarget u) : Detached u e.2 := by
  rw [deletedInTarget, List.mem_reverse, List.mem_filterMap] at he
  obtain ⟨x, hx, hxe⟩ := he
  split at hxe
  · next hdel =>
    obtain ⟨b, -, rfl⟩ := Option.map_eq_some_iff.1 hxe
    rw [Bool.and_eq_true, Bool.not_eq_true'] at hdel
    refine ⟨List.mem_range.1 hx, fun hl ↦ ?_⟩
    rw [w.isAttached_iff.2 (w.mem_live.1 hl)] at hdel
    cases hdel.1
  · cases hxe

namespace Ready

variable (h : Ready n up start)
include h

theorem not_gone_of_tied (hp : Placed n up start seen m) (hst : m.matching.old? s = some t) :
    ¬ Gone start t := by
  obtain ⟨hs, ht⟩ := hp.aligned.live s t hst
  rintro (⟨hlt, hnot⟩ | hdoomed)
  · exact hnot ((hp.live t hlt).1 ht)
  · obtain ⟨-, -, htn, hts⟩ := h.mem_doomed.1 hdoomed
    have hsn : s < n := by
      by_contra hle
      have hnt := hp.aligned.le_of_le h.source hp.branch hst (Nat.le_of_not_lt hle)
      exact Nat.not_le_of_lt htn hnt
    have heq := hp.aligned.eq_of_lt h.source hp.branch hst hsn
    rw [heq] at hts
    exact hts hs

theorem not_gone_of_live (hx : x ∈ start.run.tree.live) : ¬ Gone start x := by
  obtain ⟨hl, hrest⟩ := h.mem_live_run.1 hx
  rintro (⟨hlt, hnot⟩ | hdoomed)
  · exact hnot ((h.placed.live x hlt).1 hl)
  · exact hrest x hdoomed .refl

theorem notes_placement :
    Notes (Gone start)
      (fun x ↦ Detached start.target x ∨ ∃ s, start.mergePlacement.matching.old? s = some x)
      start start.mergePlacement := by
  refine h.placement_induction (P := fun _ m ↦ Notes (Gone start)
    (fun x ↦ Detached start.target x ∨ ∃ s, m.matching.old? s = some x) start m) (.of_eq rfl) ?_
  intro pre s m hp hs ih
  have hturn := turned_follow (deletedInTarget start.target) m s
  have hr := hp.reshaped h.source hs.live hs.ne_root hturn
  have hp' := hp.turn h.source hs.live hs.ne_root hs.unseen hturn
  have hbefore := ih.mono (Q := fun x ↦ Detached start.target x ∨
    ∃ s', (follow (deletedInTarget start.target) m s).matching.old? s' = some x) fun x hx ↦
      hx.imp_right fun ⟨s', hs'⟩ ↦ ⟨s', hp.old?_of_reshaped hr hs'⟩
  apply hbefore.trans
  apply notes_follow
  · intro e he
    have hd := mem_deletedInTarget h.target.wellFormed he
    exact ⟨.inl hd, .inl hd⟩
  · intro t hst
    exact ⟨h.not_gone_of_tied hp' hst, .inr ⟨s, hst⟩⟩

theorem notes_content :
    Notes (Gone start)
      (fun x ↦ Detached start.target x ∨ ∃ s, start.mergePlacement.matching.old? s = some x)
      start start.mergePlacement.mergeContent := by
  apply h.notes_placement.trans
  apply notes_mergeContent
  intro s t hst
  exact ⟨h.not_gone_of_tied h.placed hst, .inr ⟨s, hst⟩⟩

theorem notes_run : ∃ m, Notes (Gone start)
      (fun x ↦ x ∈ start.mergePlacement.mergeContent.doomed ∨ x ∈ start.run.tree.live)
      start.mergePlacement.mergeContent m ∧
    ∀ x : NodeId, start.run.states[x]? = (m.states[x]?).map MergeState.settled := by
  have hlive : ∀ t ∈ start.mergePlacement.mergeContent.mergeDeletions.target.live,
      ¬ Gone start t ∧
        (t ∈ start.mergePlacement.mergeContent.doomed ∨ t ∈ start.run.tree.live) := by
    intro t ht
    rw [← (alike_run start).toSameShape.live] at ht
    exact ⟨h.not_gone_of_live ht, .inr ht⟩
  obtain ⟨m, hm, hstates⟩ := notes_finish _ hlive
  refine ⟨m, ?_, hstates⟩
  apply Notes.trans _ hm
  apply notes_mergeDeletions
  intro t ht
  exact ⟨.inr ht, .inl ht⟩

theorem not_live_of_takenAlong (ht : TakenAlong start.mergePlacement.mergeContent x) :
    x ∉ start.run.tree.live := by
  obtain ⟨-, -, d, hd, -, hdx⟩ := ht
  intro hl
  have hfree := (h.mem_live_run.1 hl).2 d hd
  exact hfree ((Reworded.mergeContent start.mergePlacement).target.shape.above.1 hdx)

section Told

variable (hnone : ∀ x : NodeId, start.states[x]? = none)
include hnone

theorem detached_or_tied (hx : start.mergePlacement.mergeContent.states[x]? = some st) :
    Detached start.target x ∨ ∃ s, start.mergePlacement.matching.old? s = some x := by
  by_contra hno
  rw [h.notes_content.same x hno, hnone] at hx
  cases hx

theorem not_gone_of_takenAlong (ht : TakenAlong start.mergePlacement.mergeContent x) :
    ¬ Gone start x := by
  obtain ⟨⟨st, hst⟩, hl, -⟩ := ht
  rw [(Reworded.mergeContent start.mergePlacement).target.shape.live] at hl
  rcases h.detached_or_tied hnone hst with hd | ⟨s, hs⟩
  · exact absurd ((h.placed.live x hd.1).1 hl) hd.2
  · exact h.not_gone_of_tied h.placed hs

theorem takenAlong (hx : start.mergePlacement.mergeContent.states[x]? = some st)
    (hg : ¬ Gone start x) (hl : x ∉ start.run.tree.live) :
    TakenAlong start.mergePlacement.mergeContent x := by
  have hw := Reworded.mergeContent start.mergePlacement
  rcases h.detached_or_tied hnone hx with hd | ⟨s, hs⟩
  · exact absurd (.inl hd) hg
  · have hxl := (h.placed.aligned.live s x hs).2
    have hcut : ∃ d ∈ start.mergePlacement.mergeContent.doomed,
        start.mergePlacement.target.Above d x := by
      by_contra hno
      apply hl
      apply h.mem_live_run.2
      exact ⟨hxl, fun d hd hdx ↦ hno ⟨d, hd, hdx⟩⟩
    obtain ⟨d, hd, hdx⟩ := hcut
    refine ⟨⟨st, hx⟩, hw.target.shape.live ▸ hxl, d, hd, ?_, hw.target.shape.above.2 hdx⟩
    intro heq
    rw [heq] at hd
    exact hg (.inr hd)

theorem told : Told start.mergePlacement.mergeContent start.run := by
  obtain ⟨m, hm, hrun⟩ := h.notes_run
  have hsorted : Sorted (Gone start) m := by
    apply hm.sorted
    apply h.notes_content.sorted
    intro x st hx
    rw [hnone] at hx
    cases hx
  -- a node that is not gone but out of sight has kept its note since the contents were merged
  have hlast {x : NodeId} (hg : ¬ Gone start x) (hl : x ∉ start.run.tree.live) :
      m.states[x]? = start.mergePlacement.mergeContent.states[x]? := by
    apply hm.same
    rintro (hd | hl')
    · exact hg (.inr hd)
    · exact hl hl'
  refine ⟨fun x st hx ↦ ?_, fun x st hx ↦ ?_, fun x ht ↦ ?_⟩
  · rw [hrun] at hx
    obtain ⟨st', -, rfl⟩ := Option.map_eq_some_iff.1 hx
    exact st'.isConflict_settled
  · rw [hrun] at hx
    obtain ⟨st', hx', rfl⟩ := Option.map_eq_some_iff.1 hx
    rw [MergeState.settled_eq_deleted, hsorted x st' hx']
    constructor
    · intro hg
      exact ⟨fun hl ↦ h.not_gone_of_live hl hg, fun ht ↦ h.not_gone_of_takenAlong hnone ht hg⟩
    · rintro ⟨hl, hnot⟩
      by_contra hg
      rw [hlast hg hl] at hx'
      exact hnot (h.takenAlong hnone hx' hg hl)
  · have hg := h.not_gone_of_takenAlong hnone ht
    have hl := h.not_live_of_takenAlong ht
    obtain ⟨st, hst⟩ := ht.1
    have hsame := (hlast hg hl).trans hst
    refine ⟨hl, st, hst, fun hrem ↦ hg ((hsorted x st hsame).1 hrem), ?_⟩
    rw [hrun, hsame]
    rfl

end Told

end Ready

/-- The states after a merge. None is a conflict, and a node that has a state is deleted exactly if
it is not live and was not taken along. -/
theorem told_ofTrees (config : Config α) (wo : base.WellFormed) (wa : a.WellFormed)
    (wb : b.WellFormed) :
    ∃ da db r, Diff.deltaTree config base a = .ok da ∧ Diff.deltaTree config base b = .ok db ∧
      ofTrees config base a b = .ok r ∧ Told (beforeRemovals config base da db) r := by
  obtain ⟨da, hda, hA⟩ := branch_deltaTree config wo wa
  obtain ⟨db, hdb, hB⟩ := branch_deltaTree config wo wb
  have h : Ready _ _ (Merge.start config base da db) := ready_start config hA hB
  exact ⟨da, db, ofDeltas config base da db, hda, hdb, ofTrees_eq hda hdb, h.told fun _ ↦ rfl⟩

def textOnCall : Tree :=
  .ofList { label := "description" } [(0, { callTo "y" with text := some "z" })]

theorem states_textOnCall :
    (outcomeOf (Config.standard : Config Rat) (loopOf [callTo "k"] [callTo "y"]) textOnCall
        (loopOf [callTo "k", callTo "y"] [])).states[3]? = some .updated ∧
      3 ∉ (outcomeOf (Config.standard : Config Rat) (loopOf [callTo "k"] [callTo "y"]) textOnCall
        (loopOf [callTo "k", callTo "y"] [])).tree.live := by decide +kernel

/-- Branch A deletes the loop and changes the call after it, which branch B moves into the loop. The
call goes with the loop and ends as updated. -/
theorem not_deleted_textOnCall :
    ∃ r, ofTrees (Config.standard : Config Rat) (loopOf [callTo "k"] [callTo "y"]) textOnCall
        (loopOf [callTo "k", callTo "y"] []) = .ok r ∧
      ∃ (x : NodeId) (st : MergeState), r.states[x]? = some st ∧
        ¬ (st = .deleted ↔ x ∉ r.tree.live) := by
  have wo : (loopOf [callTo "k"] [callTo "y"]).WellFormed := wellFormed_ofList _ _ (by decide)
  have wa : textOnCall.WellFormed := wellFormed_ofList _ _ (by decide)
  have wb : (loopOf [callTo "k", callTo "y"] []).WellFormed := wellFormed_ofList _ _ (by decide)
  obtain ⟨da, hda, -⟩ := branch_deltaTree (Config.standard : Config Rat) wo wa
  obtain ⟨db, hdb, -⟩ := branch_deltaTree (Config.standard : Config Rat) wo wb
  obtain ⟨hstate, hgone⟩ := states_textOnCall
  refine ⟨_, ofTrees_eq_outcomeOf hda hdb, 3, .updated, hstate, fun hiff ↦ ?_⟩
  cases hiff.2 hgone

/-- The call had its state before the loop was taken out. -/
theorem told_ofTrees_textOnCall :
    ∃ da db r, Diff.deltaTree (Config.standard : Config Rat) (loopOf [callTo "k"] [callTo "y"])
        textOnCall = .ok da ∧
      Diff.deltaTree (Config.standard : Config Rat) (loopOf [callTo "k"] [callTo "y"])
        (loopOf [callTo "k", callTo "y"] []) = .ok db ∧
      ofTrees (Config.standard : Config Rat) (loopOf [callTo "k"] [callTo "y"]) textOnCall
        (loopOf [callTo "k", callTo "y"] []) = .ok r ∧
      TakenAlong (beforeRemovals (Config.standard : Config Rat)
        (loopOf [callTo "k"] [callTo "y"]) da db) 3 := by
  have wo : (loopOf [callTo "k"] [callTo "y"]).WellFormed := wellFormed_ofList _ _ (by decide)
  have wa : textOnCall.WellFormed := wellFormed_ofList _ _ (by decide)
  have wb : (loopOf [callTo "k", callTo "y"] []).WellFormed := wellFormed_ofList _ _ (by decide)
  obtain ⟨da, db, r, hda, hdb, hr, h⟩ := told_ofTrees (Config.standard : Config Rat) wo wa wb
  refine ⟨da, db, r, hda, hdb, hr, ?_⟩
  obtain ⟨hstate, hgone⟩ := states_textOnCall
  obtain rfl := Except.ok.inj (hr.symm.trans (ofTrees_eq_outcomeOf hda hdb))
  by_contra hnot
  cases (h.deleted 3 .updated hstate).2 ⟨hgone, hnot⟩

end Merge

end FlowMerge
