import FlowMerge.Proofs.Lists
import FlowMerge.Proofs.Script.Phases
import FlowMerge.Proofs.Script.Survey

namespace FlowMerge.Script

open FlowMerge.Tree

variable {old new d d' : Tree} {m : Matching} {n o c p x : NodeId}

def home (old : Tree) (m : Matching) (n : NodeId) : NodeId :=
  old.place ((m.old? n).getD Tree.root)

theorem home_eq (hno : m.old? n = some o) : home old m n = old.place o := by
  rw [home, hno]
  rfl

theorem Clean.home_inj (h : Clean old new m) {n' o' : NodeId} (hno : m.old? n = some o)
    (hno' : m.old? n' = some o') (he : home old m n = home old m n') : n = n' := by
  rw [home_eq hno, home_eq hno'] at he
  obtain rfl := place_inj (h.live n o hno).2 he
  exact h.oneToOne.new_inj hno hno'

def leaves (old new : Tree) (m : Matching) (n : NodeId) : Bool :=
  m.hasNew n && !stays old new m n

theorem leaves_eq (hno : m.old? n = some o) : leaves old new m n = !stays old new m n := by
  rw [leaves, Matching.hasNew, hno]
  rfl

theorem moveOf_eq (wo : old.WellFormed) (wn : new.WellFormed) (h : Clean old new m)
    (hno : m.old? n = some o) : moveOf old new m (ordered old new m n) n o =
      if stays old new m n then []
      else [{ kind := .move, old := some (old.path o), new := some (new.path n) }] := by
  rw [moveOf, isMoved_eq wo wn h hno]
  cases stays old new m n with
  | true => rfl
  | false => rfl

theorem aim_path (wo : old.WellFormed) (ho : o ∈ old.live) {c : Change}
    (hc : c.kind.isInsertion = false) (hp : c.old = some (old.path o)) :
    aim (pristine old) c = some (old.place o) := aim_eq (target_of_path wo ho hc hp)

theorem mem_additionsAt (wo : old.WellFormed) (wn : new.WellFormed) (h : Clean old new m)
    (hno : m.old? n = some o) {c : Change} (hc : c ∈ additionsAt old new m n) :
    c.kind.isInsertion = false ∧ c.old = some (old.path o) := by
  simp only [additionsAt, hno, List.mem_append, moveOf_eq wo wn h hno, updateOf] at hc
  rcases hc with hc | hc
  · split at hc
    · cases hc
    · rw [List.mem_singleton.1 hc]
      exact ⟨rfl, rfl⟩
  · split at hc
    · cases hc
    · rw [List.mem_singleton.1 hc]
      exact ⟨rfl, rfl⟩

theorem target_additionsAt (wo : old.WellFormed) (wn : new.WellFormed) (h : Clean old new m)
    {c : Change} (hc : c ∈ additionsAt old new m n) :
    target (pristine old) c = .ok (aim (pristine old) c) := by
  suffices hs : ∃ a, target (pristine old) c = .ok a by
    obtain ⟨a, ha⟩ := hs
    rw [ha, aim_eq ha]
  cases hno : m.old? n with
  | none =>
    simp only [additionsAt, hno] at hc
    refine ⟨none, target_of_insertion ?_⟩
    split at hc <;> rw [List.mem_singleton.1 hc] <;> rfl
  | some o =>
    obtain ⟨hk, hp⟩ := mem_additionsAt wo wn h hno hc
    exact ⟨_, target_of_path wo (h.live n o hno).2 hk hp⟩

theorem targets_additionsAt (wo : old.WellFormed) (wn : new.WellFormed) (h : Clean old new m)
    (n : NodeId) : moveTargets (aimed (pristine old) (additionsAt old new m n)) =
        (if leaves old new m n then [home old m n] else []) ∧
      deletionTargets (aimed (pristine old) (additionsAt old new m n)) = [] ∧
      ∀ x, updatesOf x (aimed (pristine old) (additionsAt old new m n)) =
        if m.hasNew n ∧ home old m n = x then
          (old.content ((m.old? n).getD root)).diffFields (new.content n) else [] := by
  cases hno : m.old? n with
  | none =>
    have hl : leaves old new m n = false := by rw [leaves, Matching.hasNew, hno]; rfl
    have hh : m.hasNew n = false := by rw [Matching.hasNew, hno]; rfl
    rw [additionsAt, hl, hh]
    simp only [hno]
    refine ⟨?_, ?_, fun x ↦ ?_⟩ <;> split <;>
      simp [aimed, moveTargets, deletionTargets, updatesOf, ChangeKind.isDeletion]
  | some o =>
    have ho := (h.live n o hno).2
    have hh : m.hasNew n = true := by rw [Matching.hasNew, hno]; rfl
    have hmove : aim (pristine old)
        { kind := .move, old := some (old.path o), new := some (new.path n) } =
          some (old.place o) := aim_path wo ho rfl rfl
    have hupdate (us : Updates) : aim (pristine old)
        { kind := .update, old := some (old.path o), payload := some (new.nodeCopy n),
          updates := us } = some (old.place o) := aim_path wo ho rfl rfl
    rw [additionsAt, leaves_eq hno, home_eq hno, hh]
    simp only [hno, moveOf_eq wo wn h hno, updateOf, Option.getD_some, true_and]
    generalize hu : (old.content o).diffFields (new.content n) = us
    have hempty : us.isEmpty = true ↔ us = [] := List.isEmpty_iff
    refine ⟨?_, ?_, fun x ↦ ?_⟩ <;> cases stays old new m n <;> by_cases he : us = [] <;>
      simp [aimed, moveTargets, deletionTargets, updatesOf, hmove, hupdate, he,
        ChangeKind.isDeletion]

theorem mem_removalsAt {c : Change} (hc : c ∈ removalsAt old m o) :
    c.kind.isInsertion = false ∧ c.old = some (old.path o) := by
  rw [removalsAt] at hc
  split at hc
  · cases hc
  · split at hc <;> rw [List.mem_singleton.1 hc] <;> exact ⟨rfl, rfl⟩

theorem targets_removalsAt (wo : old.WellFormed) (m : Matching) (ho : o ∈ old.live) :
    moveTargets (aimed (pristine old) (removalsAt old m o)) = [] ∧
      deletionTargets (aimed (pristine old) (removalsAt old m o)) =
        (if !m.hasOld o then [old.place o] else []) ∧
      ∀ x, updatesOf x (aimed (pristine old) (removalsAt old m o)) = [] := by
  have hwhole : aim (pristine old) { kind := .subtreeDeletion, old := some (old.path o) } =
      some (old.place o) := aim_path wo ho rfl rfl
  have hsingle : aim (pristine old) { kind := .deletion, old := some (old.path o) } =
      some (old.place o) := aim_path wo ho rfl rfl
  rw [removalsAt]
  refine ⟨?_, ?_, fun x ↦ ?_⟩ <;> cases m.hasOld o <;> cases wholeOld old m o <;>
    simp [aimed, moveTargets, deletionTargets, updatesOf, hwhole, hsingle, ChangeKind.isDeletion]

def stepsOf (old new : Tree) (m : Matching) : List Step :=
  aimed (pristine old) (ofMatching old new m)

theorem stepsOf_eq (wn : new.WellFormed) : stepsOf old new m =
    (new.pruned (wholeNew new m)).flatMap
        (fun n ↦ aimed (pristine old) (additionsAt old new m n)) ++
      (old.pruned (wholeOld old m)).flatMap
        (fun o ↦ aimed (pristine old) (removalsAt old m o)) := by
  rw [stepsOf, ofMatching_eq wn, aimed, List.map_append, List.map_flatMap, List.map_flatMap]
  rfl

theorem target_ofMatching (wo : old.WellFormed) (wn : new.WellFormed) (h : Clean old new m)
    {c : Change} (hc : c ∈ ofMatching old new m) :
    target (pristine old) c = .ok (aim (pristine old) c) := by
  rw [ofMatching_eq wn, List.mem_append, List.mem_flatMap, List.mem_flatMap] at hc
  rcases hc with ⟨n, -, hc⟩ | ⟨o, ho, hc⟩
  · exact target_additionsAt wo wn h hc
  · obtain ⟨hk, hp⟩ := mem_removalsAt hc
    have hol := (old.pruned_sublist _).subset ho
    rw [target_of_path wo hol hk hp, aim_path wo hol hk hp]

theorem moveTargets_stepsOf (wo : old.WellFormed) (wn : new.WellFormed) (h : Clean old new m) :
    moveTargets (stepsOf old new m) =
      ((new.pruned (wholeNew new m)).filter (leaves old new m)).map (home old m) := by
  rw [stepsOf_eq wn, moveTargets, List.filterMap_append, List.filterMap_flatMap,
    List.filterMap_flatMap, ← flatMap_if_singleton]
  have hnone : ((old.pruned (wholeOld old m)).flatMap fun o ↦
      moveTargets (aimed (pristine old) (removalsAt old m o))) = [] :=
    List.flatMap_eq_nil_iff.2 fun o ho ↦
      (targets_removalsAt wo m ((old.pruned_sublist _).subset ho)).1
  refine (congrArg _ hnone).trans ((List.append_nil _).trans ?_)
  exact List.flatMap_congr fun n _ ↦ (targets_additionsAt wo wn h n).1

theorem deletionTargets_stepsOf (wo : old.WellFormed) (wn : new.WellFormed)
    (h : Clean old new m) : deletionTargets (stepsOf old new m) =
      ((old.pruned (wholeOld old m)).filter fun o ↦ !m.hasOld o).map old.place := by
  rw [stepsOf_eq wn, deletionTargets, List.filterMap_append, List.filterMap_flatMap,
    List.filterMap_flatMap, ← flatMap_if_singleton]
  have hnone : ((new.pruned (wholeNew new m)).flatMap fun n ↦
      deletionTargets (aimed (pristine old) (additionsAt old new m n))) = [] :=
    List.flatMap_eq_nil_iff.2 fun n _ ↦ (targets_additionsAt wo wn h n).2.1
  refine (congrArg (· ++ _) hnone).trans ((List.nil_append _).trans ?_)
  exact List.flatMap_congr fun o ho ↦
    (targets_removalsAt wo m ((old.pruned_sublist _).subset ho)).2.1

theorem updatesOf_stepsOf (wo : old.WellFormed) (wn : new.WellFormed) (h : Clean old new m)
    (hno : m.old? n = some o) : updatesOf (old.place o) (stepsOf old new m) =
      (old.content o).diffFields (new.content n) := by
  have hn := h.mem_pruned_new wn hno
  have hnone : ((old.pruned (wholeOld old m)).flatMap fun o' ↦
      updatesOf (old.place o) (aimed (pristine old) (removalsAt old m o'))) = [] :=
    List.flatMap_eq_nil_iff.2 fun o' ho' ↦
      (targets_removalsAt wo m ((old.pruned_sublist _).subset ho')).2.2 _
  have hat := (targets_additionsAt wo wn h n).2.2 (old.place o)
  rw [if_pos ⟨by rw [Matching.hasNew, hno]; rfl, home_eq hno⟩, hno] at hat
  rw [stepsOf_eq wn, updatesOf, List.flatMap_append, List.flatMap_assoc, List.flatMap_assoc]
  refine (congrArg _ hnone).trans ((List.append_nil _).trans ?_)
  refine (flatMap_eq_of_unique hn (wn.nodup_pruned _) fun n' _ hne ↦ ?_).trans hat
  refine ((targets_additionsAt wo wn h n').2.2 _).trans (if_neg ?_)
  rintro ⟨hnew, he⟩
  obtain ⟨o', ho'⟩ := Option.isSome_iff_exists.1 hnew
  exact hne (h.home_inj ho' hno (he.trans (home_eq hno).symm))

theorem mem_moveTargets (wo : old.WellFormed) (wn : new.WellFormed) (h : Clean old new m) :
    x ∈ moveTargets (stepsOf old new m) ↔
      ∃ n o, m.old? n = some o ∧ stays old new m n = false ∧ x = old.place o := by
  rw [moveTargets_stepsOf wo wn h, List.mem_map]
  constructor
  · rintro ⟨n, hn, rfl⟩
    have hl := (List.mem_filter.1 hn).2
    rw [leaves, Bool.and_eq_true, Bool.not_eq_true'] at hl
    obtain ⟨o, hno⟩ := Option.isSome_iff_exists.1 hl.1
    exact ⟨n, o, hno, hl.2, home_eq hno⟩
  · rintro ⟨n, o, hno, hs, rfl⟩
    refine ⟨n, List.mem_filter.2 ⟨h.mem_pruned_new wn hno, ?_⟩, home_eq hno⟩
    rw [leaves_eq hno, hs]
    rfl

theorem mem_deletionTargets (wo : old.WellFormed) (wn : new.WellFormed) (h : Clean old new m) :
    x ∈ deletionTargets (stepsOf old new m) ↔
      ∃ o ∈ old.pruned (wholeOld old m), m.hasOld o = false ∧ x = old.place o := by
  rw [deletionTargets_stepsOf wo wn h, List.mem_map]
  constructor
  · rintro ⟨o, ho, rfl⟩
    obtain ⟨ho, hm⟩ := List.mem_filter.1 ho
    exact ⟨o, ho, by simpa using hm, rfl⟩
  · rintro ⟨o, ho, hm, rfl⟩
    exact ⟨o, List.mem_filter.2 ⟨ho, by simpa using hm⟩, rfl⟩

theorem nodup_moveTargets (wo : old.WellFormed) (wn : new.WellFormed) (h : Clean old new m) :
    (moveTargets (stepsOf old new m)).Nodup := by
  rw [moveTargets_stepsOf wo wn h]
  refine List.Nodup.map_on (fun n hn n' hn' he ↦ ?_) ((wn.nodup_pruned _).filter _)
  have hl := (List.mem_filter.1 hn).2
  have hl' := (List.mem_filter.1 hn').2
  rw [leaves, Bool.and_eq_true] at hl hl'
  obtain ⟨o, hno⟩ := Option.isSome_iff_exists.1 hl.1
  obtain ⟨o', hno'⟩ := Option.isSome_iff_exists.1 hl'.1
  exact h.home_inj hno hno' he

theorem nodup_deletionTargets (wo : old.WellFormed) (wn : new.WellFormed)
    (h : Clean old new m) : (deletionTargets (stepsOf old new m)).Nodup := by
  rw [deletionTargets_stepsOf wo wn h]
  refine List.Nodup.map_on (fun o ho o' _ he ↦ ?_) ((wo.nodup_pruned _).filter _)
  exact place_inj ((old.pruned_sublist _).subset (List.mem_filter.1 ho).1) he

theorem not_mem_moveTargets (wo : old.WellFormed) (wn : new.WellFormed) (h : Clean old new m)
    (hno : m.old? n = some o) (hs : stays old new m n = true) :
    old.place o ∉ moveTargets (stepsOf old new m) := by
  rw [mem_moveTargets wo wn h]
  rintro ⟨n', o', hno', hs', he⟩
  obtain rfl := place_inj (h.live n o hno).2 he
  obtain rfl := h.oneToOne.new_inj hno hno'
  rw [hs] at hs'
  cases hs'

theorem not_mem_deletionTargets (wo : old.WellFormed) (wn : new.WellFormed)
    (h : Clean old new m) (hno : m.old? n = some o) :
    old.place o ∉ deletionTargets (stepsOf old new m) := by
  rw [mem_deletionTargets wo wn h]
  rintro ⟨o', -, hm, he⟩
  obtain rfl := place_inj (h.live n o hno).2 he
  exact Bool.eq_false_iff.1 hm (h.hasOld_iff.2 ⟨n, hno⟩)

theorem inOrder_counterparts (wo : old.WellFormed) (wn : new.WellFormed) (h : Clean old new m)
    (hno : m.old? n = some o) : ∃ os : List NodeId, os.Sublist (old.children o) ∧
      (inOrder old new m n).map (home old m) = os.map old.place ∧
      ∀ oc ∈ old.children o, oc ∈ os ↔ ∃ c, m.old? c = some oc ∧ stays old new m c = true := by
  obtain ⟨hsub, os, hos, hmap⟩ := @inOrder_spec old new m n o hno
  refine ⟨os, hos, ?_, fun oc hoc ↦ ⟨fun hmem ↦ ?_, ?_⟩⟩
  · have hm : (inOrder old new m n).map (home old m) =
        ((inOrder old new m n).map m.old?).map fun a ↦ old.place (a.getD root) := by
      rw [List.map_map]
      rfl
    rw [hm, hmap, List.map_map]
    rfl
  · have hm : some oc ∈ (inOrder old new m n).map m.old? := hmap ▸ List.mem_map_of_mem hmem
    obtain ⟨c, hc, hcoc⟩ := List.mem_map.1 hm
    exact ⟨c, hcoc, (stays_iff (wn.mem_children.1 (hsub.subset hc))).2 hc⟩
  · rintro ⟨c, hc, hs⟩
    have hpar := wo.mem_children.1 hoc
    have hcr : c ≠ root := fun hr ↦ wo.child_ne_root hpar ((h.root_iff hc).1 hr)
    obtain ⟨p, hp, -⟩ := wn.exists_parent_of_live (h.live c oc hc).1 hcr
    obtain ⟨po, hpo, hpar'⟩ := parents_of_stays wo hs hc hp
    obtain rfl := Option.some_inj.1 (hpar.symm.trans hpar')
    obtain rfl := h.oneToOne.new_inj hno hpo
    have hm : m.old? c ∈ os.map some := hmap ▸ List.mem_map_of_mem ((stays_iff hp).1 hs)
    rw [hc] at hm
    obtain ⟨oc', hoc', he⟩ := List.mem_map.1 hm
    exact Option.some_inj.1 he ▸ hoc'

theorem filter_targets (wo : old.WellFormed) (wn : new.WellFormed) (h : Clean old new m)
    (hno : m.old? n = some o) :
    ((old.children o).map old.place).filter (fun x ↦ !(moveTargets (stepsOf old new m) ++
      deletionTargets (stepsOf old new m)).contains x) =
        (inOrder old new m n).map (home old m) := by
  obtain ⟨os, hos, hhome, hstay⟩ := inOrder_counterparts wo wn h hno
  have hkeep : ∀ oc ∈ old.children o, (!(moveTargets (stepsOf old new m) ++
      deletionTargets (stepsOf old new m)).contains (old.place oc)) = os.contains oc := by
    intro oc hoc
    have hpar := wo.mem_children.1 hoc
    rw [Bool.eq_iff_iff, Bool.not_eq_true', Bool.eq_false_iff, ne_eq, List.contains_iff_mem,
      List.contains_iff_mem, List.mem_append, not_or, hstay oc hoc]
    constructor
    · rintro ⟨hmove, hdelete⟩
      have hmem : m.hasOld oc = true := by
        by_contra hm
        exact hdelete ((mem_deletionTargets wo wn h).2
          ⟨oc, h.mem_pruned_old wo hno hpar, Bool.eq_false_iff.2 hm, rfl⟩)
      obtain ⟨c, hc⟩ := h.hasOld_iff.1 hmem
      refine ⟨c, hc, ?_⟩
      by_contra hs
      exact hmove ((mem_moveTargets wo wn h).2 ⟨c, oc, hc, Bool.eq_false_iff.2 hs, rfl⟩)
    · rintro ⟨c, hc, hs⟩
      exact ⟨not_mem_moveTargets wo wn h hc hs, not_mem_deletionTargets wo wn h hc⟩
  rw [List.filter_map, hhome]
  refine congrArg _ ((List.filter_congr hkeep).trans ?_)
  exact Sequence.filter_contains_of_sublist hos (wo.nodup_children o)

/-- What holds of the tree when new places are about to be filled. -/
structure Ground (old new : Tree) (m : Matching) (d : Tree) : Prop where
  wellFormed : d.WellFormed
  size_le : old.live.length ≤ d.size
  content : old.Unambiguous → new.Unambiguous → ∀ n o, m.old? n = some o →
    (d.content (old.place o) == new.content n) = true
  children : ∀ n o, m.old? n = some o →
    d.children (old.place o) = (inOrder old new m n).map (home old m)
  top : ∀ n o, m.old? n = some o → stays old new m n = false → d.parent? (old.place o) = none
  notes : ∀ x < old.live.length, ∃ us, d.notes x = some (some x, us)
  records : old.Unambiguous → new.Unambiguous → ∀ n o us b, m.old? n = some o →
    d.notes (old.place o) = some (b, us) →
      us.Records (old.content o) (d.content (old.place o))
  fresh : ∀ x, old.live.length ≤ x → (d.notes x).bind Prod.fst = none
  mark : ∀ n o us b, m.old? n = some o → d.notes (old.place o) = some (b, us) →
    d.mark (old.place o) = if stays old new m n then
      (if us.isEmpty then .unchanged else .updated) else .movedHere

theorem updates_label (wo : old.WellFormed) (wn : new.WellFormed) (h : Clean old new m)
    (uo : old.Unambiguous) (un : new.Unambiguous) :
    ∀ s ∈ stepsOf old new m, ∀ e ∈ s.1.updates, e.1 = Content.labelKey → e.2.new ≠ none := by
  intro s hs e he hk
  obtain ⟨c, hc, rfl⟩ := List.mem_map.1 hs
  rw [ofMatching_eq wn, List.mem_append, List.mem_flatMap, List.mem_flatMap] at hc
  rcases hc with ⟨n, -, hc⟩ | ⟨o, -, hc⟩
  · cases hno : m.old? n with
    | none =>
      simp only [additionsAt, hno] at hc
      split at hc <;> rw [List.mem_singleton.1 hc] at he <;> cases he
    | some o =>
      simp only [additionsAt, hno, List.mem_append, moveOf_eq wo wn h hno, updateOf] at hc
      rcases hc with hc | hc
      · split at hc
        · cases hc
        · rw [List.mem_singleton.1 hc] at he
          cases he
      · split at hc
        · cases hc
        · rw [List.mem_singleton.1 hc] at he
          obtain ⟨hnl, hol⟩ := h.live n o hno
          have hrec := Content.records_diffFields (uo o hol) (un n hnl)
          rw [((hrec e.1 e.2).1 he).1, hk, Content.field_labelKey, Content.field_labelKey]
          exact Option.some_ne_none _
  · rw [removalsAt] at hc
    split at hc
    · cases hc
    · split at hc <;> rw [List.mem_singleton.1 hc] at he <;> cases he

theorem revised_stepsOf (wo : old.WellFormed) (wn : new.WellFormed) (h : Clean old new m) :
    Revised (old.Unambiguous ∧ new.Unambiguous) (pristine old)
        ((stepsOf old new m).foldl applyUpdate (pristine old)) ∧
      (old.Unambiguous → new.Unambiguous → ∀ n o, m.old? n = some o →
        (((stepsOf old new m).foldl applyUpdate (pristine old)).content (old.place o) ==
          new.content n) = true) := by
  refine ⟨revised_foldl _ _ fun hu ↦ updates_label wo wn h hu.1 hu.2, fun uo un n o hno ↦ ?_⟩
  obtain ⟨hnl, hol⟩ := h.live n o hno
  rw [content_foldl_applyUpdate _ _ (by rw [size_pristine wo]; exact place_lt hol),
    updatesOf_stepsOf wo wn h hno, content_pristine wo hol]
  exact Content.same_of_records ((uo o hol).comparable (un n hnl))
    (Content.records_diffFields (uo o hol) (un n hnl))

theorem pristine_settled (w : old.WellFormed) (hx : x < old.live.length) :
    ∃ y, (pristine old).delta? x = some y ∧ y.base = some x ∧ y.Settled ∧ y.updates = [] := by
  obtain ⟨i, hi⟩ := (pristine_spec w).2.2 x hx
  exact ⟨_, hi, rfl, rfl, rfl⟩

theorem above_matched (wo : old.WellFormed) (wn : new.WellFormed) (h : Clean old new m)
    (hd : ∀ x p, d.parent? x = some p → x ∉ moveTargets (stepsOf old new m) ∧
      (pristine old).parent? x = some p) {a : NodeId} (hno : m.old? n = some o)
    (ha : d.Above a (old.place o)) : ∃ n' o', m.old? n' = some o' ∧ a = old.place o' := by
  generalize hx : old.place o = x at ha
  induction ha using Relation.ReflTransGen.head_induction_on with
  | refl => exact ⟨n, o, hno, hx.symm⟩
  | @head a p hap _ ih =>
    obtain ⟨n', o', hno', rfl⟩ := ih
    obtain ⟨hmove, hp⟩ := hd _ _ hap
    have ho' := (h.live n' o' hno').2
    rw [parent?_pristine wo ho', Option.map_eq_some_iff] at hp
    obtain ⟨q, hq, rfl⟩ := hp
    have hs : stays old new m n' = true := by
      by_contra hs
      exact hmove ((mem_moveTargets wo wn h).2 ⟨n', o', hno', Bool.eq_false_iff.2 hs, rfl⟩)
    have hr : n' ≠ root := fun hr ↦ wo.child_ne_root hq ((h.root_iff hno').1 hr)
    obtain ⟨pn, hpn, -⟩ := wn.exists_parent_of_live (h.live n' o' hno').1 hr
    obtain ⟨po, hpo, hpar⟩ := parents_of_stays wo hs hno' hpn
    obtain rfl := Option.some_inj.1 (hq.symm.trans hpar)
    exact ⟨pn, q, hpo, rfl⟩

theorem not_above_deletionTargets (wo : old.WellFormed) (wn : new.WellFormed)
    (h : Clean old new m)
    (hd : ∀ x p, d.parent? x = some p → x ∉ moveTargets (stepsOf old new m) ∧
      (pristine old).parent? x = some p) (hno : m.old? n = some o) :
    ∀ i ∈ deletionTargets (stepsOf old new m), ¬ d.Above i (old.place o) := by
  intro i hi ha
  obtain ⟨n', o', hno', rfl⟩ := above_matched wo wn h hd hno ha
  exact not_mem_deletionTargets wo wn h hno' hi

theorem parent?_ne_none (wo : old.WellFormed) (hs : SameShape d (pristine old))
    (ho : o ∈ old.live) (hr : o ≠ root) : d.parent? (old.place o) ≠ none := by
  obtain ⟨p, hp, -⟩ := wo.exists_parent_of_live ho hr
  rw [hs.parent?, parent?_pristine wo ho, hp]
  exact nofun

theorem moves_stepsOf (wo : old.WellFormed) (wn : new.WellFormed) (h : Clean old new m)
    (hs : SameShape d (pristine old)) :
    ∃ d' k, (stepsOf old new m).foldlM applyMove (d, 0) = .ok (d', k) ∧
      Removed (moveTargets (stepsOf old new m)) d d' ∧
      Marked (moveTargets (stepsOf old new m)) d d' := by
  refine moves_ok (stepsOf old new m) d 0 (hs.wellFormed (wellFormed_pristine wo))
    (nodup_moveTargets wo wn h) fun x hx ↦ ?_
  obtain ⟨n, o, hno, hst, rfl⟩ := (mem_moveTargets wo wn h).1 hx
  refine parent?_ne_none wo hs (h.live n o hno).2 fun hr ↦ ?_
  rw [(h.root_iff hno).2 hr, stays_root wn] at hst
  cases hst

/-- After the moves the deletions succeed, since what they delete is unmatched and did not
move. -/
theorem deletions_stepsOf (wo : old.WellFormed) (wn : new.WellFormed) (h : Clean old new m)
    (hs : SameShape d (pristine old)) (hrem : Removed (moveTargets (stepsOf old new m)) d d') :
    ∃ d'', (stepsOf old new m).foldlM applyDeletion d' = .ok d'' ∧
      Removed (deletionTargets (stepsOf old new m)) d' d'' := by
  refine deletions_ok (stepsOf old new m) d' hrem.wellFormed (nodup_deletionTargets wo wn h)
    fun x hx ↦ ?_
  obtain ⟨o, ho, hm, rfl⟩ := (mem_deletionTargets wo wn h).1 hx
  have hol := (old.pruned_sublist _).subset ho
  have hunmatched (n : NodeId) (hno : m.old? n = some o) : False :=
    Bool.eq_false_iff.1 hm (h.hasOld_iff.2 ⟨n, hno⟩)
  have hstill : old.place o ∉ moveTargets (stepsOf old new m) := by
    rw [mem_moveTargets wo wn h]
    rintro ⟨n', o', hno', -, he⟩
    obtain rfl := place_inj hol he
    exact hunmatched n' hno'
  rw [hrem.parent?, if_neg hstill]
  exact parent?_ne_none wo hs hol fun hr ↦ hunmatched root (hr ▸ h.roots)

theorem ground_of_removed (wo : old.WellFormed) (wn : new.WellFormed) (h : Clean old new m)
    (hrev : Revised (old.Unambiguous ∧ new.Unambiguous) (pristine old) d)
    (hcontent : old.Unambiguous → new.Unambiguous → ∀ n o, m.old? n = some o →
      (d.content (old.place o) == new.content n) = true)
    (hall : Removed (moveTargets (stepsOf old new m) ++ deletionTargets (stepsOf old new m)) d d')
    (hmark : ∀ n o, m.old? n = some o → d'.mark (old.place o) =
      if stays old new m n then d.mark (old.place o) else .movedHere) :
    Ground old new m d' := by
  have hsize : d.size = old.live.length := by rw [hrev.shape.size, size_pristine wo]
  have hlt {n o : NodeId} (hno : m.old? n = some o) : old.place o < d.size := by
    rw [hsize]
    exact place_lt (h.live n o hno).2
  exact {
    wellFormed := hall.wellFormed
    size_le := hsize ▸ hall.size_le
    content uo un n o hno := by
      rw [hall.content _ (hlt hno)]
      exact hcontent uo un n o hno
    children n o hno := by
      rw [hall.children, hrev.shape.children, children_pristine wo (h.live n o hno).2]
      exact filter_targets wo wn h hno
    top n o hno hs := by
      rw [hall.parent?, if_pos]
      exact List.mem_append_left _ ((mem_moveTargets wo wn h).2 ⟨n, o, hno, hs, rfl⟩)
    notes x hx := by
      obtain ⟨y, hy, hbase, hys, -⟩ := pristine_settled wo hx
      obtain ⟨z, hz, hzb, -, -⟩ := hrev.delta x y hy hys
      refine ⟨z.updates, ?_⟩
      rw [hall.notes x (hsize ▸ hx), notes_of_delta? hz, hzb, hbase]
    records uo un n o us b hno hus := by
      obtain ⟨y, hy, -, hys, hnil⟩ := pristine_settled wo (place_lt (h.live n o hno).2)
      obtain ⟨z, hz, -, -, hrec⟩ := hrev.delta _ y hy hys
      rw [hall.notes _ (hlt hno), notes_of_delta? hz] at hus
      cases hus
      rw [hall.content _ (hlt hno), ← content_pristine wo (h.live n o hno).2]
      exact hrec ⟨uo, un⟩ _ (hnil ▸ Content.records_nil _)
    fresh x hx := hall.fresh x (hsize ▸ hx)
    mark n o us b hno hus := by
      obtain ⟨y, hy, -, hys, -⟩ := pristine_settled wo (place_lt (h.live n o hno).2)
      obtain ⟨z, hz, -, hzs, -⟩ := hrev.delta _ y hy hys
      rw [hall.notes _ (hlt hno), notes_of_delta? hz] at hus
      cases hus
      rw [hmark n o hno, Tree.mark, hz]
      rw [Delta.Settled, Delta.isUpdate] at hzs
      cases he : z.updates.isEmpty <;> simp [hzs, he] }

/-- The updates, the moves and the deletions of the script of a clean matching succeed, and lay
the ground for the insertions. -/
theorem ground_stepsOf (wo : old.WellFormed) (wn : new.WellFormed) (h : Clean old new m) :
    ∃ d₁ k d₂,
      (stepsOf old new m).foldlM applyMove
        ((stepsOf old new m).foldl applyUpdate (pristine old), 0) = .ok (d₁, k) ∧
      (stepsOf old new m).foldlM applyDeletion d₁ = .ok d₂ ∧ Ground old new m d₂ := by
  obtain ⟨hrev, hcontent⟩ := revised_stepsOf wo wn h
  generalize (stepsOf old new m).foldl applyUpdate (pristine old) = d₀ at hrev hcontent ⊢
  obtain ⟨d₁, k, hmoves, hrem, hmark⟩ := moves_stepsOf wo wn h hrev.shape
  obtain ⟨d₂, hdeletions, hrem'⟩ := deletions_stepsOf wo wn h hrev.shape hrem
  refine ⟨d₁, k, d₂, hmoves, hdeletions,
    ground_of_removed wo wn h hrev hcontent (hrem.trans hrem') fun n o hno ↦ ?_⟩
  have hol := (h.live n o hno).2
  have hlt : old.place o < d₀.size := by
    rw [hrev.shape.size, size_pristine wo]
    exact place_lt hol
  have hparent (x p : NodeId) (hp : d₁.parent? x = some p) :
      x ∉ moveTargets (stepsOf old new m) ∧ (pristine old).parent? x = some p := by
    rw [hrem.parent?] at hp
    split at hp
    · cases hp
    · next hx => exact ⟨hx, (hrev.shape.parent? x).symm.trans hp⟩
  have hsome : (d₀.notes (old.place o)).isSome = true := by
    obtain ⟨y, hy, -, hys, -⟩ := pristine_settled wo (place_lt hol)
    obtain ⟨z, hz, -⟩ := hrev.delta _ y hy hys
    rw [notes_of_delta? hz]
    rfl
  -- a deletion marks what is below it, and nothing that is matched is
  rw [hrem'.mark _ (Nat.lt_of_lt_of_le hlt hrem.size_le)
    (not_above_deletionTargets wo wn h hparent hno), hmark _ hlt]
  cases hs : stays old new m n with
  | false => exact if_pos ⟨(mem_moveTargets wo wn h).2 ⟨n, o, hno, hs, rfl⟩, hsome⟩
  | true => exact if_neg fun hm ↦ not_mem_moveTargets wo wn h hno hs hm.1

end FlowMerge.Script
