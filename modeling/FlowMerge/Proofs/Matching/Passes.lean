import FlowMerge.Config

namespace FlowMerge.Matching

open Score

variable {α : Type} [Score α] {P : Matching → Prop} {m : Matching} {n o : NodeId}
  {old new : Tree} {measure : Comparator α} {threshold : α}

theorem mem_pairs : (n, o) ∈ m.pairs ↔ m.old? n = some o :=
  Std.TreeMap.mem_toList_iff_getElem?_eq_some

theorem mem_foldl_best (cs : List (Candidate α)) (b : Option (Candidate α)) {c : Candidate α}
    (h : cs.foldl (fun b c ↦ match b with
      | none => some c
      | some d => some (if c.better d then c else d)) b = some c) : c ∈ cs ∨ b = some c := by
  induction cs generalizing b with
  | nil => exact .inr h
  | cons x cs ih =>
    rcases ih _ h with hc | hc
    · exact .inl (List.mem_cons_of_mem _ hc)
    · cases b with
      | none => exact .inl (Option.some_inj.1 hc ▸ List.mem_cons_self)
      | some d =>
        have hx := Option.some_inj.1 hc
        split at hx
        · exact .inl (hx ▸ List.mem_cons_self)
        · exact .inr (congrArg some hx)

theorem mem_of_best {cs : List (Candidate α)} {c : Candidate α} (h : best cs = some c) :
    c ∈ cs := (mem_foldl_best cs none h).resolve_right nofun

theorem linkBest_induction {oldOrder newOrder olds : List NodeId} {cost : NodeId → α} (h : P m)
    (hlink : ∀ o ∈ olds, P (m.link n o)) :
    P (linkBest oldOrder newOrder threshold cost olds m n) := by
  unfold linkBest
  dsimp only
  split
  · next c hc =>
    split
    · obtain ⟨o, ho, rfl⟩ := List.mem_map.1 (mem_of_best hc)
      exact hlink o ho
    · exact h
  · exact h

theorem linkLeaves_induction (byLabel : Bool) (h : P m)
    (hlink : ∀ m' n o, P m' → n ∈ new.leaves → m'.hasNew n = false → o ∈ old.leaves →
      m.hasOld o = false → P (m'.link n o)) :
    P (linkLeaves measure threshold byLabel old new m) := by
  refine List.foldlRecOn _ _ h fun m' h' n hn ↦ ?_
  split
  · exact h'
  · next hnew =>
    refine linkBest_induction h' fun o ho ↦ ?_
    have hfree : o ∈ old.leaves.filter fun o ↦ !m.hasOld o := by
      cases byLabel with
      | true => exact (List.mem_filter.1 ho).1
      | false => exact ho
    rw [List.mem_filter, Bool.not_eq_true'] at hfree
    exact hlink m' n o h' hn (Bool.eq_false_iff.2 hnew) hfree.1 hfree.2

theorem linkInner_induction (h : P m)
    (hlink : ∀ m' n o, P m' → n ∈ new.innerNodes → m'.hasNew n = false → o ∈ old.innerNodes →
      m.hasOld o = false → P (m'.link n o)) :
    P (linkInner measure threshold old new m) := by
  refine List.foldlRecOn _ _ h fun m' h' e he ↦ ?_
  rw [List.mem_mergeSort] at he
  obtain ⟨n, hn, rfl⟩ := List.mem_map.1 he
  dsimp only
  split
  · exact h'
  · next hnew =>
    refine linkBest_induction h' fun o ho ↦ ?_
    rw [List.mem_filter, Bool.not_eq_true'] at ho
    exact hlink m' n o h' hn (Bool.eq_false_iff.2 hnew) ho.1 ho.2

section Properties

-- `R` is handed down from a pair to the properties below it
variable {R : NodeId → NodeId → Prop}
  (hR : ∀ p q c oc, R p q → c ∈ new.children p → oc ∈ old.children q →
    new.isControlFlow c = false → old.isControlFlow oc = false → R c oc)
  (hlink : ∀ m' c oc, P m' → m'.hasNew c = false → m'.hasOld oc = false → R c oc →
    P (m'.link c oc))
include hR hlink

theorem linkProperties_induction (fuel : Nat) (h : P m) {p : NodeId × NodeId} (hp : R p.1 p.2) :
    P (linkProperties old new fuel m p) := by
  induction fuel generalizing m p with
  | zero => exact h
  | succ fuel ih =>
    rw [linkProperties]
    refine List.foldlRecOn _ _ h fun m' h' c hc ↦ ?_
    split
    · exact h'
    · next hskip =>
      obtain ⟨hproperty, hnew⟩ := Bool.or_eq_false_iff.1 (Bool.eq_false_iff.2 hskip)
      split
      · next oc hoc =>
        have hfound := List.find?_some hoc
        rw [isFreeProperty, Bool.and_eq_true, Bool.and_eq_true, Bool.not_eq_true',
          Bool.not_eq_true'] at hfound
        have hcoc : R c oc :=
          hR _ _ c oc hp hc (List.mem_of_find?_eq_some hoc) hproperty hfound.1.1
        exact ih (hlink m' c oc h' hnew hfound.1.2 hcoc) hcoc
      · exact h'

theorem propagate_induction (h : P m) (hpairs : ∀ n o, m.old? n = some o → R n o) :
    P (m.propagate old new) :=
  List.foldlRecOn _ _ h fun _ h' _ hp ↦ linkProperties_induction hR hlink new.size h'
    (hpairs _ _ (mem_pairs.1 (List.mem_filter.1 hp).1))

end Properties

section Free

variable (hlink : ∀ m' n o, P m' → m'.hasNew n = false → m'.hasOld o = false → P (m'.link n o))
include hlink

theorem linkChildren_induction (h : P m) (p : NodeId × NodeId) :
    P (linkChildren measure threshold old new m p).1 := by
  refine List.foldlRecOn _ _ (motive := fun s : Matching × List (NodeId × NodeId) ↦ P s.1)
    h fun s h c _ ↦ ?_
  split
  split
  · split
    · exact h
    · next hfree =>
      obtain ⟨hnew, hold⟩ := Bool.or_eq_false_iff.1 (Bool.eq_false_iff.2 hfree)
      split
      · exact hlink _ _ _ h hnew hold
      · exact h
  · exact h

theorem descend_induction (fuel : Nat) (h : P m) (queue : List (NodeId × NodeId)) :
    P (descend measure threshold old new fuel m queue) := by
  induction fuel generalizing m queue with
  | zero => exact h
  | succ fuel ih =>
    cases queue with
    | nil => exact h
    | cons p queue => exact ih (linkChildren_induction hlink h p) _

theorem promote_induction (h : P m) (p : NodeId × NodeId) :
    P (promote measure threshold old new m p) := by
  unfold promote
  split
  · split
    · next hp =>
      rw [promotable, Bool.and_eq_true, Bool.and_eq_true, Bool.and_eq_true, Bool.not_eq_true',
        Bool.not_eq_true'] at hp
      exact hlink _ _ _ h hp.1.1.1 hp.1.1.2
    · exact h
  · exact h

theorem rounds_induction (fuel : Nat) (h : P m) : P (rounds measure threshold old new fuel m) := by
  induction fuel generalizing m with
  | zero => exact h
  | succ fuel ih =>
    have hround : P (round measure threshold old new m) :=
      List.foldlRecOn _ _ h fun _ h' p _ ↦ promote_induction hlink h' p
    rw [rounds]
    split
    · exact hround
    · exact ih hround

end Free

theorem alignAncestors_induction (p : NodeId × NodeId) (h : P m)
    (hpropose : ∀ m' n o, ∀ e ∈ Sequence.commonPairs (fun a b ↦ new.label a == old.label b)
        (new.ancestors p.1) (old.ancestors p.2),
      P m' → (new.ancestors p.1)[e.1]? = some n → (old.ancestors p.2)[e.2]? = some o →
      m'.hasNew n = false → m'.hasOld o = false → lt (measure old o new n) threshold = true →
      P (m'.propose n o)) :
    P (alignAncestors measure threshold old new m p) := by
  refine List.foldlRecOn _ _ h fun m' h' e he ↦ ?_
  split
  split
  · next n o hn ho =>
    unfold proposeAncestors
    split
    · exact h'
    · next hfree =>
      obtain ⟨hnew, hold⟩ := Bool.or_eq_false_iff.1 (Bool.eq_false_iff.2 hfree)
      split
      · exact h'
      · split
        · next hlt => exact hpropose m' n o _ he h' hn ho hnew hold hlt
        · exact h'
  · exact h'

theorem reduce_induction {resolve : Matching → NodeId → List NodeId → Option NodeId}
    (h : P { m with proposals := {} })
    (hlink : ∀ m' n o, P m' → resolve m' n (m.candidates n) = some o → P (m'.link n o)) :
    P (m.reduce resolve) := by
  refine List.foldlRecOn _ _ h fun m' h' e he ↦ ?_
  split
  · next o ho =>
    have hmem : m.proposals[e.1]? = some e.2 :=
      Std.TreeMap.mem_toList_iff_getElem?_eq_some.1 (List.mem_reverse.1 he)
    have hknown : m.candidates e.1 = e.2 := by rw [candidates, hmem, Option.getD_some]
    exact hlink m' e.1 o h' (hknown ▸ ho)
  · exact h'

theorem linkAssigned_induction {costs : CostMatrix α} {olds news : List NodeId}
    (ps : List (Nat × Nat)) (h : P m)
    (hlink : ∀ m' n o, P m' → n ∈ news → o ∈ olds → P (m'.link n o)) :
    P (ps.foldl (linkAssigned threshold costs olds news) m) := by
  refine List.foldlRecOn _ _ h fun m' h' p _ ↦ ?_
  unfold linkAssigned
  split
  · next o n ho hn =>
    split
    · exact hlink m' n o h' (List.mem_of_getElem? hn) (List.mem_of_getElem? ho)
    · exact h'
  · exact h'

theorem exists_of_exact {thresholds : Thresholds α} {m' : Matching}
    (h : exact measure thresholds old new m = some m') :
    ∃ (costs : CostMatrix α) (columns : List Nat),
      m' = (columns.zipIdx.foldl (linkAssigned thresholds.leaf costs
        (freeNodes old m.linkRoots.hasOld) (freeNodes new m.linkRoots.hasNew))
        m.linkRoots).propagate old new := by
  simp only [exact, Option.bind_eq_bind, Option.bind_eq_some_iff] at h
  obtain ⟨⟨costs, memo⟩, -, columns, -, h⟩ := h
  exact ⟨costs, columns, (Option.some_inj.1 h).symm⟩

end FlowMerge.Matching
