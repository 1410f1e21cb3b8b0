import FlowMerge.Proofs.Matching.Kinds

namespace FlowMerge.Matching

open FlowMerge.Tree Score

variable {α : Type} [Score α] {base m : Matching} {n o : NodeId} {old new : Tree}
  {measure : Comparator α} {thresholds : Thresholds α} {threshold inner leaf leaf' : α}
  {pre : List NodeId}

def LeavesPaired (old new : Tree) : Matching → Prop :=
  Within fun n o ↦ n ∈ new.leaves ↔ o ∈ old.leaves

theorem countP_leaves (h : m.OneToOne) (hm : m.LeavesPaired old new) (wo : old.WellFormed)
    (wn : new.WellFormed) : new.leaves.countP m.hasNew = old.leaves.countP m.hasOld := by
  have hperm : (new.leaves.filterMap m.old?).Perm (old.leaves.filter m.hasOld) := by
    refine (List.perm_ext_iff_of_nodup ?_ (wo.nodup_leaves.filter _)).2 fun o ↦ ?_
    · refine wn.nodup_leaves.filterMap fun n n' o hn hn' ↦ ?_
      exact h.new_inj hn hn'
    · rw [List.mem_filterMap, List.mem_filter, hasOld_iff]
      constructor
      · rintro ⟨n, hn, hno⟩
        exact ⟨(hm n o hno).1 hn, n, (h n o).1 hno⟩
      · rintro ⟨ho, n, hno⟩
        have hno := (h n o).2 hno
        exact ⟨n, (hm n o hno).2 ho, hno⟩
  rw [List.countP_eq_length_filter (p := m.hasOld), ← hperm.length_eq,
    List.length_filterMap_eq_countP]
  rfl

theorem extends_bucket : (withLeaves measure thresholds.leaf true old new).Extends
    (bucket measure thresholds old new .empty) := by
  have hone : (withLeaves measure thresholds.leaf true old new).OneToOne := oneToOne_withLeaves
  exact ((Extends.refl hone).linkInner hone).propagate hone

theorem within_bucket : Within (fun n o ↦
      (withLeaves measure thresholds.leaf true old new).old? n = some o ∨
        (n ∉ new.leaves ∧ o ∉ old.leaves))
    (bucket measure thresholds old new .empty) :=
  Within.propagate
    (fun _ _ _ _ _ _ _ hn ho ↦ .inr ⟨not_mem_leaves_of_property hn, not_mem_leaves_of_property ho⟩)
    (Within.linkInner (fun _ _ ↦ .inl)
      fun _ hn _ ho ↦ .inr ⟨not_mem_leaves_of_inner hn, not_mem_leaves_of_inner ho⟩)

theorem leavesPaired_bucket : LeavesPaired old new (bucket measure thresholds old new .empty) := by
  intro n o hno
  rcases within_bucket n o hno with hbase | ⟨hn, ho⟩
  · rcases within_withLeaves n o hbase with ⟨rfl, rfl⟩ | ⟨hn, ho⟩
    · exact iff_of_false (not_mem_leaves_root new) (not_mem_leaves_root old)
    · exact iff_of_true hn ho
  · exact iff_of_false hn ho

theorem hasOld_bucket (ho : o ∈ old.leaves) :
    (bucket measure thresholds old new .empty).hasOld o = true ↔
      (withLeaves measure thresholds.leaf true old new).hasOld o = true := by
  have hext : (withLeaves measure thresholds.leaf true old new).Extends
      (bucket measure thresholds old new .empty) := extends_bucket
  rw [hasOld_iff, hasOld_iff]
  refine exists_congr fun n ↦ ?_
  rw [← hext.oneToOne n o, ← oneToOne_withLeaves n o]
  exact ⟨fun hno ↦ (within_bucket n o hno).resolve_right fun h ↦ h.2 ho, hext.kept n o⟩

def closestLeaf (measure : Comparator α) (old new : Tree) (n : NodeId) : Option (Candidate α) :=
  best ((old.leaves.filter fun o ↦ old.label o == new.label n).map fun o ↦
    ⟨measure old o new n, distance (place old.live o) (place new.live n), o⟩)

/-- Whether a new leaf is closest to an old one, and closer than a threshold. -/
def Claims (measure : Comparator α) (threshold : α) (old new : Tree) (n o : NodeId) : Prop :=
  ∃ c, closestLeaf measure old new n = some c ∧ c.node = o ∧ lt c.cost threshold = true

instance (measure : Comparator α) (threshold : α) (old new : Tree) (n o : NodeId) :
    Decidable (Claims measure threshold old new n o) :=
  decidable_of_iff ((closestLeaf measure old new n).any
    fun c ↦ decide (c.node = o) && lt c.cost threshold) (by simp [Claims, Option.any_eq_true])

theorem Claims.raise [Ordered α] (h : Claims measure leaf old new n o)
    (hle : atLeast leaf' leaf = true) : Claims measure leaf' old new n o := by
  obtain ⟨c, hc, hco, hlt⟩ := h
  exact ⟨c, hc, hco, Ordered.lt_of_lt_of_atLeast hlt hle⟩

theorem linkBest_closestLeaf : linkBest old.live new.live threshold (fun o ↦ measure old o new n)
    (old.leaves.filter fun o ↦ old.label o == new.label n) m n =
      match closestLeaf measure old new n with
      | some c => if lt c.cost threshold then m.link n c.node else m
      | none => m := rfl

/-- What is tied when the new leaves in `pre` have had their turns. -/
structure LeafTies (measure : Comparator α) (threshold : α) (old new : Tree) (pre : List NodeId)
    (m : Matching) : Prop where
  news : Within (fun n _ ↦ n = root ∨ n ∈ pre) m
  olds : ∀ o ∈ old.leaves, m.hasOld o = true ↔ ∃ n ∈ pre, Claims measure threshold old new n o

namespace LeafTies

theorem start : LeafTies measure threshold old new [] (linkRoots .empty) where
  news := Within.empty.link (.inl rfl)
  olds o ho := by
    refine iff_of_false (fun h ↦ ?_) (by simp)
    obtain ⟨n, hno⟩ := hasOld_iff.1 h
    rw [linkRoots, new?_link, if_neg (mem_leaves.1 ho).2.1] at hno
    cases hno

/-- A new leaf takes the old leaf that is closest to it, from whoever has it. -/
theorem turn (h : LeafTies measure threshold old new pre m) (hfree : m.hasNew n = false) :
    LeafTies measure threshold old new (pre ++ [n])
      (linkBest old.live new.live threshold (fun o ↦ measure old o new n)
        (old.leaves.filter fun o ↦ old.label o == new.label n) m n) := by
  have hmore (o : NodeId) : (∃ n' ∈ pre ++ [n], Claims measure threshold old new n' o) ↔
      (∃ n' ∈ pre, Claims measure threshold old new n' o) ∨
        Claims measure threshold old new n o := by
    simp only [List.mem_append, List.mem_singleton, or_and_right, exists_or, exists_eq_left]
  have hnews : Within (fun n' _ ↦ n' = root ∨ n' ∈ pre ++ [n]) m :=
    h.news.mono fun _ _ ↦ .imp_right (List.mem_append_left [n])
  rw [linkBest_closestLeaf]
  by_cases hc : ∃ o, Claims measure threshold old new n o
  · obtain ⟨o, hclaim⟩ := hc
    obtain ⟨c, hclosest, rfl, hlt⟩ := id hclaim
    simp only [hclosest, hlt, if_true]
    refine ⟨hnews.link (.inr (List.mem_append_right pre List.mem_cons_self)), fun o' ho' ↦ ?_⟩
    rw [hmore, ← h.olds o' ho']
    -- Another new leaf that had this one loses it, but the old leaf stays tied.
    by_cases he : o' = c.node
    · refine iff_of_true (hasOld_iff.2 ⟨n, ?_⟩) (.inr (he ▸ hclaim))
      rw [new?_link, if_pos he]
    · rw [hasOld, new?_link_of_free (hasNew_eq_false.1 hfree) he, ← hasOld, or_iff_left]
      rintro ⟨c', hc', rfl, -⟩
      exact he (congrArg Candidate.node (Option.some_inj.1 (hc'.symm.trans hclosest)))
  · have hnone (o : NodeId) : ¬ Claims measure threshold old new n o := fun ho ↦ hc ⟨o, ho⟩
    have hrun : (match closestLeaf measure old new n with
        | some c => if lt c.cost threshold then m.link n c.node else m
        | none => m) = m := by
      split
      · next c hclosest => exact if_neg fun hlt ↦ hnone c.node ⟨c, hclosest, rfl, hlt⟩
      · rfl
    rw [hrun]
    refine ⟨hnews, fun o ho ↦ ?_⟩
    rw [hmore, or_iff_left (hnone o), h.olds o ho]

theorem ofLeaves (wn : new.WellFormed) : LeafTies measure threshold old new new.leaves
    (withLeaves measure threshold true old new) := by
  have hstart : LeafTies measure threshold old new [] (linkRoots .empty) := start
  have hfree : (old.leaves.filter fun o ↦ !(linkRoots .empty).hasOld o) = old.leaves := by
    refine List.filter_eq_self.2 fun o ho ↦ ?_
    rw [Bool.not_eq_true', Bool.eq_false_iff]
    exact fun h ↦ by simpa using (hstart.olds o ho).1 h
  rw [withLeaves, linkLeaves, hfree]
  refine foldl_induction (P := fun pre m ↦ LeafTies measure threshold old new pre m) hstart
    fun pre n post m hsplit h ↦ ?_
  have hn : n ∈ new.leaves := hsplit ▸ List.mem_append_right pre List.mem_cons_self
  have hnew : m.hasNew n = false := by
    have hnodup := wn.nodup_leaves
    rw [hsplit, List.nodup_append] at hnodup
    refine Bool.eq_false_iff.2 fun hm ↦ ?_
    obtain ⟨o, hno⟩ := hasNew_iff.1 hm
    refine (h.news n o hno).elim (mem_leaves.1 hn).2.1 fun hpre ↦ ?_
    exact hnodup.2.2 n hpre n List.mem_cons_self rfl
  rw [hnew, if_neg Bool.false_ne_true, if_pos rfl]
  exact h.turn hnew

end LeafTies

theorem hasOld_bucket_iff (wn : new.WellFormed) (ho : o ∈ old.leaves) :
    (bucket measure ⟨leaf, inner⟩ old new .empty).hasOld o = true ↔
      ∃ n ∈ new.leaves, Claims measure leaf old new n o := by
  rw [hasOld_bucket ho]
  exact (LeafTies.ofLeaves wn).olds o ho

/-- A higher threshold for leaves ties all old leaves that a lower one ties, and so no fewer new
leaves. -/
theorem leaves_of_raised_threshold [Ordered α] (measure : Comparator α) (inner : α)
    (hle : atLeast leaf' leaf = true) (wo : old.WellFormed) (wn : new.WellFormed) :
    (∀ o, o ≠ root → old.isLeaf o = true →
      (bucket measure ⟨leaf, inner⟩ old new .empty).hasOld o = true →
        (bucket measure ⟨leaf', inner⟩ old new .empty).hasOld o = true) ∧
      new.leaves.countP (bucket measure ⟨leaf, inner⟩ old new .empty).hasNew ≤
        new.leaves.countP (bucket measure ⟨leaf', inner⟩ old new .empty).hasNew := by
  have hraise {o : NodeId} (ho : o ∈ old.leaves)
      (hm : (bucket measure ⟨leaf, inner⟩ old new .empty).hasOld o = true) :
      (bucket measure ⟨leaf', inner⟩ old new .empty).hasOld o = true := by
    obtain ⟨n, hn, hc⟩ := (hasOld_bucket_iff wn ho).1 hm
    exact (hasOld_bucket_iff wn ho).2 ⟨n, hn, hc.raise hle⟩
  refine ⟨fun o hr hl hm ↦ hraise (mem_leaves.2 ⟨?_, hr, hl⟩) hm, ?_⟩
  · have hlive : (bucket measure ⟨leaf, inner⟩ old new .empty).PairsLive old new :=
      PairsLive.bucket wo wn nofun
    obtain ⟨n, hno⟩ := hasOld_iff.1 hm
    exact (hlive n o ((OneToOne.empty.bucket n o).2 hno)).2
  · have hcount (threshold : α) :
        new.leaves.countP (bucket measure ⟨threshold, inner⟩ old new .empty).hasNew =
          old.leaves.countP (bucket measure ⟨threshold, inner⟩ old new .empty).hasOld :=
      countP_leaves OneToOne.empty.bucket leavesPaired_bucket wo wn
    rw [hcount leaf, hcount leaf']
    exact List.countP_mono_left fun o ho hm ↦ hraise ho hm

def payOnce : Tree :=
  .ofList { label := "description" }
    [(0, { label := "call", attributes := .ofList [("endpoint", "pay")] })]

def payTwice : Tree :=
  .ofList { label := "description" }
    [(0, { label := "call", attributes := .ofList [("endpoint", "pay")] }),
      (0, { label := "call", attributes := .ofList [("endpoint", "paid")] })]

/-- The higher threshold lets the second call take the old one from the first. -/
theorem leaves_payTwice :
    let tied (leaf : Rat) := bucket Comparator.process ⟨leaf, ratio 1 4⟩ payOnce payTwice .empty
    Claims Comparator.process (ratio 1 2 : Rat) payOnce payTwice 2 1 ∧
      (tied (ratio 1 2)).hasOld 1 = true ∧
      payTwice.leaves.countP (tied (ratio 1 10)).hasNew ≤
        payTwice.leaves.countP (tied (ratio 1 2)).hasNew := by
  intro tied
  have wo : payOnce.WellFormed := wellFormed_ofList _ _ (by decide)
  have wn : payTwice.WellFormed := wellFormed_ofList _ _ (by decide)
  have hle : atLeast (ratio 1 2 : Rat) (ratio 1 10) = true := by decide +kernel
  obtain ⟨holds, hcount⟩ := leaves_of_raised_threshold Comparator.process (ratio 1 4) hle wo wn
  have hlow : (tied (ratio 1 10)).hasOld 1 = true :=
    (hasOld_bucket_iff wn (by decide)).2 ⟨1, by decide, by decide +kernel⟩
  exact ⟨by decide +kernel, holds 1 (by decide) (by decide) hlow, hcount⟩

end FlowMerge.Matching
