import FlowMerge.Proofs.Matching.Padding
import FlowMerge.Proofs.Matching.Seed

namespace FlowMerge.Matching

open Score FlowMerge.Tree

/-- What a pair of nodes costs: as the nodes compare, where there is no control flow below, and
else by the share of the least total for their children. -/
inductive Costs (compare : Comparator Rat) (old new : Tree) : NodeId → NodeId → Rat → Prop
  | leaf {o n : NodeId} :
      old.controlFlowChildren o = [] → new.controlFlowChildren n = [] →
      Costs compare old new o n (compare old o new n)
  | inner {o n : NodeId} {f : NodeId → NodeId → Rat} {least : Rat} :
      (old.controlFlowChildren o ≠ [] ∨ new.controlFlowChildren n ≠ []) →
      (∀ c ∈ old.controlFlowChildren o, ∀ d ∈ new.controlFlowChildren n,
        Costs compare old new c d (f c d)) →
      IsLeast (totals (table f (old.controlFlowChildren o) (new.controlFlowChildren n))) least →
      Costs compare old new o n ((7 / 10 * (least / (max (old.controlFlowChildren o).length
        (new.controlFlowChildren n).length : Nat)) + 3 / 10 * compare old o new n) ^ 2)

section Share

variable {m : CostMatrix Rat} {f : NodeId → NodeId → Rat} {olds news : List NodeId}

theorem total_nonneg (h : ∀ i j, 0 ≤ m.entry i j) (columns : List Nat) :
    0 ≤ Assignment.total m columns := by
  rw [Assignment.total, Assignment.sum_eq]
  apply List.sum_nonneg
  intro x hx
  obtain ⟨place, -, rfl⟩ := List.mem_map.1 hx
  exact h place.2 place.1

theorem total_le_length (h : ∀ i j, m.entry i j ≤ 1) {columns : List Nat}
    (hperm : columns.Perm (List.range m.length)) : Assignment.total m columns ≤ m.length := by
  have hlen := hperm.length_eq
  rw [List.length_range] at hlen
  have hsum := List.sum_le_card_nsmul
    (columns.zipIdx.map fun place ↦ m.entry place.2 place.1) 1 fun x hx ↦ by
      obtain ⟨place, -, rfl⟩ := List.mem_map.1 hx
      exact h place.2 place.1
  rw [Assignment.total, Assignment.sum_eq]
  simpa [hlen] using hsum

theorem entry_table_le_one (h : ∀ o n, f o n ≤ 1) (i j : Nat) :
    (table f olds news).entry i j ≤ 1 := by
  by_cases hij : i < max olds.length news.length ∧ j < max olds.length news.length
  · rw [entry_table_eq hij.1 hij.2]
    cases couple? olds news (j, i) with
    | some p => exact h p.1 p.2
    | none => exact le_refl 1
  · rw [entry_table, if_neg hij]
    simp [zero, ratio]

theorem capped_eq {x : Rat} (h : x ≤ 1) : capped x = x := by
  rw [capped, one_eq]
  split
  · rfl
  · next hlt =>
    have hle : ¬ x < 1 := of_decide_eq_false (Bool.eq_false_iff.2 hlt)
    linarith

/-- The share of the least total for two lists lies in the unit interval, so that nothing of it is
cut off. It is well defined, since one of the lists has members. -/
theorem blend_table (hf : ∀ o n, 0 ≤ f o n ∧ f o n ≤ 1) (hne : olds ≠ [] ∨ news ≠ [])
    (own : Rat) : ∃ least, IsLeast (totals (table f olds news)) least ∧
      0 ≤ least / (max olds.length news.length : Nat) ∧
      least / (max olds.length news.length : Nat) ≤ 1 ∧
      blend (table f olds news) own =
        some ((7 / 10 * (least / (max olds.length news.length : Nat)) + 3 / 10 * own) ^ 2) := by
  have hlen : (table f olds news).length = max olds.length news.length := length_table
  have hpos : (0 : Rat) < (max olds.length news.length : Nat) := by
    rw [Nat.cast_pos]
    rcases hne with hne | hne
    · exact lt_max_of_lt_left (List.length_pos_of_ne_nil hne)
    · exact lt_max_of_lt_right (List.length_pos_of_ne_nil hne)
  obtain ⟨columns, hsolve⟩ := Assignment.exists_solve (table f olds news)
  have hnonneg : 0 ≤ Assignment.total (table f olds news) columns :=
    total_nonneg (entry_table_nonneg fun o n ↦ (hf o n).1) _
  have hle : Assignment.total (table f olds news) columns ≤
      (max olds.length news.length : Nat) := by
    rw [← hlen]
    exact total_le_length (entry_table_le_one fun o n ↦ (hf o n).2) (Assignment.perm_solve hsolve)
  have hshare := (div_le_one hpos).2 hle
  refine ⟨_, isLeast_total_solve hsolve, div_nonneg hnonneg hpos.le, hshare, ?_⟩
  rw [blend_eq hsolve]
  simp only [ratio, Nat.cast_one, div_one, Nat.cast_ofNat, hlen]
  rw [capped_eq hshare, sq]

end Share

def InUnit (compare : Comparator Rat) (old new : Tree) : Prop :=
  ∀ o n, 0 ≤ compare old o new n ∧ compare old o new n ≤ 1

section Cost

variable {compare : Comparator Rat} {old new : Tree} {o n : NodeId} {c c' : Rat}

theorem ne_nil_of_not_isEmpty {os ns : List NodeId} (h : ¬ (os.isEmpty && ns.isEmpty) = true) :
    os ≠ [] ∨ ns ≠ [] := by
  cases os <;> simp_all

variable (hunit : InUnit compare old new)
include hunit

theorem pairCost_mem_unit {fuel : Nat} (hc : pairCost compare old new fuel o n = some c) :
    0 ≤ c ∧ c ≤ 1 := by
  induction fuel generalizing o n c with
  | zero => exact Option.some_inj.1 hc ▸ hunit o n
  | succ fuel ih =>
    obtain ⟨f, hf⟩ := exists_costs compare old new fuel
    rw [pairCost_succ fuel fun _ _ _ _ ↦ hf _ _] at hc
    split at hc
    · exact Option.some_inj.1 hc ▸ hunit o n
    · next hinner =>
      obtain ⟨least, -, hnonneg, hle, hblend⟩ :=
        blend_table (fun o n ↦ ih (hf o n)) (ne_nil_of_not_isEmpty hinner) (compare old o new n)
      obtain ⟨hown, hown'⟩ := hunit o n
      rw [hblend, Option.some_inj] at hc
      rw [← hc]
      exact ⟨sq_nonneg _, pow_le_one₀ (by linarith) (by linarith)⟩

theorem costs_pairCost (w : old.WellFormed) {fuel : Nat} (ho : o < old.size)
    (hf : old.size ≤ fuel + old.depth o) (hc : pairCost compare old new fuel o n = some c) :
    Costs compare old new o n c := by
  have hdepth := w.depth_lt ho
  induction fuel generalizing o n c with
  | zero => omega
  | succ fuel ih =>
    obtain ⟨f, hcosts⟩ := exists_costs compare old new fuel
    rw [pairCost_succ fuel fun _ _ _ _ ↦ hcosts _ _] at hc
    split at hc
    · next hleaf =>
      rw [Bool.and_eq_true, List.isEmpty_iff, List.isEmpty_iff] at hleaf
      exact Option.some_inj.1 hc ▸ .leaf hleaf.1 hleaf.2
    · next hinner =>
      have hne := ne_nil_of_not_isEmpty hinner
      obtain ⟨least, hleast, -, -, hblend⟩ := blend_table
        (fun o n ↦ pairCost_mem_unit hunit (hcosts o n)) hne (compare old o new n)
      rw [hblend, Option.some_inj] at hc
      rw [← hc]
      refine .inner hne (fun c hc d _ ↦ ?_) hleast
      have hc := (List.mem_filter.1 hc).1
      have hd := w.depth_of_parent (w.mem_children.1 hc)
      exact ih (w.child_lt hc) (by omega) (hcosts c d) (w.depth_lt (w.child_lt hc))

omit hunit in
theorem Costs.unique (h : Costs compare old new o n c) (h' : Costs compare old new o n c') :
    c = c' := by
  induction h generalizing c' with
  | leaf ho hn =>
    cases h' with
    | leaf _ _ => rfl
    | inner hne _ _ => exact absurd ho (hne.resolve_right (not_not.2 hn))
  | inner hne hchildren hleast ih =>
    cases h' with
    | leaf ho hn => exact absurd ho (hne.resolve_right (not_not.2 hn))
    | inner _ hchildren' hleast' =>
      rw [← table_congr fun c hc d hd ↦ ih c hc d hd (hchildren' c hc d hd)] at hleast'
      rw [hleast.unique hleast']

end Cost

section Tie

variable {m : Matching} {old new t : Tree} {o n : NodeId} {cost : NodeId → NodeId → Rat}
  {olds news : List NodeId} {pairs : List (NodeId × NodeId)} {threshold : Rat}

theorem freeNodes_eq (w : t.WellFormed) {taken : NodeId → Bool}
    (h : ∀ x, taken x = true ↔ x = root) : freeNodes t taken = t.controlFlowBelow root := by
  rw [freeNodes, w.live_eq, List.filter_cons, if_neg (by simp)]
  refine List.filter_congr fun x hx ↦ ?_
  have hr : x ≠ root := (w.mem_live_tail.1 hx).2
  have hfree : taken x = false := Bool.eq_false_iff.2 (mt (h x).1 hr)
  simp [hr, hfree]

def linkAll (m : Matching) (pairs : List (NodeId × NodeId)) : Matching :=
  pairs.foldl (fun m p ↦ m.link p.2 p.1) m

theorem old?_linkAll (hfst : (pairs.map Prod.fst).Nodup) (hsnd : (pairs.map Prod.snd).Nodup)
    (hfree : ∀ p ∈ pairs, m.Free p.2 p.1) :
    (m.linkAll pairs).old? n = some o ↔ m.old? n = some o ∨ (o, n) ∈ pairs := by
  induction pairs generalizing m with
  | nil => simp [linkAll]
  | cons p pairs ih =>
    rw [List.map_cons, List.nodup_cons] at hfst hsnd
    have hp := hfree p List.mem_cons_self
    have hrest : ∀ q ∈ pairs, (m.link p.2 p.1).Free q.2 q.1 := by
      intro q hq
      obtain ⟨hqn, hqo⟩ := hfree q (List.mem_cons_of_mem _ hq)
      have hn : q.2 ≠ p.2 := fun he ↦ hsnd.1 (he ▸ List.mem_map_of_mem hq)
      have ho : q.1 ≠ p.1 := fun he ↦ hfst.1 (he ▸ List.mem_map_of_mem hq)
      constructor
      · rw [hasNew_eq_false, old?_link, if_neg hn, hasOld_eq_false.1 hp.2]
        simpa using hasNew_eq_false.1 hqn
      · rw [hasOld_eq_false, new?_link_of_free (hasNew_eq_false.1 hp.1) ho]
        exact hasOld_eq_false.1 hqo
    have htail := ih hfst.2 hsnd.2 hrest
    rw [old?_link_of_free (hasNew_eq_false.1 hp.1) (hasOld_eq_false.1 hp.2)] at htail
    rw [linkAll, List.foldl_cons]
    rw [linkAll] at htail
    rw [htail, List.mem_cons, or_assoc, or_left_comm]
    simp only [Prod.ext_iff, and_comm]

theorem foldl_linkAssigned (columns : List Nat) :
    columns.zipIdx.foldl (linkAssigned threshold (table cost olds news) olds news) m =
      m.linkAll ((couples olds news columns).filter fun p ↦ lt (cost p.1 p.2) threshold) := by
  rw [linkAll, List.foldl_filter, couples, List.foldl_filterMap]
  refine List.foldl_ext _ _ _ fun m' place _ ↦ ?_
  cases ho : olds[place.2]? with
  | none => simp [linkAssigned, couple?, ho]
  | some o =>
    cases hn : news[place.1]? with
    | none => simp [linkAssigned, couple?, ho, hn]
    | some n =>
      have hi := (List.getElem?_eq_some_iff.1 ho).1
      have hj := (List.getElem?_eq_some_iff.1 hn).1
      have hcouple : couple? olds news place = some (o, n) := couple?_eq_some.2 ⟨ho, hn⟩
      have hentry : (table cost olds news).entry place.2 place.1 = cost o n := by
        rw [entry_table_eq (lt_max_of_lt_left hi) (lt_max_of_lt_right hj), hcouple]
        rfl
      simp only [linkAssigned, ho, hn, hcouple, hentry]

/-- Whether two nodes that are tied are control flow, one of them at least, and not the roots. -/
def TiesSteps (old new : Tree) (m : Matching) (n o : NodeId) : Prop :=
  m.old? n = some o ∧ n ≠ root ∧ (new.isControlFlow n = true ∨ old.isControlFlow o = true)

theorem hasNew_roots (x : NodeId) : (linkRoots .empty).hasNew x = true ↔ x = root := by
  rw [linkRoots, SelfTied.empty.hasNew_link, hasNew_empty]
  simp

theorem hasOld_roots (x : NodeId) : (linkRoots .empty).hasOld x = true ↔ x = root := by
  have hroots : (linkRoots .empty).SelfTied := SelfTied.empty.link root
  rw [hroots.hasOld]
  exact hasNew_roots x

theorem OneToOne.linkAll (h : m.OneToOne) (pairs : List (NodeId × NodeId)) :
    (m.linkAll pairs).OneToOne :=
  List.foldlRecOn pairs _ h fun _ h' p _ ↦ h'.link p.2 p.1

theorem tiesSteps_propagate (hm : m.OneToOne) :
    TiesSteps old new (m.propagate old new) n o ↔ TiesSteps old new m n o := by
  have hwithin : Within (fun n o ↦ m.old? n = some o ∨
      (new.isControlFlow n = false ∧ old.isControlFlow o = false)) (m.propagate old new) :=
    Within.propagate (fun _ _ _ _ _ _ _ hc hoc ↦ .inr ⟨hc, hoc⟩) fun _ _ h ↦ .inl h
  constructor
  · rintro ⟨hno, hr, hstep⟩
    refine ⟨(hwithin n o hno).resolve_right fun hproperty ↦ ?_, hr, hstep⟩
    simp [hproperty.1, hproperty.2] at hstep
  · rintro ⟨hno, hr, hstep⟩
    exact ⟨((Extends.refl hm).propagate hm).kept n o hno, hr, hstep⟩

theorem tiesSteps_linkAll (wo : old.WellFormed) (wn : new.WellFormed)
    (h : Assigns (old.controlFlowBelow root) (new.controlFlowBelow root) pairs)
    (keep : NodeId × NodeId → Bool) :
    TiesSteps old new ((linkRoots .empty).linkAll (pairs.filter keep)) n o ↔
      (o, n) ∈ pairs ∧ keep (o, n) = true := by
  have hmem {p : NodeId × NodeId} (hp : p ∈ pairs) :
      p.1 ∈ old.controlFlowBelow root ∧ p.2 ∈ new.controlFlowBelow root :=
    ⟨h.firsts.subset (List.mem_map_of_mem hp), h.seconds.subset (List.mem_map_of_mem hp)⟩
  have hfst := nodup_of_subperm h.firsts (wo.nodup_controlFlowBelow wo.root_lt)
  have hsnd := nodup_of_subperm h.seconds (wn.nodup_controlFlowBelow wn.root_lt)
  have hfree : ∀ p ∈ pairs.filter keep, (linkRoots .empty).Free p.2 p.1 := by
    intro p hp
    obtain ⟨ho, hn⟩ := hmem (List.mem_of_mem_filter hp)
    have hn := ((wn.mem_controlFlowBelow wn.root_lt).1 hn).2.1
    have ho := ((wo.mem_controlFlowBelow wo.root_lt).1 ho).2.1
    exact ⟨Bool.eq_false_iff.2 (mt (hasNew_roots p.2).1 hn),
      Bool.eq_false_iff.2 (mt (hasOld_roots p.1).1 ho)⟩
  have htied := old?_linkAll (n := n) (o := o)
    (hfst.sublist (List.filter_sublist.map Prod.fst))
    (hsnd.sublist (List.filter_sublist.map Prod.snd)) hfree
  rw [old?_linkRoots_empty, List.mem_filter] at htied
  rw [TiesSteps, htied]
  constructor
  · rintro ⟨hroot | hpair, hr, -⟩
    · exact absurd hroot.1 hr
    · exact hpair
  · intro hpair
    obtain ⟨-, hr, hstep⟩ := (wn.mem_controlFlowBelow wn.root_lt).1 (hmem hpair.1).2
    exact ⟨.inr hpair, hr, .inl hstep⟩

end Tie

variable {compare : Comparator Rat} {old new : Tree}

/-- The best pairing of all. What a pair costs is what the recursion says, whatever has been looked
up before, and lies in the unit interval. The steps that are tied are the pairs below the threshold
of an assignment than which none costs less. -/
theorem cheapest_exact (wo : old.WellFormed) (wn : new.WellFormed)
    (hunit : InUnit compare old new) (thresholds : Thresholds Rat) :
    ∃ cost : NodeId → NodeId → Rat,
      (∀ o n, pairCost compare old new (old.size + 1) o n = some (cost o n)) ∧
      (∀ o < old.size, ∀ n c, Costs compare old new o n c ↔ c = cost o n) ∧
      (∀ o n, 0 ≤ cost o n ∧ cost o n ≤ 1) ∧
      (∀ o < old.size, ∀ n,
        Gives cost (pairCostMemo compare old new (old.size + 1) o n) (cost o n)) ∧
      ∃ m pairs, exact compare thresholds old new .empty = some m ∧
        Cheapest cost (old.controlFlowBelow root) (new.controlFlowBelow root) pairs ∧
        ∀ n o, TiesSteps old new m n o ↔ (o, n) ∈ pairs ∧ cost o n < thresholds.leaf := by
  obtain ⟨cost, hcost⟩ := exists_costs compare old new (old.size + 1)
  have hcosts : ∀ o < old.size, ∀ n, Costs compare old new o n (cost o n) :=
    fun o ho n ↦ costs_pairCost hunit wo ho (by omega) (hcost o n)
  have hmemo : ∀ o < old.size, ∀ n,
      Gives cost (pairCostMemo compare old new (old.size + 1) o n) (cost o n) :=
    fun o ho n ↦ gives_pairCostMemo wo ho hcost (by omega)
  refine ⟨cost, hcost,
    fun o ho n c ↦ ⟨fun h ↦ h.unique (hcosts o ho n), fun h ↦ h ▸ hcosts o ho n⟩,
    fun o n ↦ pairCost_mem_unit hunit (hcost o n), hmemo, ?_⟩
  have holds : freeNodes old (linkRoots .empty).hasOld = old.controlFlowBelow root :=
    freeNodes_eq wo hasOld_roots
  have hnews : freeNodes new (linkRoots .empty).hasNew = new.controlFlowBelow root :=
    freeNodes_eq wn hasNew_roots
  -- looking costs up gives the table of the recursion
  have hgives : Gives cost (padded (pairCostMemo compare old new (old.size + 1))
      (old.controlFlowBelow root) (new.controlFlowBelow root))
      (table cost (old.controlFlowBelow root) (new.controlFlowBelow root)) := by
    refine gives_padded fun o ho n _ ↦ hmemo o ?_ n
    exact wo.live_lt (wo.mem_live.2 ((wo.mem_controlFlowBelow wo.root_lt).1 ho).1)
  obtain ⟨memo, hrun⟩ := hgives.exists_run
  obtain ⟨columns, hsolve⟩ := Assignment.exists_solve
    (table cost (old.controlFlowBelow root) (new.controlFlowBelow root))
  have hcheapest : Cheapest cost (old.controlFlowBelow root) (new.controlFlowBelow root)
      (couples (old.controlFlowBelow root) (new.controlFlowBelow root) columns) :=
    cheapest_couples (wo.nodup_controlFlowBelow wo.root_lt)
      (wn.nodup_controlFlowBelow wn.root_lt) hsolve
  rw [← holds, ← hnews] at hrun
  refine ⟨_, _, exact_eq hrun (by rw [holds, hnews]; exact hsolve), hcheapest, fun n o ↦ ?_⟩
  rw [holds, hnews, foldl_linkAssigned, tiesSteps_propagate (OneToOne.empty.linkRoots.linkAll _),
    tiesSteps_linkAll wo wn hcheapest.1]
  exact and_congr_right fun _ ↦ decide_eq_true_iff

def labelsDiffer : Comparator Rat := fun old o new n ↦
  if (old.content o).label = (new.content n).label then 0 else 1

def manipulateThenLoop : Tree :=
  .ofList { label := "description" }
    [(0, { label := "manipulate" }), (0, { label := "loop" }), (2, { label := "call" })]

def loopThenManipulate : Tree :=
  .ofList { label := "description" }
    [(0, { label := "loop" }), (1, { label := "call" }), (0, { label := "manipulate" })]

/-- The loops cost nothing, and the steps that are tied are such as cost nothing together, though
they have changed places. -/
theorem cheapest_exact_loopThenManipulate :
    InUnit labelsDiffer manipulateThenLoop loopThenManipulate ∧
      Costs labelsDiffer manipulateThenLoop loopThenManipulate 2 1 0 ∧
      ∃ cost : NodeId → NodeId → Rat,
        (∀ o n, pairCost labelsDiffer manipulateThenLoop loopThenManipulate 5 o n =
          some (cost o n)) ∧
        ∃ m pairs, exact labelsDiffer .standard manipulateThenLoop loopThenManipulate .empty =
            some m ∧ totalCost cost pairs ≤ 0 ∧
          ∀ n o, TiesSteps manipulateThenLoop loopThenManipulate m n o ↔
            (o, n) ∈ pairs ∧ cost o n < 1 / 4 := by
  have hunit : InUnit labelsDiffer manipulateThenLoop loopThenManipulate := by
    intro o n
    rw [labelsDiffer]
    split <;> simp
  have wo : manipulateThenLoop.WellFormed := wellFormed_ofList _ _ (by decide)
  have wn : loopThenManipulate.WellFormed := wellFormed_ofList _ _ (by decide)
  obtain ⟨cost, hcost, hcosts, -, -, m, pairs, hm, hcheapest, hties⟩ :=
    cheapest_exact wo wn hunit .standard
  have hnone {o n : NodeId} (h : pairCost labelsDiffer manipulateThenLoop loopThenManipulate 5 o n =
      some 0) : cost o n = 0 := Option.some_inj.1 ((hcost o n).symm.trans h)
  have hacross : Assigns (manipulateThenLoop.controlFlowBelow root)
      (loopThenManipulate.controlFlowBelow root) [(1, 3), (2, 1), (3, 2)] :=
    ⟨by decide, by decide, by decide⟩
  have hloops : cost 2 1 = 0 := hnone (by decide +kernel)
  have hzero : totalCost cost [(1, 3), (2, 1), (3, 2)] = 0 := by
    have hmanipulations : cost 1 3 = 0 := hnone (by decide +kernel)
    have hcalls : cost 3 2 = 0 := hnone (by decide +kernel)
    simp [totalCost, hmanipulations, hloops, hcalls]
  have hleaf : (Thresholds.standard : Thresholds Rat).leaf = 1 / 4 := by decide +kernel
  rw [hleaf] at hties
  exact ⟨hunit, (hcosts 2 (by decide) 1 0).2 hloops.symm, cost, hcost, m, pairs, hm,
    hzero ▸ hcheapest.2 _ hacross, hties⟩

end FlowMerge.Matching
