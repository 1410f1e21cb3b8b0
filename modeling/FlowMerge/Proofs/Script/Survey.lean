import FlowMerge.Proofs.Matching.OneToOne
import FlowMerge.Proofs.Sequence
import FlowMerge.Proofs.Tree.Order
import FlowMerge.Script.Derive

namespace FlowMerge.Script

variable {old new : Tree} {m : Matching} {n o c oc p pn po x : NodeId} {fuel : Nat}

structure Clean (old new : Tree) (m : Matching) : Prop where
  oneToOne : m.OneToOne
  roots : m.old? Tree.root = some Tree.root
  live : ∀ n o, m.old? n = some o → n ∈ new.live ∧ o ∈ old.live

theorem clean_clean (wo : old.WellFormed) (wn : new.WellFormed) (h : m.OneToOne) :
    Clean old new (clean old new m) := by
  refine ⟨(h.retain _).linkRoots, ?_, fun n o hno ↦ ?_⟩
  · rw [clean, Matching.linkRoots, Matching.old?_link, if_pos rfl]
  · rw [clean, Matching.linkRoots, Matching.old?_link] at hno
    split at hno
    · next hn =>
      obtain rfl := Option.some_inj.1 hno
      exact ⟨hn ▸ wn.root_mem_live, wo.root_mem_live⟩
    · split at hno
      · cases hno
      · rw [Matching.old?_retain, Option.filter_eq_some_iff] at hno
        obtain ⟨-, hkeep⟩ := hno
        rw [Bool.and_eq_true, Bool.and_eq_true] at hkeep
        exact ⟨wn.mem_live.2 (wn.isAttached_iff.1 hkeep.1.2),
          wo.mem_live.2 (wo.isAttached_iff.1 hkeep.2)⟩

namespace Clean

variable (h : Clean old new m)
include h

theorem root_iff (hno : m.old? n = some o) : n = Tree.root ↔ o = Tree.root := by
  constructor
  · rintro rfl
    exact Option.some_inj.1 (hno.symm.trans h.roots)
  · rintro rfl
    exact h.oneToOne.new_inj hno h.roots

theorem hasOld_iff : m.hasOld o = true ↔ ∃ n, m.old? n = some o := by
  rw [Matching.hasOld, Option.isSome_iff_exists]
  exact exists_congr fun n ↦ (h.oneToOne n o).symm

end Clean

theorem mem_staying : (c, oc) ∈ staying old new m po pn ↔
    c ∈ new.children pn ∧ m.old? c = some oc ∧ old.parent? oc = some po := by
  rw [staying, List.mem_filterMap]
  constructor
  · rintro ⟨c', hc', h⟩
    cases hm : m.old? c' with
    | none => simp [hm] at h
    | some oc' =>
      simp only [hm] at h
      split at h
      · next hp =>
        cases h
        exact ⟨hc', hm, hp⟩
      · cases h
  · rintro ⟨hc, hm, hp⟩
    exact ⟨c, hc, by simp [hm, hp]⟩

theorem map_fst_staying_sublist :
    ((staying old new m po pn).map Prod.fst).Sublist (new.children pn) := by
  rw [staying]
  induction new.children pn with
  | nil => exact .slnil
  | cons c cs ih =>
    rw [List.filterMap_cons]
    split
    · exact ih.cons c
    · next e he =>
      have hfst : e.1 = c := by
        cases hm : m.old? c with
        | none => simp [hm] at he
        | some oc =>
          simp only [hm] at he
          split at he <;> cases he
          rfl
      rw [List.map_cons, hfst]
      exact ih.cons_cons c

theorem inOrder_spec (h : m.old? pn = some po) :
    (inOrder old new m pn).Sublist (new.children pn) ∧
      ∃ os : List NodeId, os.Sublist (old.children po) ∧
        (inOrder old new m pn).map m.old? = os.map some := by
  rw [inOrder, h]
  dsimp only
  generalize hk : staying old new m po pn = kept
  generalize hb : ((old.children po).filter fun oc ↦ (kept.map Prod.snd).contains oc) = before
  obtain ⟨h₁, h₂, h₃⟩ := Sequence.commonPairs_sublist (fun c oc ↦ c.2 == oc) kept before
  generalize Sequence.commonPairs (fun c oc ↦ c.2 == oc) kept before = pairs at h₁ h₂ h₃
  have hfst : (pairs.filterMap fun p ↦ kept[p.1]?.map Prod.fst) =
      (pairs.filterMap fun p ↦ kept[p.1]?).map Prod.fst := by
    rw [List.map_filterMap]
  change (pairs.filterMap fun p ↦ kept[p.1]?.map Prod.fst).Sublist _ ∧ ∃ os : List NodeId, _ ∧
    (pairs.filterMap fun p ↦ kept[p.1]?.map Prod.fst).map m.old? = _
  refine ⟨?_, _, h₂.trans (hb ▸ List.filter_sublist), ?_⟩
  · rw [hfst]
    exact (h₁.map _).trans (hk ▸ map_fst_staying_sublist)
  · clear h₁ h₂ hfst
    induction pairs with
    | nil => rfl
    | cons p pairs ih =>
      obtain ⟨⟨c, oc⟩, oc', hc, ho, he⟩ := h₃ p List.mem_cons_self
      obtain rfl : oc = oc' := beq_iff_eq.1 he
      have hm : m.old? c = some oc := by
        have hmem := List.mem_of_getElem? hc
        rw [← hk, mem_staying] at hmem
        exact hmem.2.1
      have hih := ih fun q hq ↦ h₃ q (List.mem_cons_of_mem _ hq)
      simp only [List.filterMap_cons, hc, ho, Option.map_some, List.map_cons, hm, hih]

theorem inOrder_of_free (h : m.old? pn = none) : inOrder old new m pn = [] := by
  rw [inOrder, h]

theorem mem_inOrder (wo : old.WellFormed) (h : c ∈ inOrder old new m pn) :
    ∃ po oc, m.old? pn = some po ∧ c ∈ new.children pn ∧ m.old? c = some oc ∧
      old.parent? oc = some po := by
  cases hp : m.old? pn with
  | none =>
    rw [inOrder_of_free hp] at h
    cases h
  | some po =>
    obtain ⟨hsub, os, hos, hmap⟩ := @inOrder_spec old new m pn po hp
    have hc : m.old? c ∈ os.map some := hmap ▸ List.mem_map_of_mem h
    obtain ⟨oc, hoc, hm⟩ := List.mem_map.1 hc
    exact ⟨po, oc, rfl, hsub.subset h, hm.symm, wo.mem_children.1 (hos.subset hoc)⟩

variable (old new m)

def ordered (n : NodeId) : List NodeId :=
  match new.parent? n with
  | some p => inOrder old new m p
  | none => []

def stays (n : NodeId) : Bool :=
  match new.parent? n with
  | some p => (inOrder old new m p).contains n
  | none => true

variable {old new m}

theorem stays_root (wn : new.WellFormed) : stays old new m Tree.root = true := by
  rw [stays, wn.root_top]

theorem stays_iff (hp : new.parent? n = some p) :
    stays old new m n = true ↔ n ∈ inOrder old new m p := by
  rw [stays, hp]
  exact List.contains_iff_mem

theorem parents_of_stays (wo : old.WellFormed) (hs : stays old new m n = true)
    (hno : m.old? n = some o) (hp : new.parent? n = some p) :
    ∃ po, m.old? p = some po ∧ old.parent? o = some po := by
  obtain ⟨po, oc, hpo, -, hoc, hpar⟩ := mem_inOrder wo ((stays_iff hp).1 hs)
  obtain rfl := Option.some_inj.1 (hno.symm.trans hoc)
  exact ⟨po, hpo, hpar⟩

theorem isMoved_eq (wo : old.WellFormed) (wn : new.WellFormed) (h : Clean old new m)
    (hno : m.old? n = some o) :
    (n != Tree.root && isMoved old new m (ordered old new m n) n o) = !stays old new m n := by
  by_cases hr : n = Tree.root
  · rw [hr, stays_root wn]
    rfl
  · obtain ⟨hnl, hol⟩ := h.live n o hno
    obtain ⟨p, hp, -⟩ := wn.exists_parent_of_live hnl hr
    obtain ⟨po, hpo, -⟩ := wo.exists_parent_of_live hol fun he ↦ hr ((h.root_iff hno).2 he)
    have hb : (n != Tree.root) = true := bne_iff_ne.2 hr
    rw [hb, Bool.true_and, isMoved, hp, hpo, stays, hp, ordered, hp]
    by_cases hn : n ∈ inOrder old new m p
    · obtain ⟨po', oc, hpo', -, hoc, hpar⟩ := mem_inOrder wo hn
      obtain rfl := Option.some_inj.1 (hno.symm.trans hoc)
      obtain rfl := Option.some_inj.1 (hpo.symm.trans hpar)
      simp [hn, hpo']
    · simp [hn]

variable (old new m)

def wholeNew (n : NodeId) : Bool := !m.hasNew n && !(new.below n).any m.hasNew

def wholeOld (o : NodeId) : Bool := !m.hasOld o && !(old.below o).any m.hasOld

def additionsAt (n : NodeId) : Script :=
  match m.old? n with
  | some o => moveOf old new m (ordered old new m n) n o ++ updateOf old new n o
  | none =>
    if wholeNew new m n then
      [{ kind := .subtreeInsertion, new := some (new.path n), payload := some (new.subtreeCopy n) }]
    else [{ kind := .insertion, new := some (new.path n), payload := some (new.nodeCopy n) }]

def removalsAt (o : NodeId) : Script :=
  if m.hasOld o then []
  else if wholeOld old m o then [{ kind := .subtreeDeletion, old := some (old.path o) }]
  else [{ kind := .deletion, old := some (old.path o) }]

variable {old new m}

theorem additionsWithin_eq (wn : new.WellFormed) (fuel : Nat) (n : NodeId) :
    additionsWithin old new m fuel (ordered old new m n) n =
      (new.prunedWithin (wholeNew new m) fuel n).flatMap (additionsAt old new m) := by
  induction fuel generalizing n with
  | zero => rfl
  | succ fuel ih =>
    have hdeeper : (new.children n).flatMap
          (additionsWithin old new m fuel (inOrder old new m n)) =
        ((new.children n).flatMap (new.prunedWithin (wholeNew new m) fuel)).flatMap
          (additionsAt old new m) := by
      rw [List.flatMap_assoc]
      refine List.flatMap_congr fun c hc ↦ ?_
      rw [← ih c, ordered, wn.mem_children.1 hc]
    rw [additionsWithin, Tree.prunedWithin, List.flatMap_cons, additionsAt, hdeeper]
    cases hm : m.old? n with
    | some o =>
      have hw : wholeNew new m n = false := by rw [wholeNew, Matching.hasNew, hm]; rfl
      simp only [hw, Bool.false_eq_true, if_false]
    | none =>
      have hw : wholeNew new m n = !(new.below n).any m.hasNew := by
        rw [wholeNew, Matching.hasNew, hm]
        rfl
      simp only [hw]
      cases (new.below n).any m.hasNew with
      | true => rfl
      | false => rfl

theorem removalsWithin_eq (fuel : Nat) (o : NodeId) :
    removalsWithin old m fuel o =
      (old.prunedWithin (wholeOld old m) fuel o).flatMap (removalsAt old m) := by
  induction fuel generalizing o with
  | zero => rfl
  | succ fuel ih =>
    have hdeeper : (old.children o).flatMap (removalsWithin old m fuel) =
        ((old.children o).flatMap (old.prunedWithin (wholeOld old m) fuel)).flatMap
          (removalsAt old m) := by
      rw [List.flatMap_assoc]
      exact List.flatMap_congr fun c _ ↦ ih c
    rw [removalsWithin, Tree.prunedWithin, List.flatMap_cons, removalsAt, hdeeper, wholeOld]
    cases m.hasOld o with
    | true => rfl
    | false =>
      cases (old.below o).any m.hasOld with
      | true => rfl
      | false => rfl

/-- The script says of each node what there is to say, and nothing of nodes that go or come with
one above. -/
theorem ofMatching_eq (wn : new.WellFormed) : ofMatching old new m =
    (new.pruned (wholeNew new m)).flatMap (additionsAt old new m) ++
      (old.pruned (wholeOld old m)).flatMap (removalsAt old m) := by
  have hroot : ordered old new m Tree.root = [] := by rw [ordered, wn.root_top]
  rw [ofMatching, removalsWithin_eq, ← hroot, additionsWithin_eq wn, Tree.pruned, Tree.pruned]

theorem wholeNew_iff (wn : new.WellFormed) (hn : n < new.size) :
    wholeNew new m n = true ↔ ∀ x, new.Above n x → m.old? x = none := by
  have hnone {x : NodeId} : m.hasNew x = false ↔ m.old? x = none := by
    rw [Matching.hasNew, Option.isSome_eq_false_iff, Option.isNone_iff_eq_none]
  rw [wholeNew, Bool.and_eq_true, Bool.not_eq_true', Bool.not_eq_true', hnone, List.any_eq_false]
  constructor
  · rintro ⟨hself, hbelow⟩ x hx
    by_cases hxn : x = n
    · rw [hxn, hself]
    · exact hnone.1 (Bool.eq_false_iff.2 (hbelow x ((wn.mem_below hn).2 ⟨hx, hxn⟩)))
  · intro h
    exact ⟨h n .refl, fun x hx ↦
      Bool.eq_false_iff.1 (hnone.2 (h x ((wn.mem_below hn).1 hx).1))⟩

theorem wholeOld_iff (wo : old.WellFormed) (ho : o < old.size) :
    wholeOld old m o = true ↔ ∀ x, old.Above o x → m.hasOld x = false := by
  rw [wholeOld, Bool.and_eq_true, Bool.not_eq_true', Bool.not_eq_true', List.any_eq_false]
  constructor
  · rintro ⟨hself, hbelow⟩ x hx
    by_cases hxo : x = o
    · rw [hxo, hself]
    · exact Bool.eq_false_iff.2 (hbelow x ((wo.mem_below ho).2 ⟨hx, hxo⟩))
  · intro h
    exact ⟨h o .refl, fun x hx ↦ Bool.eq_false_iff.1 (h x ((wo.mem_below ho).1 hx).1)⟩

namespace Clean

theorem mem_pruned_new (h : Clean old new m) (wn : new.WellFormed) (hno : m.old? n = some o) :
    n ∈ new.pruned (wholeNew new m) := by
  have hn := (h.live n o hno).1
  refine wn.mem_pruned.2 ⟨hn, fun a ha _ ↦ Bool.eq_false_iff.2 fun hw ↦ ?_⟩
  rw [wholeNew_iff wn (ha.lt_size wn (wn.live_lt hn))] at hw
  rw [hw n ha] at hno
  cases hno

theorem mem_pruned_old (h : Clean old new m) (wo : old.WellFormed) (hno : m.old? n = some o)
    (hp : old.parent? oc = some o) : oc ∈ old.pruned (wholeOld old m) := by
  have ho := (h.live n o hno).2
  refine wo.mem_pruned.2 ⟨wo.child_live ho (wo.mem_children.2 hp), fun a ha hne ↦ ?_⟩
  rcases Tree.above_iff.1 ha with rfl | ⟨q, hq, haq⟩
  · exact absurd rfl hne
  · obtain rfl := Option.some_inj.1 (hq.symm.trans hp)
    refine Bool.eq_false_iff.2 fun hw ↦ ?_
    rw [wholeOld_iff wo (haq.lt_size wo (wo.live_lt ho))] at hw
    exact Bool.eq_false_iff.1 (hw q haq) (h.hasOld_iff.2 ⟨n, hno⟩)

end Clean

end FlowMerge.Script
