import FlowMerge.Proofs.Script.Coverage
import FlowMerge.Proofs.Sequence.Longest
import Mathlib.Algebra.BigOperators.Group.Finset.Basic
import Mathlib.Data.Finset.Powerset
import Mathlib.Data.Finset.Prod
import Mathlib.Order.Lattice.Nat

namespace FlowMerge.Script

open FlowMerge.Tree

variable (old new : Tree) (m : Matching)

def stayers (po pn : NodeId) : Finset NodeId :=
  (new.children pn).toFinset.filter fun c ↦ (m.old? c).bind old.parent? = some po

def SameOrder (s : Finset NodeId) : Prop :=
  ∀ x ∈ s, ∀ y ∈ s, ∀ ox ∈ m.old? x, ∀ oy ∈ m.old? y,
    new.position x < new.position y → old.position ox < old.position oy

instance : DecidablePred (SameOrder old new m) := fun s ↦
  inferInstanceAs (Decidable (∀ x ∈ s, ∀ y ∈ s, ∀ ox ∈ m.old? x, ∀ oy ∈ m.old? y,
    new.position x < new.position y → old.position ox < old.position oy))

/-- The greatest number of children of `pn` that come in the order of their counterparts below
`po`. -/
def longestOrder (po pn : NodeId) : Nat :=
  ((stayers old new m po pn).powerset.filter (SameOrder old new m)).sup Finset.card

def matchedPairs : Finset (NodeId × NodeId) :=
  (new.live.toFinset ×ˢ old.live.toFinset).filter fun p ↦ m.old? p.1 = some p.2

def displaced : Finset (NodeId × NodeId) :=
  (matchedPairs old new m).filter fun p ↦
    p.1 ≠ root ∧ (new.parent? p.1).bind m.old? ≠ old.parent? p.2

def unmoved (script : Script) (po pn : NodeId) : Finset NodeId :=
  (stayers old new m po pn).filter fun c ↦
    ∀ oc ∈ m.old? c, script.countP (Change.concerns .move (old.path oc)) = 0

/-- A script moves no more siblings than it must, and other nodes only to another parent. -/
structure FewestMoves (script : Script) : Prop where
  sameOrder : ∀ pn po, m.old? pn = some po → SameOrder old new m (unmoved old new m script po pn)
  largest : ∀ pn po, m.old? pn = some po → ∀ s ⊆ stayers old new m po pn, SameOrder old new m s →
    s.card ≤ (unmoved old new m script po pn).card
  count : script.count .move = (displaced old new m).card + ∑ p ∈ matchedPairs old new m,
    ((stayers old new m p.2 p.1).card - longestOrder old new m p.2 p.1)

variable {old new : Tree} {m : Matching} {c n o oc pn po : NodeId} {s : Finset NodeId}

theorem mem_stayers : c ∈ stayers old new m po pn ↔
    c ∈ new.children pn ∧ ∃ oc, m.old? c = some oc ∧ old.parent? oc = some po := by
  rw [stayers, Finset.mem_filter, List.mem_toFinset, Option.bind_eq_some_iff]

theorem mem_matchedPairs (h : Clean old new m) :
    (n, o) ∈ matchedPairs old new m ↔ m.old? n = some o := by
  rw [matchedPairs, Finset.mem_filter, Finset.mem_product, List.mem_toFinset, List.mem_toFinset]
  exact and_iff_right_of_imp fun hno ↦ h.live n o hno

theorem unmoved_ofMatching (wo : old.WellFormed) (wn : new.WellFormed) (h : Clean old new m)
    (hpo : m.old? pn = some po) :
    unmoved old new m (ofMatching old new m) po pn = (inOrder old new m pn).toFinset := by
  have hstays {c oc : NodeId} (hoc : m.old? c = some oc) :
      (ofMatching old new m).countP (Change.concerns .move (old.path oc)) = 0 ↔
        stays old new m c = true := by
    rw [List.countP_eq_length_filter, filter_moves wo wn h hoc]
    split
    · next hs => exact iff_of_true rfl hs
    · next hs => exact iff_of_false nofun hs
  ext c
  rw [unmoved, Finset.mem_filter, mem_stayers, List.mem_toFinset]
  constructor
  · rintro ⟨⟨hc, oc, hoc, -⟩, hcount⟩
    exact (stays_iff (wn.mem_children.1 hc)).1 ((hstays hoc).1 (hcount oc hoc))
  · intro hc
    obtain ⟨po', oc, hpo', hcp, hoc, hpar⟩ := mem_inOrder wo hc
    obtain rfl := Option.some_inj.1 (hpo.symm.trans hpo')
    refine ⟨⟨hcp, oc, hoc, hpar⟩, fun oc' hoc' ↦ (hstays hoc').2 ?_⟩
    exact (stays_iff (wn.mem_children.1 hcp)).2 hc

theorem length_inOrder (hpo : m.old? pn = some po) :
    (inOrder old new m pn).length =
      (Sequence.commonPairs (fun c oc ↦ c.2 == oc) (staying old new m po pn)
        ((old.children po).filter fun oc ↦
          ((staying old new m po pn).map Prod.snd).contains oc)).length := by
  have hcommon := Sequence.common_commonPairs (fun c oc ↦ c.2 == oc) (staying old new m po pn)
    ((old.children po).filter fun oc ↦ ((staying old new m po pn).map Prod.snd).contains oc)
  rw [inOrder, hpo]
  dsimp only
  rw [List.length_filterMap_eq_countP, List.countP_eq_length]
  rintro ⟨i, j⟩ hp
  obtain ⟨hi, -⟩ := hcommon.lt_length hp
  rw [List.getElem?_eq_getElem hi]
  rfl

theorem card_le_length_inOrder (wo : old.WellFormed) (wn : new.WellFormed)
    (hpo : m.old? pn = some po) (hs : s ⊆ stayers old new m po pn)
    (horder : SameOrder old new m s) : s.card ≤ (inOrder old new m pn).length := by
  have hfst : ((staying old new m po pn).filter (·.1 ∈ s)).Pairwise
      fun c d ↦ new.position c.1 < new.position d.1 :=
    (List.pairwise_map.1 ((wn.pairwise_children pn).sublist map_fst_staying_sublist)).filter _
  have hsnd : (((staying old new m po pn).filter (·.1 ∈ s)).map Prod.snd).Pairwise
      fun c d ↦ old.position c < old.position d := by
    refine List.pairwise_map.2 (hfst.imp_of_mem fun {x y} hx hy hlt ↦ ?_)
    rw [List.mem_filter, decide_eq_true_eq] at hx hy
    exact horder x.1 hx.2 y.1 hy.2 x.2 (mem_staying.1 hx.1).2.1 y.2 (mem_staying.1 hy.1).2.1 hlt
  have hbefore : (((staying old new m po pn).filter (·.1 ∈ s)).map Prod.snd).Sublist
      ((old.children po).filter fun oc ↦ ((staying old new m po pn).map Prod.snd).contains oc) := by
    refine sublist_of_positions hsnd ((wo.pairwise_children po).filter _) fun oc hoc ↦ ?_
    obtain ⟨e, he, rfl⟩ := List.mem_map.1 hoc
    exact mem_before wo (List.mem_filter.1 he).1
  have hagree : List.Forall₂ (fun (c : NodeId × NodeId) oc ↦ (c.2 == oc) = true)
      ((staying old new m po pn).filter (·.1 ∈ s))
      (((staying old new m po pn).filter (·.1 ∈ s)).map Prod.snd) :=
    List.forall₂_map_right_iff.2 (List.forall₂_same.2 fun c _ ↦ beq_self_eq_true c.2)
  have hcard : s.card ≤ ((staying old new m po pn).filter (·.1 ∈ s)).length := by
    rw [← List.length_map Prod.fst]
    refine (Finset.card_le_card fun c hc ↦ ?_).trans (List.toFinset_card_le _)
    obtain ⟨hcp, oc, hoc, hpar⟩ := mem_stayers.1 (hs hc)
    exact List.mem_toFinset.2 (List.mem_map.2 ⟨(c, oc), List.mem_filter.2
      ⟨mem_staying.2 ⟨hcp, hoc, hpar⟩, decide_eq_true hc⟩, rfl⟩)
  rw [length_inOrder hpo]
  exact hcard.trans (Sequence.length_le_commonPairs hagree List.filter_sublist hbefore)

theorem nodup_inOrder (wn : new.WellFormed) (hpo : m.old? pn = some po) :
    (inOrder old new m pn).Nodup :=
  (wn.nodup_children pn).sublist (@inOrder_spec old new m pn po hpo).1

theorem sameOrder_inOrder (wo : old.WellFormed) (wn : new.WellFormed) (pn : NodeId) :
    SameOrder old new m (inOrder old new m pn).toFinset :=
  fun _ hx _ hy _ hox _ hoy ↦ position_lt_of_inOrder wo wn (List.mem_toFinset.1 hx)
    (List.mem_toFinset.1 hy) hox hoy

theorem inOrder_subset (wo : old.WellFormed) (hpo : m.old? pn = some po) :
    (inOrder old new m pn).toFinset ⊆ stayers old new m po pn := by
  intro c hc
  obtain ⟨po', oc, hpo', hcp, hoc, hpar⟩ := mem_inOrder wo (List.mem_toFinset.1 hc)
  obtain rfl := Option.some_inj.1 (hpo.symm.trans hpo')
  exact mem_stayers.2 ⟨hcp, oc, hoc, hpar⟩

theorem longestOrder_eq (wo : old.WellFormed) (wn : new.WellFormed)
    (hpo : m.old? pn = some po) :
    longestOrder old new m po pn = (inOrder old new m pn).toFinset.card := by
  refine Nat.le_antisymm (Finset.sup_le fun s hs ↦ ?_) (Finset.le_sup (f := Finset.card) ?_)
  · rw [Finset.mem_filter, Finset.mem_powerset] at hs
    rw [List.toFinset_card_of_nodup (nodup_inOrder wn hpo)]
    exact card_le_length_inOrder wo wn hpo hs.1 hs.2
  · rw [Finset.mem_filter, Finset.mem_powerset]
    exact ⟨inOrder_subset wo hpo, sameOrder_inOrder wo wn pn⟩

variable (old new m) in
def moved : Finset (NodeId × NodeId) :=
  (matchedPairs old new m).filter fun p ↦ stays old new m p.1 = false

theorem moved_subset : moved old new m ⊆ matchedPairs old new m := Finset.filter_subset _ _

theorem mem_moved (h : Clean old new m) :
    (n, o) ∈ moved old new m ↔ m.old? n = some o ∧ stays old new m n = false := by
  rw [moved, Finset.mem_filter, mem_matchedPairs h]

theorem injOn_fst {s : Finset (NodeId × NodeId)} (hs : s ⊆ matchedPairs old new m) :
    Set.InjOn Prod.fst (s : Set (NodeId × NodeId)) := by
  intro p hp q hq hpq
  have hold {r : NodeId × NodeId} (hr : r ∈ s) : m.old? r.1 = some r.2 :=
    (Finset.mem_filter.1 (hs hr)).2
  exact Prod.ext hpq (Option.some_inj.1 ((hold hp).symm.trans (hpq ▸ hold hq)))

theorem count_ofMatching (wo : old.WellFormed) (wn : new.WellFormed) (h : Clean old new m) :
    (ofMatching old new m).count .move = (moved old new m).card := by
  have hremovals : ((old.pruned (wholeOld old m)).flatMap (removalsAt old m)).filter
      (·.kind == .move) = [] := by
    refine List.filter_eq_nil_iff.2 fun c hc hk ↦ ?_
    obtain ⟨x, -, hc⟩ := List.mem_flatMap.1 hc
    have hd := isDeletion_of_mem hc
    rw [beq_iff_eq.1 hk] at hd
    cases hd
  have hadditions (n : NodeId) : (additionsAt old new m n).filter (·.kind == .move) =
      if m.hasNew n && !stays old new m n then
        [⟨.move, (m.old? n).map old.path, some (new.path n), none, []⟩]
      else [] := by
    cases hno : m.old? n with
    | some o =>
      rw [moves_additionsAt wo wn h hno, Matching.hasNew, hno]
      cases stays old new m n <;> rfl
    | none =>
      rw [Matching.hasNew, hno]
      refine List.filter_eq_nil_iff.2 fun c hc hk ↦ ?_
      have hi := isInsertion_of_mem_additionsAt hc hno
      rw [beq_iff_eq.1 hk] at hi
      cases hi
  -- each matched node that does not stay is visited once, and has its one move
  have hnodes : ((new.pruned (wholeNew new m)).filter
      fun n ↦ m.hasNew n && !stays old new m n).toFinset = (moved old new m).image Prod.fst := by
    ext n
    rw [List.mem_toFinset, List.mem_filter, Bool.and_eq_true, Bool.not_eq_true', Finset.mem_image]
    constructor
    · rintro ⟨-, hno, hs⟩
      obtain ⟨o, hno⟩ := Option.isSome_iff_exists.1 hno
      exact ⟨(n, o), (mem_moved h).2 ⟨hno, hs⟩, rfl⟩
    · rintro ⟨⟨n, o⟩, hp, rfl⟩
      obtain ⟨hno, hs⟩ := (mem_moved h).1 hp
      exact ⟨h.mem_pruned_new wn hno, Option.isSome_iff_exists.2 ⟨o, hno⟩, hs⟩
  rw [count, List.countP_eq_length_filter, ofMatching_eq wn, List.filter_append, hremovals,
    List.append_nil, List.filter_flatMap, List.flatMap_congr fun n _ ↦ hadditions n,
    flatMap_if_singleton, List.length_map,
    ← Finset.card_image_of_injOn (injOn_fst moved_subset), ← hnodes,
    List.toFinset_card_of_nodup ((wn.nodup_pruned _).filter _)]

theorem exists_parents (wo : old.WellFormed) (wn : new.WellFormed) (h : Clean old new m)
    (hno : m.old? n = some o) (hr : n ≠ root) :
    ∃ pn po, new.parent? n = some pn ∧ old.parent? o = some po := by
  obtain ⟨hn, ho⟩ := h.live n o hno
  obtain ⟨pn, hpn, -⟩ := wn.exists_parent_of_live hn hr
  obtain ⟨po, hpo, -⟩ := wo.exists_parent_of_live ho fun he ↦ hr ((h.root_iff hno).2 he)
  exact ⟨pn, po, hpn, hpo⟩

theorem ne_root_of_moves (wn : new.WellFormed) (hs : stays old new m n = false) : n ≠ root := by
  rintro rfl
  rw [stays_root wn] at hs
  cases hs

theorem moved_filter_ne (wo : old.WellFormed) (wn : new.WellFormed) (h : Clean old new m) :
    ((moved old new m).filter fun p ↦ (new.parent? p.1).bind m.old? ≠ old.parent? p.2) =
      displaced old new m := by
  ext ⟨n, o⟩
  rw [Finset.mem_filter, mem_moved h, displaced, Finset.mem_filter, mem_matchedPairs h, and_assoc]
  refine and_congr_right fun hno ↦ and_congr_left fun hne ↦ ⟨ne_root_of_moves wn, fun hr ↦ ?_⟩
  refine Bool.eq_false_iff.2 fun hs ↦ hne ?_
  obtain ⟨pn, po, hpn, hpo⟩ := exists_parents wo wn h hno hr
  obtain ⟨po', hpair, hpo'⟩ := parents_of_stays wo hs hno hpn
  dsimp only
  rw [hpn, hpo', Option.bind_some, hpair]

theorem image_moved (wn : new.WellFormed) (h : Clean old new m) :
    ((moved old new m).filter fun p ↦ new.parent? p.1 = some pn ∧ old.parent? p.2 = some po).image
      Prod.fst = stayers old new m po pn \ (inOrder old new m pn).toFinset := by
  ext n
  rw [Finset.mem_image, Finset.mem_sdiff, mem_stayers, List.mem_toFinset]
  constructor
  · rintro ⟨⟨n, o⟩, hp, rfl⟩
    obtain ⟨hp, hpn, hpar⟩ := Finset.mem_filter.1 hp
    obtain ⟨hno, hs⟩ := (mem_moved h).1 hp
    refine ⟨⟨wn.mem_children.2 hpn, o, hno, hpar⟩, fun hin ↦ ?_⟩
    rw [(stays_iff hpn).2 hin] at hs
    cases hs
  · rintro ⟨⟨hc, o, hno, hpar⟩, hn⟩
    have hpn := wn.mem_children.1 hc
    have hs := Bool.eq_false_iff.2 fun hs ↦ hn ((stays_iff hpn).1 hs)
    exact ⟨(n, o), Finset.mem_filter.2 ⟨(mem_moved h).2 ⟨hno, hs⟩, hpn, hpar⟩, rfl⟩

/-- The nodes that move are those whose parents do not belong together, and for each two parents
that do, the children that are not among those in order. -/
theorem card_moved (wo : old.WellFormed) (wn : new.WellFormed) (h : Clean old new m) :
    (moved old new m).card = (displaced old new m).card + ∑ p ∈ matchedPairs old new m,
      (stayers old new m p.2 p.1 \ (inOrder old new m p.1).toFinset).card := by
  let parents (p : NodeId × NodeId) : NodeId × NodeId :=
    ((new.parent? p.1).getD root, (old.parent? p.2).getD root)
  have hparents {n o : NodeId} (hp : (n, o) ∈ moved old new m) : ∃ pn po,
      new.parent? n = some pn ∧ old.parent? o = some po ∧ parents (n, o) = (pn, po) := by
    obtain ⟨hno, hs⟩ := (mem_moved h).1 hp
    obtain ⟨pn, po, hpn, hpo⟩ := exists_parents wo wn h hno (ne_root_of_moves wn hs)
    exact ⟨pn, po, hpn, hpo, by simp only [parents, hpn, hpo, Option.getD_some]⟩
  have hmaps : Set.MapsTo parents ((moved old new m).filter fun p ↦
      (new.parent? p.1).bind m.old? = old.parent? p.2) (matchedPairs old new m) := by
    rintro ⟨n, o⟩ hp
    obtain ⟨hp, hpair⟩ := Finset.mem_filter.1 hp
    obtain ⟨pn, po, hpn, hpo, he⟩ := hparents hp
    dsimp only at hpair
    rw [hpn, hpo] at hpair
    exact he ▸ (mem_matchedPairs h).2 hpair
  rw [← moved_filter_ne wo wn h, add_comm, ← Finset.card_filter_add_card_filter_not
    (s := moved old new m) fun p ↦ (new.parent? p.1).bind m.old? = old.parent? p.2,
    Finset.card_eq_sum_card_fiberwise hmaps]
  refine congrArg (· + _) (Finset.sum_congr rfl fun ⟨pn, po⟩ hp ↦ ?_)
  have hpair := (mem_matchedPairs h).1 hp
  rw [← image_moved wn h, Finset.card_image_of_injOn
    (injOn_fst ((Finset.filter_subset _ _).trans moved_subset)), Finset.filter_filter]
  refine congrArg Finset.card (Finset.filter_congr fun ⟨n, o⟩ hno ↦ ?_)
  obtain ⟨pn', po', hpn, hpo, he⟩ := hparents hno
  dsimp only
  rw [he, hpn, hpo, Option.bind_some, Option.some_inj, Option.some_inj, Prod.mk.injEq]
  exact and_iff_right_of_imp fun ⟨hn, ho⟩ ↦ by rw [hn, ho, hpair]

theorem fewestMoves_ofMatching (wo : old.WellFormed) (wn : new.WellFormed) (h : Clean old new m) :
    FewestMoves old new m (ofMatching old new m) where
  sameOrder pn po hpo := by
    rw [unmoved_ofMatching wo wn h hpo]
    exact sameOrder_inOrder wo wn pn
  largest pn po hpo s hs horder := by
    rw [unmoved_ofMatching wo wn h hpo, List.toFinset_card_of_nodup (nodup_inOrder wn hpo)]
    exact card_le_length_inOrder wo wn hpo hs horder
  count := by
    rw [count_ofMatching wo wn h, card_moved wo wn h]
    refine congrArg _ (Finset.sum_congr rfl fun p hp ↦ ?_)
    have hpo := (mem_matchedPairs h).1 hp
    rw [longestOrder_eq wo wn hpo, Finset.card_sdiff_of_subset (inOrder_subset wo hpo)]

/-- The script of two trees moves as few siblings as can be, whatever one-to-one matching it is
derived for. -/
theorem fewestMoves_derive (wo : old.WellFormed) (wn : new.WellFormed) (h : m.OneToOne) :
    FewestMoves old new (clean old new m) (derive old new m) :=
  fewestMoves_ofMatching wo wn (clean_clean wo wn h)

def chooseLast : Tree :=
  .ofList { label := "description" }
    [(0, { label := "call" }), (0, { label := "loop" }), (0, { label := "choose" })]

def chooseFirst : Tree :=
  .ofList { label := "description" }
    [(0, { label := "choose" }), (0, { label := "call" }), (0, { label := "loop" })]

/-- One move is enough to bring the last of three siblings to the front. -/
theorem fewestMoves_derive_chooseFirst :
    let m : Matching := .link (.link (.link .empty 1 3) 2 1) 3 2
    (derive chooseLast chooseFirst m).count .move = 1 ∧
      FewestMoves chooseLast chooseFirst (clean chooseLast chooseFirst m)
        (derive chooseLast chooseFirst m) :=
  ⟨by decide +kernel, fewestMoves_derive (wellFormed_ofList _ _ (by decide))
    (wellFormed_ofList _ _ (by decide)) (((Matching.OneToOne.empty.link 1 3).link 2 1).link 3 2)⟩

end FlowMerge.Script
