import FlowMerge.Proofs.Matching.Promotion
import FlowMerge.Proofs.Matching.Seed
import Mathlib.Data.Finset.Card
import Mathlib.Data.Finset.Range

namespace FlowMerge

namespace Matching

open FlowMerge.Tree

variable {α : Type} [Score α] {m m' seed : Matching} {n o pn po : NodeId} {old new : Tree}
  {measure : Comparator α} {threshold : α} {p : NodeId × NodeId}

/-- Rounds until one changes nothing, and how many there are. -/
inductive Climbs (measure : Comparator α) (threshold : α) (old new : Tree) :
    Nat → Matching → Matching → Prop
  | last {m : Matching} :
      round measure threshold old new m = m → Climbs measure threshold old new 1 m m
  | next {k : Nat} {m m' : Matching} :
      round measure threshold old new m ≠ m →
      Climbs measure threshold old new k (round measure threshold old new m) m' →
      Climbs measure threshold old new (k + 1) m m'

/-- Whether no pair has parents that are free, not dissimilar and cover each other well enough. -/
def Settled (measure : Comparator α) (threshold : α) (old new : Tree) (m : Matching) : Prop :=
  ∀ n o pn po, m.old? n = some o → new.parent? n = some pn → old.parent? o = some po →
    m.Free pn po → Score.atLeast (measure old po new pn) threshold = false →
    coversHalf old new m po pn = false

def foothold (measure : Comparator α) (thresholds : Thresholds α) (old new : Tree)
    (seed : Matching) : Matching :=
  if seed.size = 0 then linkLeaves measure thresholds.leaf true old new seed else seed

def ascent (measure : Comparator α) (thresholds : Thresholds α) (old new : Tree)
    (seed : Matching) : Matching :=
  rounds measure thresholds.inner old new (new.size + 1)
    (foothold measure thresholds old new seed)

def room (new : Tree) (m : Matching) : Nat :=
  ((Finset.range new.size).filter fun n ↦ m.hasNew n = false).card

theorem room_le (new : Tree) (m : Matching) : room new m ≤ new.size := by
  have h := Finset.card_filter_le (Finset.range new.size) fun n ↦ m.hasNew n = false
  rwa [Finset.card_range] at h

theorem size_link_of_free (h : m.Free n o) : (m.link n o).size = m.size + 1 := by
  have hmap : (m.link n o).toOld = m.toOld.insert n o := by
    change eraseIfOther n (m.toOld.insert n o) (m.new? o) = _
    rw [hasOld_eq_false.1 h.2]
    rfl
  have hn : n ∉ m.toOld := by
    intro hmem
    have hsome : m.hasNew n = true := Std.TreeMap.mem_iff_isSome_getElem?.1 hmem
    exact Bool.false_ne_true (h.1.symm.trans hsome)
  simp [size, hmap, Std.TreeMap.size_insert, hn]

theorem room_link_lt (h : m.Free n o) (hn : n < new.size) :
    room new (m.link n o) < room new m := by
  apply Finset.card_lt_card
  have hsub : (Finset.range new.size).filter (fun x ↦ (m.link n o).hasNew x = false) ⊆
      (Finset.range new.size).filter fun x ↦ m.hasNew x = false := by
    intro x hx
    obtain ⟨hlt, hfree⟩ := Finset.mem_filter.1 hx
    refine Finset.mem_filter.2 ⟨hlt, ?_⟩
    simp only [hasNew_eq_false, old?_link, hasOld_eq_false.1 h.2] at hfree ⊢
    split at hfree
    · cases hfree
    · simpa using hfree
  refine (Finset.ssubset_iff_of_subset hsub).2 ⟨n, ?_, fun hmem ↦ ?_⟩
  · exact Finset.mem_filter.2 ⟨Finset.mem_range.2 hn, h.1⟩
  · have hfree := (Finset.mem_filter.1 hmem).2
    rw [hasNew_eq_false, old?_link, if_pos rfl] at hfree
    cases hfree

theorem free_of_promotable (h : promotable measure threshold old new m pn po = true) :
    m.Free pn po := by
  simp only [promotable, Bool.and_eq_true, Bool.not_eq_true'] at h
  exact h.1.1

theorem promote_cases (measure : Comparator α) (threshold : α) (old new : Tree) (m : Matching)
    (p : NodeId × NodeId) :
    promote measure threshold old new m p = m ∨
      ∃ pn po, new.parent? p.1 = some pn ∧ m.Free pn po ∧
        promote measure threshold old new m p = m.link pn po := by
  unfold promote
  split
  · next pn po hpn hpo =>
    split
    · next h => exact .inr ⟨pn, po, hpn, free_of_promotable h, rfl⟩
    · exact .inl rfl
  · exact .inl rfl

def Grows (new : Tree) (m m' : Matching) : Prop :=
  m' = m ∨ m.size < m'.size ∧ room new m' < room new m

namespace Grows

theorem refl (new : Tree) (m : Matching) : Grows new m m := .inl rfl

theorem trans {m'' : Matching} (h : Grows new m m') (h' : Grows new m' m'') :
    Grows new m m'' := by
  rcases h with rfl | ⟨hsize, hroom⟩
  · exact h'
  · rcases h' with rfl | ⟨hsize', hroom'⟩
    · exact .inr ⟨hsize, hroom⟩
    · exact .inr ⟨hsize.trans hsize', hroom'.trans hroom⟩

theorem size_le (h : Grows new m m') : m.size ≤ m'.size := by
  rcases h with rfl | ⟨hsize, -⟩
  · exact le_rfl
  · exact hsize.le

theorem eq_of_size_eq (h : Grows new m m') (he : m'.size = m.size) : m' = m := by
  rcases h with rfl | ⟨hsize, -⟩
  · rfl
  · omega

end Grows

section Rounds

variable (wn : new.WellFormed)
include wn

theorem grows_promote (measure : Comparator α) (threshold : α) (old : Tree) (m : Matching)
    (p : NodeId × NodeId) : Grows new m (promote measure threshold old new m p) := by
  rcases promote_cases measure threshold old new m p with h | ⟨pn, po, hpn, hfree, h⟩
  · rw [h]
    exact .refl new m
  · have hsize := size_link_of_free hfree
    rw [h]
    exact .inr ⟨by omega, room_link_lt hfree (wn.parent_lt hpn)⟩

/-- A round that adds nothing finds nothing to do, for any pair it goes through. -/
theorem round_spec (measure : Comparator α) (threshold : α) (old : Tree) (m : Matching) :
    Grows new m (round measure threshold old new m) ∧
      ((round measure threshold old new m).size = m.size →
        ∀ p ∈ m.pairs, promote measure threshold old new m p = m) := by
  refine foldl_induction (P := fun pre m' ↦ Grows new m m' ∧ (m'.size = m.size →
    ∀ p ∈ pre, promote measure threshold old new m p = m)) ⟨.refl new m, nofun⟩ ?_
  rintro pre p post m' - ⟨hgrows, hidle⟩
  have hstep := grows_promote wn measure threshold old m' p
  refine ⟨hgrows.trans hstep, fun hsize ↦ ?_⟩
  have hle := hgrows.size_le
  have hle' := hstep.size_le
  -- the pairs before this one changed nothing, so it saw what the round began with
  have hm' : m' = m := hgrows.eq_of_size_eq (by omega)
  have hp : promote measure threshold old new m p = m := by
    rw [hm'] at hstep hsize
    exact hstep.eq_of_size_eq hsize
  intro q hq
  rcases List.mem_append.1 hq with hq | hq
  · exact hidle (by omega) q hq
  · rwa [List.mem_singleton.1 hq]

theorem round_eq_iff : round measure threshold old new m = m ↔
    (round measure threshold old new m).size = m.size :=
  ⟨congrArg size, (round_spec wn measure threshold old m).1.eq_of_size_eq⟩

theorem settled_of_round_eq (h : round measure threshold old new m = m) :
    Settled measure threshold old new m := by
  intro n o pn po hno hpn hpo hfree hscore
  by_contra hcovers
  have hidle : promote measure threshold old new m (n, o) = m :=
    (round_spec wn measure threshold old m).2 (congrArg size h) (n, o) (mem_pairs.2 hno)
  have hready : promotable measure threshold old new m pn po = true := by
    have hcovers : coversHalf old new m po pn = true := (Bool.not_eq_false _).mp hcovers
    simp [promotable, hfree.1, hfree.2, hscore, hcovers]
  have hlink : promote measure threshold old new m (n, o) = m.link pn po := by
    simp [promote, hpn, hpo, hready]
  have hsize := size_link_of_free hfree
  rw [← hlink, hidle] at hsize
  omega

theorem climbs_rounds (fuel : Nat) (m : Matching) (hfuel : room new m < fuel) :
    ∃ k, Climbs measure threshold old new k m (rounds measure threshold old new fuel m) ∧
      k + m.size ≤ (rounds measure threshold old new fuel m).size + 1 := by
  induction fuel generalizing m with
  | zero => omega
  | succ fuel ih =>
    rw [rounds]
    split
    · next h =>
      have heq := (round_eq_iff wn).2 h
      rw [heq]
      exact ⟨1, .last heq, by omega⟩
    · next h =>
      have hne := mt (round_eq_iff wn).1 h
      obtain ⟨hsize, hroom⟩ :=
        (round_spec wn measure threshold old m).1.resolve_left hne
      obtain ⟨k, hclimbs, hk⟩ := ih (round measure threshold old new m) (by omega)
      exact ⟨k + 1, .next hne hclimbs, by omega⟩

theorem Climbs.settled {k : Nat} (h : Climbs measure threshold old new k m m') :
    Settled measure threshold old new m' := by
  induction h with
  | last h => exact settled_of_round_eq wn h
  | next _ _ ih => exact ih

end Rounds

theorem OneToOne.foothold (h : seed.OneToOne) (thresholds : Thresholds α) :
    (foothold measure thresholds old new seed).OneToOne := by
  unfold Matching.foothold
  split
  · exact h.linkLeaves true
  · exact h

/-- The rounds come to an end where nothing is left to promote, one round after the last one that
adds a pair at the latest, and give up no pair on their way. -/
theorem settled_ascent (wn : new.WellFormed) (hs : seed.OneToOne) (measure : Comparator α)
    (thresholds : Thresholds α) (old : Tree) :
    let start := foothold measure thresholds old new seed
    let m := ascent measure thresholds old new seed
    bottomUp measure thresholds old new seed = m.linkRoots.propagate old new ∧
      (∃ k, Climbs measure thresholds.inner old new k start m ∧ k + start.size ≤ m.size + 1) ∧
      start.Extends m ∧ Settled measure thresholds.inner old new m := by
  intro start m
  have hstart : start.OneToOne := hs.foothold thresholds
  have hroom := room_le new start
  obtain ⟨k, hclimbs, hk⟩ : ∃ k, Climbs measure thresholds.inner old new k start m ∧
      k + start.size ≤ m.size + 1 := climbs_rounds wn (new.size + 1) start (by omega)
  exact ⟨rfl, ⟨k, hclimbs, hk⟩, (Extends.refl hstart).rounds hstart _, hclimbs.settled wn⟩

/-- From one of two calls up to the loop, and on to the root. -/
theorem settled_ascent_callsInLoop :
    let m := ascent (α := Rat) Comparator.process .standard callsInLoop callsInLoop
      (.link .empty 2 3)
    m.old? 1 = some 1 ∧ m.hasNew 3 = false ∧ m.size = 3 ∧
      (∃ k ≤ 3, Climbs Comparator.process (Thresholds.standard (α := Rat)).inner callsInLoop
        callsInLoop k (.link .empty 2 3) m) ∧
      Settled Comparator.process (Thresholds.standard (α := Rat)).inner callsInLoop
        callsInLoop m := by
  intro m
  have w : callsInLoop.WellFormed := wellFormed_ofList _ _ (by decide)
  obtain ⟨-, ⟨k, hclimbs, hk⟩, -, hsettled⟩ := settled_ascent w (OneToOne.empty.link 2 3)
    (Comparator.process : Comparator Rat) .standard callsInLoop
  have hsize : m.size = 3 := by decide +kernel
  have hstart : foothold (Comparator.process : Comparator Rat) .standard callsInLoop callsInLoop
      (.link .empty 2 3) = .link .empty 2 3 := rfl
  have hone : (link .empty 2 3).size = 1 := rfl
  rw [hstart] at hclimbs hk
  have hk : k + (link .empty 2 3).size ≤ m.size + 1 := hk
  exact ⟨by decide +kernel, by decide +kernel, hsize, ⟨k, by omega, hclimbs⟩, hsettled⟩

end Matching

end FlowMerge
