import FlowMerge.Proofs.Matching.Kinds
import FlowMerge.Proofs.Sequence.Longest

namespace FlowMerge

namespace Tree

variable {t : Tree} {a b x : NodeId} {i j : Nat}

theorem WellFormed.pairwise_ancestors (w : t.WellFormed) (x : NodeId) :
    (t.ancestors x).Pairwise fun a b ↦ t.Above b a ∧ b ≠ a := by
  induction x using w.up_induction with
  | h x ih =>
    cases hp : t.parent? x with
    | none =>
      rw [List.length_eq_zero_iff.1 (depth_of_top hp)]
      exact .nil
    | some p =>
      rw [w.ancestors_of_parent hp, List.pairwise_cons]
      refine ⟨fun b hb ↦ ?_, ih p hp⟩
      obtain ⟨q, hq, hbq⟩ := w.mem_ancestors.1 hb
      exact ⟨hbq.tail hq, fun he ↦ w.not_above_of_parent hq (he ▸ hbq)⟩

/-- Ancestors further along are further up. -/
theorem WellFormed.above_iff_of_ancestors (w : t.WellFormed) (ha : (t.ancestors x)[i]? = some a)
    (hb : (t.ancestors x)[j]? = some b) : t.Above b a ∧ b ≠ a ↔ i < j := by
  have hlt {i j : Nat} {a b : NodeId} (ha : (t.ancestors x)[i]? = some a)
      (hb : (t.ancestors x)[j]? = some b) (hij : i < j) : t.Above b a ∧ b ≠ a := by
    obtain ⟨hi, rfl⟩ := List.getElem?_eq_some_iff.1 ha
    obtain ⟨hj, rfl⟩ := List.getElem?_eq_some_iff.1 hb
    exact List.pairwise_iff_getElem.1 (w.pairwise_ancestors x) i j hi hj hij
  refine ⟨fun ⟨hab, hne⟩ ↦ ?_, hlt ha hb⟩
  rcases Nat.lt_trichotomy i j with hij | rfl | hij
  · exact hij
  · exact absurd (Option.some_inj.1 (hb.symm.trans ha)) hne
  · exact absurd (w.above_antisymm hab (hlt hb ha hij).1) hne

theorem WellFormed.depth_of_ancestors (w : t.WellFormed) (h : (t.ancestors x)[i]? = some a) :
    t.depth a + (i + 1) = t.depth x := by
  induction x using w.up_induction generalizing i with
  | h x ih =>
    cases hp : t.parent? x with
    | none =>
      rw [List.length_eq_zero_iff.1 (depth_of_top hp)] at h
      cases h
    | some p =>
      rw [w.ancestors_of_parent hp] at h
      rw [w.depth_of_parent hp]
      cases i with
      | zero => rw [Option.some_inj.1 h]
      | succ i =>
        have := ih p hp h
        omega

theorem WellFormed.depth_lt_of_above (w : t.WellFormed) (h : t.Above a x) (hne : a ≠ x) :
    t.depth a < t.depth x := by
  have ha : a ∈ t.ancestors x := w.mem_ancestors.2 ((above_iff.1 h).resolve_left hne)
  obtain ⟨i, hi⟩ := List.mem_iff_getElem?.1 ha
  have := w.depth_of_ancestors hi
  omega

end Tree

namespace Matching

open FlowMerge.Tree Score

variable {α : Type} [Score α] {base m : Matching} {n n₁ n₂ o o₁ o₂ : NodeId} {old new : Tree}
  {measure : Comparator α} {threshold : α} {thresholds : Thresholds α} {p : NodeId × NodeId}
  {ps : List (NodeId × NodeId)}

/-- Whether two nodes stand at one place where the labels along the paths above a new and an old
node are aligned. -/
def Aligned (old new : Tree) (p : NodeId × NodeId) (n o : NodeId) : Prop :=
  ∃ i j, (i, j) ∈ Sequence.commonPairs (fun a b ↦ new.label a == old.label b)
      (new.ancestors p.1) (old.ancestors p.2) ∧
    (new.ancestors p.1)[i]? = some n ∧ (old.ancestors p.2)[j]? = some o

theorem Aligned.above (wo : old.WellFormed) (wn : new.WellFormed) (h₁ : Aligned old new p n₁ o₁)
    (h₂ : Aligned old new p n₂ o₂) (hn : new.Above n₁ n₂) (hne : n₁ ≠ n₂) :
    old.Above o₁ o₂ ∧ o₁ ≠ o₂ := by
  obtain ⟨i₁, j₁, hm₁, hn₁, ho₁⟩ := h₁
  obtain ⟨i₂, j₂, hm₂, hn₂, ho₂⟩ := h₂
  have hlt : i₂ < i₁ := (wn.above_iff_of_ancestors hn₂ hn₁).1 ⟨hn, hne⟩
  rw [wo.above_iff_of_ancestors ho₂ ho₁]
  exact (Sequence.common_commonPairs _ _ _).snd_lt hm₂ hm₁ hlt

theorem Aligned.depth_eq (wo : old.WellFormed) (wn : new.WellFormed) (h : Aligned old new p n o)
    (hlabels : (new.ancestors p.1).map new.label = (old.ancestors p.2).map old.label) :
    old.depth o = new.depth n := by
  obtain ⟨i, j, hm, hn, ho⟩ := h
  have hsame : List.Forall₂ (fun a b ↦ (new.label a == old.label b) = true) (new.ancestors p.1)
      (old.ancestors p.2) := by
    simp only [beq_iff_eq]
    rw [← List.forall₂_map_right_iff (R := fun a b ↦ new.label a = b), ← hlabels,
      List.forall₂_map_right_iff]
    exact List.forall₂_same.2 fun _ _ ↦ rfl
  rw [Sequence.commonPairs_of_forall₂ hsame] at hm
  obtain ⟨k, -, hk⟩ := List.mem_map.1 hm
  obtain ⟨rfl, rfl⟩ := Prod.mk.inj hk
  have hlength : new.depth p.1 = old.depth p.2 := hsame.length_eq
  have hdn := wn.depth_of_ancestors hn
  have hdo := wo.depth_of_ancestors ho
  omega

/-- Nothing is tied that was not before, and what is proposed is aligned along some of the pairs and
close enough. -/
structure Proposed (measure : Comparator α) (threshold : α) (old new : Tree)
    (ps : List (NodeId × NodeId)) (base m : Matching) : Prop where
  old? : ∀ n, m.old? n = base.old? n
  aligned : ∀ n, ∀ o ∈ m.candidates n, ∃ p ∈ ps, Aligned old new p n o ∧
    lt (measure old o new n) threshold = true

namespace Proposed

theorem propose (h : Proposed measure threshold old new ps base m) (hp : p ∈ ps)
    (ha : Aligned old new p n o) (hlt : lt (measure old o new n) threshold = true) :
    Proposed measure threshold old new ps base (m.propose n o) := by
  refine ⟨h.old?, fun n' o' ho' ↦ ?_⟩
  rw [candidates_propose] at ho'
  split at ho'
  · next hn =>
    subst hn
    split at ho'
    · exact h.aligned n' o' ho'
    · rcases List.mem_append.1 ho' with ho' | ho'
      · exact h.aligned n' o' ho'
      · obtain rfl := List.mem_singleton.1 ho'
        exact ⟨p, hp, ha, hlt⟩
  · exact h.aligned n' o' ho'

theorem alignAncestors (h : Proposed measure threshold old new ps base m) (hp : p ∈ ps) :
    Proposed measure threshold old new ps base
      (alignAncestors measure threshold old new m p) :=
  alignAncestors_induction p h fun _ _ _ _ he h' hn ho _ _ hlt ↦
    h'.propose hp ⟨_, _, he, hn, ho⟩ hlt

theorem alignAll (h : Proposed measure threshold old new ps base m) :
    Proposed measure threshold old new ps base
      (ps.foldl (Matching.alignAncestors measure threshold old new) m) :=
  List.foldlRecOn ps _ h fun _ h _ hp ↦ h.alignAncestors hp

end Proposed

def leafPairs (old new : Tree) (m : Matching) : List (NodeId × NodeId) :=
  m.pairs.filter fun p ↦ p.1 != root && new.isLeaf p.1 && old.isLeaf p.2

theorem path_eq (measure : Comparator α) (thresholds : Thresholds α) (old new : Tree) :
    path measure thresholds old new .empty =
      (((leafPairs old new (withLeaves measure thresholds.leaf false old new)).foldl
        (alignAncestors measure thresholds.inner old new)
        (withLeaves measure thresholds.leaf false old new)).reduce
          (container (α := α) old new)).propagate old new := rfl

theorem extends_path : (withLeaves measure thresholds.leaf false old new).Extends
    (path measure thresholds old new .empty) := by
  have hone : (withLeaves measure thresholds.leaf false old new).OneToOne := oneToOne_withLeaves
  have hopen : Open (withLeaves measure thresholds.leaf false old new)
      (withLeaves measure thresholds.leaf false old new) := fun n o ho ↦ by
    rw [candidates_withLeaves] at ho
    cases ho
  obtain ⟨hext, hopen⟩ := (Extends.refl hone).alignAll hone measure thresholds.inner old new hopen
    (leafPairs old new (withLeaves measure thresholds.leaf false old new))
  rw [path_eq]
  exact (hext.reduce hone hopen).propagate hone

/-- What is tied after the leaves was proposed along the paths above them, or is a property. -/
theorem within_path : Within (fun n o ↦
      (withLeaves measure thresholds.leaf false old new).old? n = some o ∨
      (∃ p ∈ leafPairs old new (withLeaves measure thresholds.leaf false old new),
        Aligned old new p n o ∧ lt (measure old o new n) thresholds.inner = true) ∨
      new.isControlFlow n = false)
    (path measure thresholds old new .empty) := by
  have hproposed : Proposed measure thresholds.inner old new
      (leafPairs old new (withLeaves measure thresholds.leaf false old new))
      (withLeaves measure thresholds.leaf false old new) _ :=
    .alignAll ⟨fun _ ↦ rfl, fun n o ho ↦ by
      rw [candidates_withLeaves] at ho
      cases ho⟩
  rw [path_eq]
  exact Within.propagate (fun _ _ _ _ _ _ _ hn _ ↦ .inr (.inr hn))
    (Within.reduce (fun n o hno ↦ .inl (hproposed.old? n ▸ hno))
      fun n o ho ↦ .inr (.inl (hproposed.aligned n o ho)))

def TiesLeaves (old new : Tree) (m : Matching) (p : NodeId × NodeId) : Prop :=
  m.old? p.1 = some p.2 ∧ p.1 ∈ new.leaves ∧ p.2 ∈ old.leaves

/-- Inner nodes are tied along the paths above leaves that are tied as well. -/
theorem exists_aligned_of_path
    (hno : (path measure thresholds old new .empty).old? n = some o) (hn : n ∈ new.innerNodes) :
    ∃ p, TiesLeaves old new (path measure thresholds old new .empty) p ∧ Aligned old new p n o ∧
      lt (measure old o new n) thresholds.inner = true := by
  obtain ⟨-, hroot, hinner⟩ := mem_innerNodes.1 hn
  rcases within_path n o hno with hbase | ⟨p, hp, ha, hlt⟩ | hproperty
  · rcases within_withLeaves n o hbase with ⟨hr, -⟩ | ⟨hl, -⟩
    · exact absurd hr hroot
    · exact absurd hl (not_mem_leaves_of_inner hn)
  · rw [leafPairs, List.mem_filter, Bool.and_eq_true, Bool.and_eq_true, bne_iff_ne] at hp
    have hpo := mem_pairs.1 hp.1
    have hleaves := (within_withLeaves _ _ hpo).resolve_left fun hr ↦ hp.2.1.1 hr.1
    exact ⟨p, ⟨extends_path.kept _ _ hpo, hleaves⟩, ha, hlt⟩
  · rw [isInner, hproperty, Bool.false_and] at hinner
    cases hinner

/-- Of two inner nodes, one above the other, the counterparts are in the same order, unless they
were found along the paths above different leaves. -/
theorem above_or_apart_of_path (wo : old.WellFormed) (wn : new.WellFormed)
    (h₁ : (path measure thresholds old new .empty).old? n₁ = some o₁)
    (h₂ : (path measure thresholds old new .empty).old? n₂ = some o₂)
    (hn₁ : n₁ ∈ new.innerNodes) (hn₂ : n₂ ∈ new.innerNodes) (hn : new.Above n₁ n₂)
    (hne : n₁ ≠ n₂) :
    (old.Above o₁ o₂ ∧ o₁ ≠ o₂) ∨ ∃ p₁ p₂,
      TiesLeaves old new (path measure thresholds old new .empty) p₁ ∧ Aligned old new p₁ n₁ o₁ ∧
      TiesLeaves old new (path measure thresholds old new .empty) p₂ ∧ Aligned old new p₂ n₂ o₂ ∧
      ∀ p, ¬ (Aligned old new p n₁ o₁ ∧ Aligned old new p n₂ o₂) := by
  by_cases hboth : ∃ p, Aligned old new p n₁ o₁ ∧ Aligned old new p n₂ o₂
  · obtain ⟨p, ha₁, ha₂⟩ := hboth
    exact .inl (ha₁.above wo wn ha₂ hn hne)
  · obtain ⟨p₁, hp₁, ha₁, -⟩ := exists_aligned_of_path h₁ hn₁
    obtain ⟨p₂, hp₂, ha₂, -⟩ := exists_aligned_of_path h₂ hn₂
    exact .inr ⟨p₁, p₂, hp₁, ha₁, hp₂, ha₂, not_exists.1 hboth⟩

/-- Whether no two pairs of inner nodes cross each other. -/
def KeepsOrder (old new : Tree) (m : Matching) : Prop :=
  ∀ n₁ ∈ new.innerNodes, ∀ n₂ ∈ new.innerNodes, ∀ o₁ o₂, m.old? n₁ = some o₁ → m.old? n₂ = some o₂ →
    new.Above n₁ n₂ ∧ n₁ ≠ n₂ → ¬ (old.Above o₂ o₁ ∧ o₂ ≠ o₁)

/-- Where tied leaves have the same labels above them all order is kept. -/
theorem keepsOrder_path (wo : old.WellFormed) (wn : new.WellFormed)
    (h : ∀ p, TiesLeaves old new (path measure thresholds old new .empty) p →
      (new.ancestors p.1).map new.label = (old.ancestors p.2).map old.label) :
    KeepsOrder old new (path measure thresholds old new .empty) := by
  have hdepth {n o : NodeId} (hn : n ∈ new.innerNodes)
      (hno : (path measure thresholds old new .empty).old? n = some o) :
      old.depth o = new.depth n := by
    obtain ⟨p, hp, ha, -⟩ := exists_aligned_of_path hno hn
    exact ha.depth_eq wo wn (h p hp)
  rintro n₁ hn₁ n₂ hn₂ o₁ o₂ h₁ h₂ ⟨hn, hne⟩ ⟨ho, hone⟩
  have hlt := wn.depth_lt_of_above hn hne
  have hgt := wo.depth_lt_of_above ho hone
  rw [hdepth hn₁ h₁, hdepth hn₂ h₂] at hgt
  exact Nat.lt_asymm hlt hgt

def callInBothLoops : Tree :=
  .ofList { label := "description" }
    [(0, { label := "loop" }), (1, { label := "loop" }),
      (2, { label := "call", attributes := .ofList [("endpoint", "y")] }),
      (1, { label := "call", attributes := .ofList [("endpoint", "x")] })]

def loopsSwapped : Tree :=
  .ofList { label := "description" }
    [(0, { label := "loop" }), (1, { label := "call", attributes := .ofList [("endpoint", "y")] }),
      (1, { label := "loop" }),
      (3, { label := "call", attributes := .ofList [("endpoint", "x")] })]

theorem outer_loopsSwapped : (path (α := Rat) Comparator.process .standard callInBothLoops
    loopsSwapped .empty).old? 1 = some 2 := by decide +kernel

theorem inner_loopsSwapped : (path (α := Rat) Comparator.process .standard callInBothLoops
    loopsSwapped .empty).old? 3 = some 1 := by decide +kernel

/-- The outer loop is tied to the inner one by the first call, and the inner loop to the outer one
by the second. -/
theorem not_keepsOrder_loopsSwapped : ¬ KeepsOrder callInBothLoops loopsSwapped
    (path (α := Rat) Comparator.process .standard callInBothLoops loopsSwapped .empty) := by
  intro h
  have habove : loopsSwapped.Above 1 3 := .single (show loopsSwapped.parent? 3 = some 1 by decide)
  have habove' : callInBothLoops.Above 1 2 :=
    .single (show callInBothLoops.parent? 2 = some 1 by decide)
  exact h 1 (by decide) 3 (by decide) 2 1 outer_loopsSwapped inner_loopsSwapped
    ⟨habove, by decide⟩ ⟨habove', by decide⟩

theorem apart_loopsSwapped : ∃ p₁ p₂,
    TiesLeaves callInBothLoops loopsSwapped (path (α := Rat) Comparator.process .standard
      callInBothLoops loopsSwapped .empty) p₁ ∧ Aligned callInBothLoops loopsSwapped p₁ 1 2 ∧
    TiesLeaves callInBothLoops loopsSwapped (path (α := Rat) Comparator.process .standard
      callInBothLoops loopsSwapped .empty) p₂ ∧ Aligned callInBothLoops loopsSwapped p₂ 3 1 ∧
    ∀ p, ¬ (Aligned callInBothLoops loopsSwapped p 1 2 ∧
      Aligned callInBothLoops loopsSwapped p 3 1) := by
  have wo : callInBothLoops.WellFormed := wellFormed_ofList _ _ (by decide)
  have wn : loopsSwapped.WellFormed := wellFormed_ofList _ _ (by decide)
  have habove : loopsSwapped.Above 1 3 := .single (show loopsSwapped.parent? 3 = some 1 by decide)
  refine (above_or_apart_of_path wo wn outer_loopsSwapped inner_loopsSwapped (by decide) (by decide)
    habove (by decide)).resolve_left fun ⟨h, hne⟩ ↦ hne (wo.above_antisymm h ?_)
  exact .single (show callInBothLoops.parent? 2 = some 1 by decide)

end Matching

end FlowMerge
