import FlowMerge.Proofs.Matching.Itself
import FlowMerge.Proofs.Matching.Seed
import FlowMerge.Proofs.Sequence

namespace FlowMerge

namespace Matching

open Score Score.Lawful FlowMerge.Tree

variable {α : Type} [Score α] {base m : Matching} {S T : NodeId → Prop} {t : Tree} {n x : NodeId}
  {threshold : α} {thresholds : Thresholds α}

/-- Each node in `S` is proposed for itself, and nothing else is proposed. -/
structure Proposes (base : Matching) (S : NodeId → Prop) (m : Matching) : Prop where
  old? : ∀ x, m.old? x = base.old? x
  new? : ∀ x, m.new? x = base.new? x
  proposals : ∀ n olds, m.proposals[n]? = some olds ↔ olds = [n] ∧ S n

namespace Proposes

theorem hasNew (h : Proposes base S m) (x : NodeId) : m.hasNew x = base.hasNew x := by
  simp [Matching.hasNew, h.old?]

theorem hasOld (h : Proposes base S m) (x : NodeId) : m.hasOld x = base.hasOld x := by
  simp [Matching.hasOld, h.new?]

theorem congr (h : Proposes base S m) (hST : ∀ x, T x ↔ S x) : Proposes base T m :=
  (funext fun x ↦ propext (hST x) : T = S) ▸ h

theorem propose (h : Proposes base S m) (n : NodeId) :
    Proposes base (fun x ↦ S x ∨ x = n) (m.propose n n) := by
  refine ⟨h.old?, h.new?, fun x olds ↦ ?_⟩
  have hknown : m.candidates n = [] ∨ m.candidates n = [n] := by
    rw [candidates]
    cases hn : m.proposals[n]? with
    | none => exact .inl rfl
    | some olds => exact .inr ((h.proposals n olds).1 hn).1
  simp only [Matching.propose, Std.TreeMap.getElem?_insert, Nat.compare_eq_eq]
  by_cases hx : n = x
  · subst hx
    rcases hknown with hk | hk <;> simp [hk, eq_comm]
  · simp [hx, h.proposals, Ne.symm hx]

variable (hself : base.SelfTied)
include hself

theorem proposeAncestors [Lawful α] (h : Proposes base S m) (hpos : lt zero threshold = true)
    (path : List NodeId) (n : NodeId) :
    Proposes base (fun x ↦ S x ∨ base.hasNew x = false ∧ x = n)
      (proposeAncestors Comparator.process threshold t t path m n n) := by
  have hany : ((m.candidates n).any fun c ↦ c != n && path.contains c) = false := by
    rw [List.any_eq_false]
    intro c hc
    rw [candidates] at hc
    cases hn : m.proposals[n]? with
    | none => simp [hn] at hc
    | some olds =>
      obtain ⟨rfl, -⟩ := (h.proposals n olds).1 hn
      obtain rfl : c = n := by simpa [hn] using hc
      simp
  rw [Matching.proposeAncestors, h.hasNew, h.hasOld, hself.hasOld, Bool.or_self, hany,
    Comparator.process_self (.refl t), hpos]
  cases hn : base.hasNew n with
  | true =>
    refine h.congr fun x ↦ or_iff_left ?_
    rintro ⟨hx, rfl⟩
    rw [hn] at hx
    cases hx
  | false =>
    refine (h.propose n).congr fun x ↦ or_congr_right (and_iff_right_of_imp ?_)
    rintro rfl
    exact hn

end Proposes

theorem alignAncestors_self (measure : Comparator α) (l : NodeId) :
    alignAncestors measure threshold t t m (l, l) = (t.ancestors l).foldl (fun m n ↦
      proposeAncestors measure threshold t t (t.ancestors l) m n n) m := by
  have hsame : List.Forall₂ (fun a b ↦ (t.label a == t.label b) = true) (t.ancestors l)
      (t.ancestors l) := List.forall₂_same.2 fun x _ ↦ beq_self_eq_true _
  rw [alignAncestors, Sequence.commonPairs_of_forall₂ hsame, List.foldl_map]
  refine .trans ?_ (Sequence.foldl_range_getElem? _ m (t.ancestors l))
  congr 1
  funext m i
  dsimp only
  cases (t.ancestors l)[i]? <;> rfl

theorem Proposes.alignAll [Lawful α] (hself : base.SelfTied) (hpos : lt zero threshold = true)
    (hnone : ∀ n : NodeId, base.proposals[n]? = none) {ps : List (NodeId × NodeId)}
    (hps : ∀ p ∈ ps, p.1 = p.2) :
    Proposes base (fun x ↦ base.hasNew x = false ∧ ∃ l, (l, l) ∈ ps ∧ x ∈ t.ancestors l)
      (ps.foldl (alignAncestors Comparator.process threshold t t) base) := by
  refine foldl_induction (P := fun pre m ↦ Proposes base (fun x ↦ base.hasNew x = false ∧
    ∃ l, (l, l) ∈ pre ∧ x ∈ t.ancestors l) m) ⟨fun _ ↦ rfl, fun _ ↦ rfl, by simp [hnone]⟩ ?_
  rintro pre ⟨l, l'⟩ post m hsplit h
  obtain rfl : l = l' := hps (l, l') (hsplit ▸ List.mem_append_right _ List.mem_cons_self)
  rw [alignAncestors_self]
  have hpath : Proposes base (fun x ↦ (base.hasNew x = false ∧
      ∃ l, (l, l) ∈ pre ∧ x ∈ t.ancestors l) ∨ base.hasNew x = false ∧ x ∈ t.ancestors l)
      ((t.ancestors l).foldl (fun m n ↦ Matching.proposeAncestors Comparator.process threshold t t
        (t.ancestors l) m n n) m) := by
    refine foldl_induction (P := fun pre' m ↦ Proposes base (fun x ↦ (base.hasNew x = false ∧
      ∃ l, (l, l) ∈ pre ∧ x ∈ t.ancestors l) ∨ base.hasNew x = false ∧ x ∈ pre') m)
      (h.congr fun x ↦ by simp) fun pre' n post' m _ h ↦ ?_
    refine (h.proposeAncestors hself hpos (t.ancestors l) n).congr fun x ↦ ?_
    simp only [List.mem_append, List.mem_singleton, and_or_left, or_assoc]
  refine hpath.congr fun x ↦ ?_
  simp only [List.mem_append, List.mem_singleton, Prod.mk.injEq, and_self, or_and_right,
    exists_or, exists_eq_left, and_or_left]

theorem Proposes.reduce (h : Proposes base S m) (hself : base.SelfTied) :
    (m.reduce (container (α := α) t t)).SelfTied ∧
      ∀ x, (m.reduce (container (α := α) t t)).hasNew x = true ↔ base.hasNew x = true ∨ S x := by
  have hstart : SelfTied { m with proposals := {} } := by
    refine ⟨fun n o ↦ ?_, fun s r hsr ↦ hself.eq s r ((h.old? s).symm.trans hsr)⟩
    exact (iff_of_eq (congrArg (· = some o) (h.old? n))).trans
      ((hself.oneToOne n o).trans (iff_of_eq (congrArg (· = some n) (h.new? o))).symm)
  have hpending {n : NodeId} {olds : List NodeId} : (n, olds) ∈ m.pending ↔ olds = [n] ∧ S n := by
    rw [pending, List.mem_reverse, Std.TreeMap.mem_toList_iff_getElem?_eq_some, h.proposals]
  obtain ⟨htied, hnew⟩ : (m.reduce (container (α := α) t t)).SelfTied ∧
      ∀ x, (m.reduce (container (α := α) t t)).hasNew x = true ↔
        base.hasNew x = true ∨ ∃ olds, (x, olds) ∈ m.pending := by
    refine foldl_induction (P := fun pre (m' : Matching) ↦ m'.SelfTied ∧
      ∀ x, m'.hasNew x = true ↔ base.hasNew x = true ∨ ∃ olds, (x, olds) ∈ pre)
      ⟨hstart, fun x ↦ ?_⟩ ?_
    · show m.hasNew x = true ↔ _
      simp [h.hasNew]
    · rintro pre ⟨n, olds⟩ post m' hsplit ⟨htied, hnew⟩
      obtain ⟨rfl, -⟩ := hpending.1 (hsplit ▸ List.mem_append_right _ List.mem_cons_self)
      refine ⟨htied.link n, fun x ↦ (htied.hasNew_link n x).trans ?_⟩
      rw [hnew]
      simp only [List.mem_append, List.mem_singleton, Prod.mk.injEq, exists_or, exists_and_left,
        exists_eq, and_true]
      tauto
  refine ⟨htied, fun x ↦ (hnew x).trans (or_congr_right ?_)⟩
  simp [hpending]

/-- From tied leaves the algorithm reaches all control flow. -/
theorem tiesControlFlow_aligned [Lawful α] (hp : t.IsProcess) (hpos : lt zero threshold = true)
    (hself : base.SelfTied) (hnone : ∀ n : NodeId, base.proposals[n]? = none)
    (hbase : ∀ x, base.hasNew x = true ↔ x = root ∨ x ∈ t.leaves) :
    TiesControlFlow t (((base.pairs.filter fun p ↦
      p.1 != root && t.isLeaf p.1 && t.isLeaf p.2).foldl
        (alignAncestors Comparator.process threshold t t) base).reduce
          (container (α := α) t t)) := by
  have w := hp.wellFormed
  have hps : ∀ p ∈ base.pairs.filter fun p ↦ p.1 != root && t.isLeaf p.1 && t.isLeaf p.2,
      p.1 = p.2 := fun p hp ↦ (hself.eq p.1 p.2 (mem_pairs.1 (List.mem_filter.1 hp).1)).symm
  obtain ⟨htied, hnew⟩ := Proposes.reduce (α := α) (t := t)
    (Proposes.alignAll hself hpos hnone hps) hself
  refine ⟨htied, fun x ↦ ?_⟩
  rw [hnew, hbase]
  constructor
  · rintro ((rfl | hl) | ⟨-, l, hl, hx⟩)
    · exact ⟨w.root_mem_live, hp.root⟩
    · obtain ⟨hx, -, hl⟩ := mem_leaves.1 hl
      exact ⟨hx, (Bool.and_eq_true_iff.1 hl).1⟩
    · obtain ⟨hll, hleaf⟩ := List.mem_filter.1 hl
      simp only [Bool.and_eq_true, bne_iff_ne] at hleaf
      have hlive : l ∈ t.live :=
        (mem_leaves.1 (((hbase l).1 (hself.old?_iff.1 (mem_pairs.1 hll))).resolve_left hleaf.1.1)).1
      obtain ⟨p, hlp, hxp⟩ := w.mem_ancestors.1 hx
      have habove := hxp.tail hlp
      exact ⟨w.above_live hlive habove, hp.above hlive (Bool.and_eq_true_iff.1 hleaf.2).1 habove⟩
  · rintro ⟨hx, hcf⟩
    by_cases hfree : base.hasNew x = true
    · exact .inl ((hbase x).1 hfree)
    -- below an inner node there is a leaf, which proposes it
    obtain ⟨l, habove, hleaf⟩ := hp.exists_leaf hcf
    have hlive : l ∈ t.live := w.mem_live.2 ((w.mem_live.1 hx).trans habove)
    have hr : l ≠ root := by
      rintro rfl
      exact hfree ((hbase x).2 (.inl (above_of_top w.root_top habove)))
    have hl := (hbase l).2 (.inr (mem_leaves.2 ⟨hlive, hr, hleaf⟩))
    refine .inr ⟨Bool.eq_false_iff.2 hfree, l, ?_, ?_⟩
    · simp [mem_pairs, hself.old?_iff, hl, hr, hleaf]
    · rcases above_iff.1 habove with rfl | hup
      · exact absurd hl hfree
      · exact w.mem_ancestors.2 hup

theorem path_self [Lawful α] (hp : t.IsProcess) (hleaf : lt zero thresholds.leaf = true)
    (hinner : lt zero thresholds.inner = true) :
    ∀ x ∈ t.live, (path Comparator.process thresholds t t .empty).old? x = some x := by
  obtain ⟨hself, hmem⟩ := (SelfTied.empty.link root).linkLeaves (.refl t) hleaf false
  rw [path, linkRoots]
  refine (tiesControlFlow_aligned hp hinner hself (fun n ↦ ?_) fun x ↦ ?_).propagate hp
  · rw [proposals_linkLeaves]
    rfl
  · rw [hmem, SelfTied.empty.hasNew_link, hasNew_empty]
    simp

end Matching

end FlowMerge
