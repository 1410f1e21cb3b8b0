import FlowMerge.Proofs.Compare
import FlowMerge.Proofs.Lists
import FlowMerge.Proofs.Matching.Live

namespace FlowMerge

namespace Tree

variable {t u : Tree} {a d : NodeId}

namespace Alike

variable (h : Alike t u)
include h

theorem leaves : t.leaves = u.leaves := by
  have hleaf : t.isLeaf = u.isLeaf := funext fun x ↦ by
    rw [isLeaf, h.isControlFlow, h.children, isLeaf]
  rw [Tree.leaves, h.toSameShape.live, hleaf, Tree.leaves]

theorem innerNodes : t.innerNodes = u.innerNodes := by
  have hinner : t.isInner = u.isInner := funext fun x ↦ by
    rw [isInner, h.isControlFlow, h.children, isInner]
  rw [Tree.innerNodes, h.toSameShape.live, hinner, Tree.innerNodes]

theorem controlFlowBelow (x : NodeId) : t.controlFlowBelow x = u.controlFlowBelow x := by
  rw [Tree.controlFlowBelow, below, h.toSameShape.preorder, h.isControlFlow, Tree.controlFlowBelow,
    below]

end Alike

theorem mem_leaves : a ∈ u.leaves ↔ a ∈ u.live ∧ a ≠ root ∧ u.isLeaf a = true := by
  simp [leaves]

theorem mem_innerNodes : a ∈ u.innerNodes ↔ a ∈ u.live ∧ a ≠ root ∧ u.isInner a = true := by
  simp [innerNodes]

theorem isLeaf_or_isInner (ha : u.isControlFlow a = true) :
    u.isLeaf a = true ∨ u.isInner a = true := by
  rw [isLeaf, isInner, ha]
  cases (u.children a).any u.isControlFlow <;> simp

theorem root_or_leaf_or_inner (ha : a ∈ u.live) : a = root ∨ a ∈ u.leaves ∨ a ∈ u.innerNodes ↔
    a = root ∨ u.isControlFlow a = true := by
  by_cases hr : a = root
  · simp [hr]
  rw [mem_leaves, mem_innerNodes]
  simp only [ha, hr, ne_eq, not_false_eq_true, true_and, false_or]
  constructor
  · rintro (hl | hi)
    · exact (Bool.and_eq_true_iff.1 hl).1
    · exact (Bool.and_eq_true_iff.1 hi).1
  · exact isLeaf_or_isInner

theorem WellFormed.mem_controlFlowBelow (w : u.WellFormed) (ha : a < u.size) :
    d ∈ u.controlFlowBelow a ↔ u.Above a d ∧ d ≠ a ∧ u.isControlFlow d = true := by
  rw [controlFlowBelow, List.mem_filter, w.mem_below ha, and_assoc]

theorem WellFormed.nodup_controlFlowBelow (w : u.WellFormed) (ha : a < u.size) :
    (u.controlFlowBelow a).Nodup := (w.nodup_preorder ha).tail.filter _

theorem WellFormed.controlFlowBelow_ne_nil (w : u.WellFormed) (ha : a < u.size)
    (h : u.isInner a = true) : u.controlFlowBelow a ≠ [] := by
  rw [isInner, Bool.and_eq_true, List.any_eq_true] at h
  obtain ⟨-, c, hc, hcf⟩ := h
  have hp := w.mem_children.1 hc
  exact List.ne_nil_of_mem
    ((w.mem_controlFlowBelow ha).2 ⟨.single hp, (w.parent_ne hp).symm, hcf⟩)

theorem WellFormed.subtreeSize_lt (w : u.WellFormed) (ha : a < u.size) (had : u.Above a d)
    (hne : d ≠ a) : u.subtreeSize d < u.subtreeSize a := by
  have hd : d < u.size := by
    rcases above_iff.1 had with rfl | ⟨p, hp, -⟩
    · exact ha
    · exact lt_size_of_parent? hp
  have hnot : a ∉ u.preorder d := by
    rw [w.mem_preorder hd]
    exact fun hda ↦ hne (w.above_antisymm hda had)
  have hsub : a :: u.preorder d ⊆ u.preorder a := by
    intro x hx
    rw [w.mem_preorder ha]
    rcases List.mem_cons.1 hx with rfl | hx
    · exact .refl
    · exact had.trans ((w.mem_preorder hd).1 hx)
  exact ((List.nodup_cons.2 ⟨hnot, w.nodup_preorder hd⟩).subperm hsub).length_le

end Tree

namespace Matching

open Score Score.Lawful FlowMerge.Tree

variable {α : Type} [Score α] {m m' m'' : Matching} {t u : Tree} {n x c : NodeId} {threshold : α}

structure SelfTied (m : Matching) : Prop where
  oneToOne : m.OneToOne
  eq : ∀ s t, m.old? s = some t → t = s

namespace SelfTied

variable (h : m.SelfTied)
include h

theorem old?_iff : m.old? x = some x ↔ m.hasNew x = true := by
  rw [hasNew, Option.isSome_iff_exists]
  constructor
  · exact fun hx ↦ ⟨x, hx⟩
  · rintro ⟨y, hy⟩
    rwa [h.eq x y hy] at hy

theorem hasOld : m.hasOld x = m.hasNew x := by
  rw [Bool.eq_iff_iff, ← h.old?_iff, Matching.hasOld, Option.isSome_iff_exists]
  constructor
  · rintro ⟨y, hy⟩
    have hyx := (h.oneToOne y x).2 hy
    rwa [← h.eq y x hyx] at hyx
  · exact fun hx ↦ ⟨x, (h.oneToOne x x).1 hx⟩

theorem link (s : NodeId) : (m.link s s).SelfTied := by
  refine ⟨h.oneToOne.link s s, fun x y hxy ↦ ?_⟩
  rw [old?_link] at hxy
  split at hxy
  · next hx => rw [hx, Option.some_inj.1 hxy]
  · split at hxy
    · cases hxy
    · exact h.eq x y hxy

theorem hasNew_link (s x : NodeId) :
    (m.link s s).hasNew x = true ↔ x = s ∨ m.hasNew x = true := by
  rw [← (h.link s).old?_iff, ← h.old?_iff, old?_link]
  by_cases hx : x = s
  · simp [hx]
  · rw [if_neg hx, if_neg fun hs ↦ hx (h.eq x s ((h.oneToOne x s).2 hs)).symm]
    simp [hx]

end SelfTied

theorem foldl_best {cs : List (Candidate α)} {c : Candidate α} (b : Option (Candidate α))
    (hmin : ∀ d ∈ cs, d.better c = false) (hstrict : ∀ d ∈ cs, d = c ∨ c.better d = true)
    (hb : b = some c ∨ c ∈ cs ∧ ∀ d, b = some d → d = c ∨ c.better d = true) :
    cs.foldl (fun b c ↦ match b with
      | none => some c
      | some d => some (if c.better d then c else d)) b = some c := by
  induction cs generalizing b with
  | nil => exact hb.resolve_right fun h ↦ absurd h.1 List.not_mem_nil
  | cons x cs ih =>
    refine ih _ (fun d hd ↦ hmin d (List.mem_cons_of_mem _ hd))
      (fun d hd ↦ hstrict d (List.mem_cons_of_mem _ hd)) ?_
    rcases hb with rfl | ⟨hc, hb⟩
    · -- the best one is kept
      left
      dsimp only
      rw [if_neg (Bool.eq_false_iff.1 (hmin x List.mem_cons_self))]
    · rcases List.mem_cons.1 hc with rfl | hc
      · left
        cases b with
        | none => rfl
        | some d =>
          rcases hb d rfl with rfl | hbetter
          · exact congrArg some (ite_self d)
          · exact congrArg some (if_pos hbetter)
      · right
        refine ⟨hc, fun d hd ↦ ?_⟩
        have hx := hstrict x List.mem_cons_self
        cases b with
        | none => exact Option.some_inj.1 hd ▸ hx
        | some e =>
          rw [← Option.some_inj.1 hd]
          split
          · exact hx
          · exact hb e rfl

theorem best_eq {cs : List (Candidate α)} {c : Candidate α} (hc : c ∈ cs)
    (hmin : ∀ d ∈ cs, d.better c = false) (hstrict : ∀ d ∈ cs, d = c ∨ c.better d = true) :
    best cs = some c := foldl_best none hmin hstrict (.inr ⟨hc, nofun⟩)

theorem distance_self (i : Nat) : distance i i = 0 := by
  rw [distance]
  omega

theorem distance_pos {i j : Nat} (h : i ≠ j) : 0 < distance i j := by
  rw [distance]
  omega

theorem linkBest_self {order olds : List NodeId} {cost : NodeId → α} (hn : n ∈ olds)
    (hmem : ∀ o ∈ olds, o ∈ order) (hcost : cost n = zero) (hnonneg : ∀ o ∈ olds, Nonneg (cost o))
    (hpos : lt zero threshold = true) :
    linkBest order order threshold cost olds m n = m.link n n := by
  have hzero := hnonneg n hn
  rw [hcost] at hzero
  have hbest : best (olds.map fun o ↦
      (⟨cost o, distance (place order o) (place order n), o⟩ : Candidate α)) =
        some ⟨zero, 0, n⟩ := by
    refine best_eq ?_ ?_ ?_
    · refine List.mem_map.2 ⟨n, hn, ?_⟩
      rw [hcost, distance_self]
    · intro d hd
      obtain ⟨o, ho, rfl⟩ := List.mem_map.1 hd
      simp [Candidate.better, (hnonneg o ho).not_lt]
    · intro d hd
      obtain ⟨o, ho, rfl⟩ := List.mem_map.1 hd
      by_cases hon : o = n
      · left
        rw [hon, hcost, distance_self]
      · -- another candidate is farther away, if it does not cost more
        right
        have hfar : 0 < distance (place order o) (place order n) :=
          distance_pos fun he ↦ hon ((List.idxOf_inj (hmem o ho)).1 he)
        rcases (hnonneg o ho).comparable with hlt | heq
        · simp [Candidate.better, hlt]
        · simp [Candidate.better, heq, hfar]
  rw [linkBest, hbest]
  dsimp only
  rw [if_pos hpos]

theorem SelfTied.foldl {f : Matching → NodeId → Matching} {ns : List NodeId} (hm : m.SelfTied)
    (hf : ∀ pre n post m', ns = pre ++ n :: post → m'.SelfTied →
      (∀ x, m'.hasNew x = true ↔ m.hasNew x = true ∨ x ∈ pre) →
        f m' n = if m'.hasNew n then m' else m'.link n n) :
    (ns.foldl f m).SelfTied ∧
      ∀ x, (ns.foldl f m).hasNew x = true ↔ m.hasNew x = true ∨ x ∈ ns := by
  refine foldl_induction (P := fun pre (m' : Matching) ↦ m'.SelfTied ∧
    ∀ x, m'.hasNew x = true ↔ m.hasNew x = true ∨ x ∈ pre) ⟨hm, fun x ↦ by simp⟩
    fun pre n post m' hsplit ⟨hself, hnew⟩ ↦ ?_
  rw [hf pre n post m' hsplit hself hnew]
  split
  · next hn =>
    refine ⟨hself, fun x ↦ (hnew x).trans ?_⟩
    rw [List.mem_append, List.mem_singleton, ← or_assoc]
    refine (or_iff_left_of_imp ?_).symm
    rintro rfl
    exact (hnew x).1 hn
  · refine ⟨hself.link n, fun x ↦ ?_⟩
    rw [hself.hasNew_link, hnew, List.mem_append, List.mem_singleton]
    tauto

theorem overlap_self [Lawful α] {below : List NodeId} (hm : m.SelfTied) (hne : below ≠ [])
    (hall : ∀ d ∈ below, m.hasNew d = true) : (overlap m below below : α) = one := by
  have hcommon : (below.countP fun d ↦ (m.old? d).any below.contains) = below.length := by
    rw [List.countP_eq_length]
    intro d hd
    rw [hm.old?_iff.2 (hall d hd), Option.any_some]
    exact List.contains_iff_mem.2 hd
  have hpos : 0 < below.length := List.length_pos_of_ne_nil hne
  rw [overlap, hcommon]
  rw [if_neg (by omega), Nat.two_mul]
  exact ratio_self (by omega)

theorem nonneg_overlap [Lawful α] {oldBelow newBelow : List NodeId} (hm : m.SelfTied)
    (hnd : newBelow.Nodup) : Nonneg (one - overlap m oldBelow newBelow : α) := by
  rw [overlap]
  split
  · exact nonneg_sub Nat.one_pos (Nat.zero_le 1)
  · next hne =>
    have hnew : newBelow.countP (fun d ↦ (m.old? d).any oldBelow.contains) ≤ newBelow.length :=
      List.countP_le_length
    have hold : newBelow.countP (fun d ↦ (m.old? d).any oldBelow.contains) ≤ oldBelow.length := by
      rw [List.countP_eq_length_filter]
      refine ((hnd.filter _).subperm fun d hd ↦ ?_).length_le
      obtain ⟨y, hy, hmem⟩ := (Option.any_eq_true _ _).1 (List.mem_filter.1 hd).2
      rw [hm.eq d y hy] at hmem
      exact List.contains_iff_mem.1 hmem
    exact nonneg_sub (Nat.pos_of_ne_zero hne) (by omega)

section ControlFlow

variable [Lawful α] (h : Tree.Alike t u) (w : u.WellFormed) (hpos : lt zero threshold = true)
include h hpos

theorem SelfTied.linkLeaves (byLabel : Bool) (hm : m.SelfTied) :
    (linkLeaves Comparator.process threshold byLabel t u m).SelfTied ∧ ∀ x,
      (linkLeaves Comparator.process threshold byLabel t u m).hasNew x = true ↔
        m.hasNew x = true ∨ x ∈ u.leaves := by
  rw [Matching.linkLeaves]
  dsimp only
  rw [h.leaves, h.toSameShape.live]
  refine hm.foldl fun pre n post m' hsplit _ hnew ↦ ?_
  have hn : n ∈ u.leaves := hsplit ▸ List.mem_append_right _ List.mem_cons_self
  by_cases htied : m'.hasNew n = true
  · rw [if_pos htied, if_pos htied]
  rw [if_neg htied, if_neg htied]
  have hfree : n ∈ u.leaves.filter fun o ↦ !m.hasOld o := by
    rw [List.mem_filter, hm.hasOld, Bool.not_eq_true', Bool.eq_false_iff]
    exact ⟨hn, fun hmn ↦ htied ((hnew n).2 (.inl hmn))⟩
  have hlive : ∀ o ∈ u.leaves.filter fun o ↦ !m.hasOld o, o ∈ u.live := fun o ho ↦
    (Tree.mem_leaves.1 (List.mem_filter.1 ho).1).1
  refine linkBest_self ?_ (fun o ho ↦ hlive o ?_) (Comparator.process_self h)
    (fun o _ ↦ Comparator.nonneg_process) hpos
  · cases byLabel with
    | true =>
      refine List.mem_filter.2 ⟨hfree, ?_⟩
      rw [Tree.label, h.content, Tree.label]
      exact beq_self_eq_true _
    | false => exact hfree
  · cases byLabel with
    | true => exact (List.mem_filter.1 ho).1
    | false => exact ho

include w

omit h hpos [Lawful α] in
theorem inner_before {pre post : List NodeId} (hsplit : (((u.innerNodes.map fun n ↦
      (u.subtreeSize n, n)).mergeSort fun x y ↦ x.1 ≤ y.1).map Prod.snd) = pre ++ n :: post)
    (hd : x ∈ u.innerNodes) (hn : u.Above n x) (hne : x ≠ n) : x ∈ pre := by
  have hperm := List.mergeSort_perm (u.innerNodes.map fun n ↦ (u.subtreeSize n, n))
    fun x y ↦ decide (x.1 ≤ y.1)
  have hmem {y : NodeId} : y ∈ pre ++ n :: post ↔ y ∈ u.innerNodes := by
    rw [← hsplit, (hperm.map Prod.snd).mem_iff, List.map_map]
    simp
  have hsorted : (pre ++ n :: post).Pairwise fun a b ↦ u.subtreeSize a ≤ u.subtreeSize b := by
    rw [← hsplit, List.pairwise_map]
    have hpairs : ((u.innerNodes.map fun n ↦ (u.subtreeSize n, n)).mergeSort
        fun x y ↦ decide (x.1 ≤ y.1)).Pairwise fun x y ↦ decide (x.1 ≤ y.1) = true := by
      refine List.pairwise_mergeSort (fun x y z hxy hyz ↦ ?_) (fun x y ↦ ?_) _
      · simp only [decide_eq_true_eq] at *
        omega
      · simp only [Bool.or_eq_true, decide_eq_true_eq]
        omega
    refine hpairs.imp_of_mem fun {x y} hx hy hle ↦ ?_
    obtain ⟨a, -, rfl⟩ := List.mem_map.1 (hperm.mem_iff.1 hx)
    obtain ⟨b, -, rfl⟩ := List.mem_map.1 (hperm.mem_iff.1 hy)
    simpa using hle
  -- what is below a node has a smaller subtree
  have hlt := w.subtreeSize_lt (w.live_lt (Tree.mem_innerNodes.1
    (hmem.1 (List.mem_append_right _ List.mem_cons_self))).1) hn hne
  rcases List.mem_append.1 (hmem.2 hd) with hx | hx
  · exact hx
  · have hle := (List.pairwise_cons.1 (List.pairwise_append.1 hsorted).2.1).1
    rcases List.mem_cons.1 hx with rfl | hx
    · exact absurd rfl hne
    · exact absurd hlt (Nat.not_lt_of_le (hle x hx))

/-- If all leaves are tied, all free inner nodes are tied to themselves. -/
theorem SelfTied.linkInner (hm : m.SelfTied) (hleaves : ∀ x ∈ u.leaves, m.hasNew x = true) :
    (linkInner Comparator.process threshold t u m).SelfTied ∧ ∀ x,
      (linkInner Comparator.process threshold t u m).hasNew x = true ↔
        m.hasNew x = true ∨ x ∈ u.innerNodes := by
  let bySize := (u.innerNodes.map fun n ↦ (u.subtreeSize n, n)).mergeSort fun x y ↦ x.1 ≤ y.1
  have hmem {x : NodeId} : x ∈ bySize.map Prod.snd ↔ x ∈ u.innerNodes := by
    rw [((List.mergeSort_perm _ _).map Prod.snd).mem_iff, List.map_map]
    simp
  have hfold : Matching.linkInner Comparator.process threshold t u m =
      (bySize.map Prod.snd).foldl (fun m' n ↦ if m'.hasNew n then m' else
        linkBest u.live u.live threshold (fun o ↦ ratio 4 10 * Comparator.process t o u n +
          ratio 6 10 * (one - overlap m' (u.controlFlowBelow o) (u.controlFlowBelow n)))
          (u.innerNodes.filter fun o ↦ !m.hasOld o) m' n) m := by
    rw [Matching.linkInner, h.innerNodes, h.toSameShape.live, List.foldl_map]
    simp only [h.controlFlowBelow]
    rfl
  rw [hfold]
  simp only [← hmem]
  refine hm.foldl fun pre n post m' hsplit hself hnew ↦ ?_
  by_cases htied : m'.hasNew n = true
  · rw [if_pos htied, if_pos htied]
  rw [if_neg htied, if_neg htied]
  have hn : n ∈ u.innerNodes := hmem.1 (hsplit ▸ List.mem_append_right _ List.mem_cons_self)
  obtain ⟨hnl, hnr, hinner⟩ := Tree.mem_innerNodes.1 hn
  have hlt := w.live_lt hnl
  -- what is below has the lower size, so it had its turn unless it is a leaf
  have hbelow : ∀ d ∈ u.controlFlowBelow n, m'.hasNew d = true := by
    intro d hd
    obtain ⟨habove, hne, hcf⟩ := (w.mem_controlFlowBelow hlt).1 hd
    have hdl : d ∈ u.live := w.mem_live.2 ((w.mem_live.1 hnl).trans habove)
    have hroot : d ≠ root := by
      rintro rfl
      exact hnr (above_of_top w.root_top habove)
    rw [hnew]
    rcases Tree.isLeaf_or_isInner hcf with hl | hi
    · exact .inl (hleaves d (Tree.mem_leaves.2 ⟨hdl, hroot, hl⟩))
    · exact .inr (inner_before w hsplit (Tree.mem_innerNodes.2 ⟨hdl, hroot, hi⟩) habove hne)
  have hne := w.controlFlowBelow_ne_nil hlt hinner
  refine linkBest_self ?_ (fun o ho ↦ ?_) ?_ (fun o ho ↦ ?_) hpos
  · rw [List.mem_filter, hm.hasOld]
    refine ⟨hn, ?_⟩
    rw [Bool.not_eq_true', Bool.eq_false_iff]
    exact fun hmn ↦ htied ((hnew n).2 (.inl hmn))
  · exact (Tree.mem_innerNodes.1 (List.mem_filter.1 ho).1).1
  · rw [Comparator.process_self h, overlap_self hself hne hbelow, one_sub_one,
      ratio_mul_zero (by decide), ratio_mul_zero (by decide), zero_add_zero]
  · exact nonneg_add (nonneg_ratio_mul (by decide) (by decide) Comparator.nonneg_process)
      (nonneg_ratio_mul (by decide) (by decide)
        (nonneg_overlap hself (w.nodup_controlFlowBelow hlt)))

omit hpos in
theorem SelfTied.linkControlFlow {thresholds : Thresholds α}
    (hleaf : lt zero thresholds.leaf = true) (hinner : lt zero thresholds.inner = true)
    (hm : m.SelfTied) (hroot : m.hasNew root = true) :
    (Matching.linkInner Comparator.process thresholds.inner t u
      (Matching.linkLeaves Comparator.process thresholds.leaf true t u m.linkRoots)).SelfTied ∧
    ∀ x ∈ u.live, ((Matching.linkInner Comparator.process thresholds.inner t u
      (Matching.linkLeaves Comparator.process thresholds.leaf true t u m.linkRoots)).hasNew x =
        true ↔ m.hasNew x = true ∨ u.isControlFlow x = true) := by
  obtain ⟨hl, hlmem⟩ := (hm.link root).linkLeaves h hleaf true
  obtain ⟨hi, himem⟩ := hl.linkInner h w hinner fun x hx ↦ (hlmem x).2 (.inr hx)
  refine ⟨hi, fun x hx ↦ ?_⟩
  rw [linkRoots, himem, hlmem, hm.hasNew_link, or_comm (a := x = root), or_assoc, or_assoc,
    Tree.root_or_leaf_or_inner hx]
  refine ⟨?_, fun h ↦ h.imp_right .inr⟩
  rintro (hm | rfl | hcf)
  · exact .inl hm
  · exact .inl hroot
  · exact .inr hcf

end ControlFlow

/-- From one matching to another, properties are tied to themselves below nodes in `R`, and all the
way down. -/
structure Spread (u : Tree) (R : NodeId → Prop) (m m' : Matching) : Prop where
  selfTied : m'.SelfTied
  mono : ∀ x, m.hasNew x = true → m'.hasNew x = true
  parent : ∀ x, m'.hasNew x = true → m.hasNew x = false → u.isControlFlow x = false ∧
    ∃ q, u.parent? x = some q ∧ (R q ∨ m'.hasNew q = true ∧ m.hasNew q = false)
  below : ∀ x, m'.hasNew x = true → m.hasNew x = false → ∀ c ∈ u.children x,
    u.isControlFlow c = false → m'.hasNew c = true

namespace Spread

variable {R : NodeId → Prop}

theorem refl (h : m.SelfTied) : Spread u R m m where
  selfTied := h
  mono _ hx := hx
  parent _ hx hx' := absurd hx (Bool.eq_false_iff.1 hx')
  below _ hx hx' := absurd hx (Bool.eq_false_iff.1 hx')

theorem trans (h : Spread u R m m') (h' : Spread u R m' m'') : Spread u R m m'' where
  selfTied := h'.selfTied
  mono x hx := h'.mono x (h.mono x hx)
  parent x hx hx' := by
    cases hmid : m'.hasNew x with
    | true =>
      obtain ⟨hp, q, hq, hR | ⟨hnew, hold⟩⟩ := h.parent x hmid hx'
      · exact ⟨hp, q, hq, .inl hR⟩
      · exact ⟨hp, q, hq, .inr ⟨h'.mono q hnew, hold⟩⟩
    | false =>
      obtain ⟨hp, q, hq, hR | ⟨hnew, hold⟩⟩ := h'.parent x hx hmid
      · exact ⟨hp, q, hq, .inl hR⟩
      · refine ⟨hp, q, hq, .inr ⟨hnew, ?_⟩⟩
        rw [Bool.eq_false_iff] at hold ⊢
        exact fun hm ↦ hold (h.mono q hm)
  below x hx hx' c hc hp := by
    cases hmid : m'.hasNew x with
    | true => exact h'.mono c (h.below x hmid hx' c hc hp)
    | false => exact h'.below x hx hmid c hc hp

theorem weaken {S : NodeId → Prop} (h : Spread u R m m') (hRS : ∀ q, R q → S q) :
    Spread u S m m' where
  selfTied := h.selfTied
  mono := h.mono
  parent x hx hx' := by
    obtain ⟨hp, q, hq, hR⟩ := h.parent x hx hx'
    exact ⟨hp, q, hq, hR.imp_left (hRS q)⟩
  below := h.below

theorem link {p : NodeId} (hm : m.SelfTied) (hfree : m.hasNew c = false)
    (hprop : u.isControlFlow c = false) (hc : u.parent? c = some p)
    (h : Spread u (· = c) (m.link c c) m')
    (hbelow : ∀ d ∈ u.children c, u.isControlFlow d = false → m'.hasNew d = true) :
    Spread u (· = p) m m' := by
  have hlink (x : NodeId) : (m.link c c).hasNew x = false ↔ x ≠ c ∧ m.hasNew x = false := by
    rw [Bool.eq_false_iff, Ne, hm.hasNew_link, not_or, Bool.not_eq_true]
  have hself : m'.hasNew c = true := h.mono c ((hm.hasNew_link c c).2 (.inl rfl))
  refine ⟨h.selfTied, fun x hx ↦ h.mono x ((hm.hasNew_link c x).2 (.inr hx)), ?_, ?_⟩
  · intro x hx hx'
    by_cases hxc : x = c
    · rw [hxc]
      exact ⟨hprop, p, hc, .inl rfl⟩
    · obtain ⟨hxp, q, hq, rfl | ⟨hnew, hold⟩⟩ := h.parent x hx ((hlink x).2 ⟨hxc, hx'⟩)
      · exact ⟨hxp, q, hq, .inr ⟨hself, hfree⟩⟩
      · exact ⟨hxp, q, hq, .inr ⟨hnew, ((hlink q).1 hold).2⟩⟩
  · intro x hx hx'
    by_cases hxc : x = c
    · rw [hxc]
      exact hbelow
    · exact h.below x hx ((hlink x).2 ⟨hxc, hx'⟩)

theorem foldl {ι : Type} {f : Matching → ι → Matching} {steps : List ι}
    (Done : ι → Matching → Prop) (hm : m.SelfTied)
    (hmono : ∀ i {m' m''}, Spread u R m' m'' → Done i m' → Done i m'')
    (hf : ∀ pre i post m', steps = pre ++ i :: post → m'.SelfTied → (∀ j ∈ pre, Done j m') →
      Spread u R m' (f m' i) ∧ Done i (f m' i)) :
    Spread u R m (steps.foldl f m) ∧ ∀ i ∈ steps, Done i (steps.foldl f m) :=
  foldl_done (.refl hm) .trans (fun i _ _ _ ↦ hmono i) fun pre i post m' hsplit h hdone ↦
    hf pre i post m' hsplit h.selfTied hdone

end Spread

section Properties

variable (h : Tree.Alike t u) (w : u.WellFormed)
include h

theorem find_self {pre post : List NodeId} (hm : m.SelfTied) (hfree : m.hasNew c = false)
    (hprop : u.isControlFlow c = false) (hsplit : u.children n = pre ++ c :: post)
    (hpre : ∀ x ∈ pre, u.isControlFlow x = false → m.hasNew x = true) :
    (t.children n).find? (isFreeProperty t m (u.label c)) = some c := by
  rw [h.children, List.find?_eq_some_iff_append]
  refine ⟨?_, pre, post, hsplit, fun x hx ↦ ?_⟩
  · rw [isFreeProperty, h.isControlFlow, hprop, hm.hasOld, hfree, Tree.label, h.content, Tree.label]
    simp
  · rw [isFreeProperty, h.isControlFlow, hm.hasOld]
    cases hcf : u.isControlFlow x with
    | true => rfl
    | false => simp [hpre x hx hcf]

include w

theorem SelfTied.linkProperties (fuel : Nat) (hm : m.SelfTied) (hn : n < u.size)
    (hfuel : u.size ≤ fuel + u.depth n) :
    Spread u (· = n) m (linkProperties t u fuel m (n, n)) ∧
      ∀ c ∈ u.children n, u.isControlFlow c = false →
        (linkProperties t u fuel m (n, n)).hasNew c = true := by
  -- with each level the depth grows by what the fuel shrinks
  induction fuel generalizing m n with
  | zero =>
    have hdepth := w.depth_lt hn
    omega
  | succ fuel ih =>
    rw [Matching.linkProperties]
    refine Spread.foldl (fun c m ↦ u.isControlFlow c = false → m.hasNew c = true) hm
      (fun c _ _ h hc hprop ↦ h.mono c (hc hprop)) fun pre c post m hsplit hm hpre ↦ ?_
    have hc : c ∈ u.children n := hsplit ▸ List.mem_append_right _ List.mem_cons_self
    have hp := w.mem_children.1 hc
    split
    · next hskip =>
      refine ⟨.refl hm, fun hprop ↦ ?_⟩
      rwa [hprop, Bool.false_or] at hskip
    · next hskip =>
      obtain ⟨hprop, hfree⟩ := Bool.or_eq_false_iff.1 (Bool.eq_false_iff.2 hskip)
      have hdepth := w.depth_of_parent hp
      obtain ⟨hspread, hbelow⟩ := ih (hm.link c) (w.child_lt hc) (by omega)
      rw [find_self h hm hfree hprop hsplit hpre]
      refine ⟨.link hm hfree hprop hp hspread hbelow, fun _ ↦ ?_⟩
      exact hspread.mono c ((hm.hasNew_link c c).2 (.inl rfl))

theorem SelfTied.propagate (hm : m.SelfTied) (hlive : PairsLive t u m) :
    Spread u (fun q ↦ u.isControlFlow q = true) m (m.propagate t u) ∧
      ∀ q, m.hasNew q = true → u.isControlFlow q = true → ∀ c ∈ u.children q,
        u.isControlFlow c = false → (m.propagate t u).hasNew c = true := by
  have hall : Spread u (fun q ↦ u.isControlFlow q = true) m (m.propagate t u) ∧
      ∀ p ∈ m.pairs.filter (fun p ↦ u.isControlFlow p.1 && t.isControlFlow p.2),
        ∀ c ∈ u.children p.1, u.isControlFlow c = false → (m.propagate t u).hasNew c = true := by
    refine Spread.foldl (fun (p : NodeId × NodeId) m ↦ ∀ c ∈ u.children p.1,
      u.isControlFlow c = false → m.hasNew c = true) hm
      (fun _ _ _ h hall c hc hprop ↦ h.mono c (hall c hc hprop)) ?_
    rintro pre ⟨n, o⟩ post m' hsplit hm' -
    have hp : (n, o) ∈ m.pairs.filter fun p ↦ u.isControlFlow p.1 && t.isControlFlow p.2 :=
      hsplit ▸ List.mem_append_right _ List.mem_cons_self
    obtain ⟨hp, hcf⟩ := List.mem_filter.1 hp
    have hno := mem_pairs.1 hp
    obtain rfl := hm.eq n o hno
    obtain ⟨hspread, hbelow⟩ := hm'.linkProperties h w u.size (w.live_lt (hlive o o hno).1)
      (Nat.le_add_right _ _)
    exact ⟨hspread.weaken fun _ he ↦ he ▸ (Bool.and_eq_true_iff.1 hcf).1, hbelow⟩
  refine ⟨hall.1, fun q hq hcf ↦ hall.2 (q, q) (List.mem_filter.2 ⟨?_, ?_⟩)⟩
  · exact mem_pairs.2 (hm.old?_iff.2 hq)
  · rw [h.isControlFlow, hcf]
    rfl

end Properties

/-- Between trees that are alike the algorithm by labels ties nodes to themselves: besides the seed
all control flow, and the properties of control flow and of properties it ties. -/
theorem SelfTied.bucket [Lawful α] {thresholds : Thresholds α} (h : Tree.Alike t u)
    (w : u.WellFormed) (hleaf : lt zero thresholds.leaf = true)
    (hinner : lt zero thresholds.inner = true) (hm : m.SelfTied) (hlive : PairsLive t u m)
    (hroot : m.hasNew root = true) :
    (bucket Comparator.process thresholds t u m).SelfTied ∧ ∀ x ∈ u.live,
      ((bucket Comparator.process thresholds t u m).hasNew x = true ↔
        m.hasNew x = true ∨ u.isControlFlow x = true ∨ ∃ q, u.parent? x = some q ∧
          (u.isControlFlow q = true ∨ m.hasNew q = false ∧
            (bucket Comparator.process thresholds t u m).hasNew q = true)) := by
  have wt : t.WellFormed := h.toSameShape.wellFormed w
  obtain ⟨hfirst, hbefore⟩ := hm.linkControlFlow h w hleaf hinner hroot
  obtain ⟨hspread, hbelow⟩ := hfirst.propagate h w
    ((hlive.link w.root_mem_live wt.root_mem_live).linkControlFlow true _ _)
  change Spread u _ _ (Matching.bucket Comparator.process thresholds t u m) at hspread
  change ∀ q, _ → _ → ∀ c ∈ _, _ →
    (Matching.bucket Comparator.process thresholds t u m).hasNew c = true at hbelow
  generalize Matching.linkInner Comparator.process thresholds.inner t u
    (Matching.linkLeaves Comparator.process thresholds.leaf true t u m.linkRoots) = m₁ at *
  refine ⟨hspread.selfTied, fun x hx ↦ ⟨fun hnew ↦ ?_, ?_⟩⟩
  · -- what is tied only by its parent is a property
    cases hfirst : m₁.hasNew x with
    | true => exact ((hbefore x hx).1 hfirst).imp_right .inl
    | false =>
      obtain ⟨-, q, hq, hcf | ⟨hqnew, hqfirst⟩⟩ := hspread.parent x hnew hfirst
      · exact .inr (.inr ⟨q, hq, .inl hcf⟩)
      · refine .inr (.inr ⟨q, hq, .inr ⟨?_, hqnew⟩⟩)
        rw [Bool.eq_false_iff] at hqfirst ⊢
        exact fun hseed ↦ hqfirst ((hbefore q (w.parent_live hx hq)).2 (.inl hseed))
  · rintro (hseed | hcf | ⟨q, hq, hq'⟩)
    · exact hspread.mono x ((hbefore x hx).2 (.inl hseed))
    · exact hspread.mono x ((hbefore x hx).2 (.inr hcf))
    · have hql := hbefore q (w.parent_live hx hq)
      have hxc := w.mem_children.2 hq
      cases hcf : u.isControlFlow x with
      | true => exact hspread.mono x ((hbefore x hx).2 (.inr hcf))
      | false =>
        rcases hq' with hqcf | ⟨hqseed, hqnew⟩
        · exact hbelow q (hql.2 (.inr hqcf)) hqcf x hxc hcf
        · cases hfirst : m₁.hasNew q with
          | false => exact hspread.below q hqnew hfirst x hxc hcf
          | true =>
            have hqcf := (hql.1 hfirst).resolve_left (Bool.eq_false_iff.1 hqseed)
            exact hbelow q hfirst hqcf x hxc hcf

end Matching

end FlowMerge
