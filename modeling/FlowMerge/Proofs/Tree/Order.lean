import FlowMerge.Proofs.Lists
import FlowMerge.Proofs.Tree.Walks
import Mathlib.Data.List.Flatten
import Mathlib.Data.List.Sort

namespace FlowMerge.Tree

variable {t : Tree} {stop : NodeId → Bool} {a b c p x y z : NodeId} {n m : Nat}
  {pre post : List NodeId}

structure Precedes (t : Tree) (x y : NodeId) : Prop where
  not_above : ¬ t.Above y x
  siblings : ∀ p, t.parent? x = some p → t.parent? y = some p → t.position x < t.position y

theorem sublist_of_positions {l r : List NodeId}
    (hl : l.Pairwise fun c d ↦ t.position c < t.position d)
    (hr : r.Pairwise fun c d ↦ t.position c < t.position d) (h : l ⊆ r) : l.Sublist r := by
  have : Std.Antisymm fun c d ↦ t.position c < t.position d :=
    ⟨fun _ _ hlt hgt ↦ absurd hlt (Nat.lt_asymm hgt)⟩
  have : Std.Irrefl fun c d ↦ t.position c < t.position d := ⟨fun _ ↦ Nat.lt_irrefl _⟩
  exact List.sublist_of_subperm_of_pairwise (List.subperm_of_subset hl.nodup h) hl hr

namespace WellFormed

theorem pairwise_children (w : t.WellFormed) (p : NodeId) :
    (t.children p).Pairwise fun c d ↦ t.position c < t.position d := by
  rw [List.pairwise_iff_getElem]
  intro i j hi hj hij
  have h₁ := ((w.linked p _ i).1 (List.getElem?_eq_getElem hi)).2
  have h₂ := ((w.linked p _ j).1 (List.getElem?_eq_getElem hj)).2
  omega

theorem precedes_of_siblings (w : t.WellFormed) (hb : t.parent? b = some p)
    (hc : t.parent? c = some p) (hlt : t.position b < t.position c) (hx : t.Above b x)
    (hy : t.Above c y) : t.Precedes x y := by
  have hne : b ≠ c := by
    rintro rfl
    exact Nat.lt_irrefl _ hlt
  refine ⟨fun h ↦ w.siblings_apart hb hc hne hx (hy.trans h), fun q hqx hqy ↦ ?_⟩
  rcases above_iff.1 hx with rfl | ⟨q', hq', hbx⟩
  · rcases above_iff.1 hy with rfl | ⟨q'', hq'', hcy⟩
    · exact hlt
    · obtain rfl := Option.some_inj.1 (hq''.symm.trans hqy)
      obtain rfl := Option.some_inj.1 (hqx.symm.trans hb)
      exact absurd hcy (w.not_above_of_parent hc)
  · obtain rfl := Option.some_inj.1 (hq'.symm.trans hqx)
    exact absurd hy (w.siblings_apart hb hc hne (hbx.tail hqy))

theorem pairwise_preorder (w : t.WellFormed) (ha : a < t.size) :
    (t.preorder a).Pairwise t.Precedes := by
  induction a using w.down_induction with
  | h a ih =>
    rw [w.preorder_eq ha, List.pairwise_cons, List.pairwise_flatMap]
    refine ⟨fun y hy ↦ ?_, fun c hc ↦ ih c hc (w.child_lt hc), ?_⟩
    · obtain ⟨c, hc, hy⟩ := List.mem_flatMap.1 hy
      rw [w.mem_preorder (w.child_lt hc)] at hy
      have hp := w.mem_children.1 hc
      refine ⟨fun h ↦ w.not_above_of_parent hp (hy.trans h), fun q hq hqy ↦ ?_⟩
      rcases above_iff.1 hy with rfl | ⟨q', hq', hcq⟩
      · obtain rfl := Option.some_inj.1 (hp.symm.trans hqy)
        exact absurd .refl (w.not_above_of_parent hq)
      · obtain rfl := Option.some_inj.1 (hq'.symm.trans hqy)
        exact absurd (hcq.tail hq) (w.not_above_of_parent hp)
    · refine (w.pairwise_children a).imp_of_mem fun {c d} hc hd hlt x hx y hy ↦ ?_
      rw [w.mem_preorder (w.child_lt hc)] at hx
      rw [w.mem_preorder (w.child_lt hd)] at hy
      exact w.precedes_of_siblings (w.mem_children.1 hc) (w.mem_children.1 hd) hlt hx hy

theorem pairwise_live (w : t.WellFormed) : t.live.Pairwise t.Precedes :=
  w.pairwise_preorder w.root_lt

end WellFormed

/-- The next node of the pre-order after the root and the nodes in `pre`. -/
structure Due (t : Tree) (pre : List NodeId) (x : NodeId) : Prop where
  live : x ∈ t.live
  ne_root : x ≠ root
  unseen : x ∉ pre
  above : ∀ a, t.Above a x → a ≠ x → a = root ∨ a ∈ pre
  earlier : ∀ p y, t.parent? x = some p → t.parent? y = some p → t.position y < t.position x →
    y ∈ pre
  below : ∀ y ∈ pre, ¬ t.Above x y

theorem WellFormed.due_of_split (w : t.WellFormed) (h : t.live.tail = pre ++ x :: post) :
    t.Due pre x := by
  have hmem {y : NodeId} : y ∈ pre ++ x :: post ↔ y ∈ t.live ∧ y ≠ root := h ▸ w.mem_live_tail
  have hnd : (pre ++ x :: post).Nodup := h ▸ w.nodup_live.tail
  have hpw : (pre ++ x :: post).Pairwise t.Precedes :=
    h ▸ w.pairwise_live.sublist (List.tail_sublist _)
  obtain ⟨hx, hr⟩ := hmem.1 (List.mem_append_right pre List.mem_cons_self)
  exact {
    live := hx
    ne_root := hr
    unseen hpre := (List.nodup_append.1 hnd).2.2 x hpre x List.mem_cons_self rfl
    above a ha hne := by
      by_cases har : a = root
      · exact .inl har
      · exact .inr (mem_left_of_not_rel hpw (hmem.2 ⟨w.above_live hx ha, har⟩) hne
          fun hrel ↦ hrel.not_above ha)
    earlier p y hp hy hlt := by
      have hyl := w.child_live (w.parent_live hx hp) (w.mem_children.2 hy)
      refine mem_left_of_not_rel hpw (hmem.2 ⟨hyl, w.child_ne_root hy⟩) ?_
        fun hrel ↦ Nat.lt_asymm hlt (hrel.siblings p hp hy)
      rintro rfl
      exact Nat.lt_irrefl _ hlt
    below y hy := ((List.pairwise_append.1 hpw).2.2 y hy x List.mem_cons_self).not_above }

def prunedWithin (t : Tree) (stop : NodeId → Bool) : Nat → NodeId → List NodeId
  | 0, _ => []
  | n + 1, id => id :: if stop id then [] else (t.children id).flatMap (t.prunedWithin stop n)

/-- The live nodes in pre-order, without what is below a node that stops the walk. -/
def pruned (t : Tree) (stop : NodeId → Bool) : List NodeId := t.prunedWithin stop t.size root

theorem prunedWithin_sublist (t : Tree) (stop : NodeId → Bool) (n : Nat) (a : NodeId) :
    (t.prunedWithin stop n a).Sublist (t.preorderWithin n a) := by
  induction n generalizing a with
  | zero => exact .slnil
  | succ n ih =>
    rw [prunedWithin, preorderWithin_succ]
    split
    · exact (List.nil_sublist _).cons_cons a
    · exact (List.Sublist.flatMap_right _ fun c _ ↦ ih c).cons_cons a

theorem pruned_sublist (t : Tree) (stop : NodeId → Bool) : (t.pruned stop).Sublist t.live :=
  t.prunedWithin_sublist stop t.size root

def Reached (t : Tree) (stop : NodeId → Bool) (x : NodeId) : Prop :=
  ∀ a, t.Above a x → a ≠ x → stop a = false

/-- Whether a pruned walk that comes to `a` meets `x` there: as `a` itself, or with all that is
below `a` if that stops the walk. -/
def Meets (t : Tree) (stop : NodeId → Bool) (a x : NodeId) : Prop :=
  if stop a then t.Above a x else a = x

theorem Meets.above (h : t.Meets stop a x) : t.Above a x := by
  rw [Meets] at h
  split at h
  · exact h
  · exact h ▸ .refl

namespace WellFormed

theorem mem_prunedWithin (w : t.WellFormed) (ha : a < t.size) (hn : t.size ≤ n + t.depth a)
    (hx : t.Above a x) (hstop : ∀ b, t.Above a b → t.Above b x → b ≠ x → stop b = false) :
    x ∈ t.prunedWithin stop n a := by
  induction n generalizing a with
  | zero =>
    have := w.depth_lt ha
    omega
  | succ n ih =>
    rw [prunedWithin, List.mem_cons]
    rcases Relation.ReflTransGen.cases_head hx with rfl | ⟨c, hc, hcx⟩
    · exact .inl rfl
    · have hne : a ≠ x := by
        rintro rfl
        exact w.not_above_of_parent hc hcx
      rw [hstop a .refl hx hne, if_neg Bool.false_ne_true, List.mem_flatMap]
      have hd := w.depth_of_parent hc
      exact .inr ⟨c, w.mem_children.2 hc, ih (lt_size_of_parent? hc) (by omega) hcx
        fun b hb ↦ hstop b (hb.head hc)⟩

theorem reached_of_mem_prunedWithin (w : t.WellFormed) (h : x ∈ t.prunedWithin stop n a) :
    ∀ b, t.Above a b → t.Above b x → b ≠ x → stop b = false := by
  induction n generalizing a with
  | zero => cases h
  | succ n ih =>
    rw [prunedWithin, List.mem_cons] at h
    intro b hab hbx hne
    rcases h with rfl | h
    · exact absurd (w.above_antisymm hbx hab) hne
    · by_cases hs : stop a = true
      · rw [if_pos hs] at h
        cases h
      · rw [if_neg hs, List.mem_flatMap] at h
        obtain ⟨c, hc, hx⟩ := h
        have hcx := above_of_mem_preorderWithin w ((t.prunedWithin_sublist stop n c).subset hx)
        rcases Relation.ReflTransGen.cases_head hab with rfl | ⟨d, hd, hdb⟩
        · exact Bool.eq_false_iff.2 hs
        · by_cases hcd : c = d
          · exact ih hx b (hcd ▸ hdb) hbx hne
          · exact absurd (hdb.trans hbx)
              (w.siblings_apart (w.mem_children.1 hc) hd hcd hcx)

theorem mem_pruned (w : t.WellFormed) :
    x ∈ t.pruned stop ↔ x ∈ t.live ∧ t.Reached stop x := by
  constructor
  · intro h
    have hx := (t.pruned_sublist stop).subset h
    refine ⟨hx, fun a ha hne ↦ ?_⟩
    rcases above_total ha (w.mem_live.1 hx) with har | hra
    · obtain rfl := above_of_top w.root_top har
      exact w.reached_of_mem_prunedWithin h _ .refl ha hne
    · exact w.reached_of_mem_prunedWithin h a hra ha hne
  · rintro ⟨hx, h⟩
    exact w.mem_prunedWithin w.root_lt (Nat.le_add_right ..) (w.mem_live.1 hx)
      fun b _ hb hne ↦ h b hb hne

theorem nodup_pruned (w : t.WellFormed) (stop : NodeId → Bool) : (t.pruned stop).Nodup :=
  w.nodup_live.sublist (t.pruned_sublist stop)

/-- What a pruned walk reaches is below a node where it stops, or all that is above is walked. -/
theorem pruned_or_below (w : t.WellFormed) (stop : NodeId → Bool) (hx : x ∈ t.live) :
    x ∈ t.pruned stop ∨ ∃ a ∈ t.pruned stop, stop a = true ∧ t.Above a x ∧ a ≠ x := by
  induction x using w.up_induction with
  | h x ih =>
    by_cases hr : x = root
    · refine .inl (w.mem_pruned.2 ⟨hx, fun a ha hne ↦ ?_⟩)
      rw [hr] at ha hne
      exact absurd (above_of_top w.root_top ha) hne
    · obtain ⟨p, hp, hpl⟩ := w.exists_parent_of_live hx hr
      have hne {a : NodeId} (h : t.Above a p) : a ≠ x := by
        rintro rfl
        exact w.not_above_of_parent hp h
      rcases ih p hp hpl with h | ⟨a, ha, hs, hap, -⟩
      · by_cases hs : stop p = true
        · exact .inr ⟨p, h, hs, .single hp, hne .refl⟩
        · refine .inl (w.mem_pruned.2 ⟨hx, fun a ha hax ↦ ?_⟩)
          rcases above_iff.1 ha with rfl | ⟨q, hq, haq⟩
          · exact absurd rfl hax
          · obtain rfl := Option.some_inj.1 (hq.symm.trans hp)
            by_cases haq' : a = q
            · exact haq' ▸ Bool.eq_false_iff.2 hs
            · exact (w.mem_pruned.1 h).2 a haq haq'
      · exact .inr ⟨a, ha, hs, hap.tail hp, hne hap⟩

/-- Each live node is met just once, by itself or with all that is below a node. -/
theorem existsUnique_meets (w : t.WellFormed) (stop : NodeId → Bool) (hx : x ∈ t.live) :
    ∃! a, a ∈ t.pruned stop ∧ t.Meets stop a x := by
  -- of two nodes at which it is met the upper one would stop the walk before the other
  have heq {a b : NodeId} (ha : t.Meets stop a x) (hb : b ∈ t.pruned stop) (hbx : t.Above b x)
      (hab : t.Above a b) : a = b := by
    by_contra hne
    rw [Meets, (w.mem_pruned.1 hb).2 a hab hne, if_neg Bool.false_ne_true] at ha
    exact hne (w.above_antisymm hab (ha ▸ hbx))
  have hexists : ∃ a ∈ t.pruned stop, t.Meets stop a x := by
    rcases w.pruned_or_below stop hx with h | ⟨a, ha, hs, hax, -⟩
    · refine ⟨x, h, ?_⟩
      rw [Meets]
      split
      · exact .refl
      · rfl
    · exact ⟨a, ha, by rwa [Meets, if_pos hs]⟩
  obtain ⟨a, ha, hax⟩ := hexists
  refine ⟨a, ⟨ha, hax⟩, fun b ⟨hb, hbx⟩ ↦ ?_⟩
  rcases above_total hax.above hbx.above with h | h
  · exact (heq hax hb hbx.above h).symm
  · exact heq hbx ha hax.above h

theorem pairwise_pruned (w : t.WellFormed) (stop : NodeId → Bool) :
    (t.pruned stop).Pairwise t.Precedes :=
  w.pairwise_live.sublist (t.pruned_sublist stop)

end WellFormed

end FlowMerge.Tree
