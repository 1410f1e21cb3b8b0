import FlowMerge.Proofs.Script.Links

namespace FlowMerge.Script

open FlowMerge.Tree

variable {d d' : Tree} {node parent p q r x y : NodeId} {out : List NodeId} {i k : Nat}

theorem placeholders_detachMoved (w : d.WellFormed) (hp : d.parent? node = some parent)
    (hd : d.delta? parent ≠ none) (q : NodeId) :
    (detachMoved d k node parent).placeholders q =
      if q = parent then d.placeholders q ++ [d.size] else d.placeholders q := by
  have hne := (w.parent_ne hp).symm
  have hparent := w.parent_lt hp
  have hdelta := delta?_detachMoved d k (lt_size_of_parent? hp) hne hparent q
  by_cases hs : q = d.size
  · rw [if_pos hs] at hdelta
    rw [if_neg (hs ▸ (Nat.ne_of_lt hparent).symm), placeholders_of_size_le (Nat.le_of_eq hs.symm),
      placeholders, hdelta]
    rfl
  · rw [if_neg hs] at hdelta
    by_cases hq : q = parent
    · obtain ⟨y, hy⟩ := Option.ne_none_iff_exists'.1 (hq ▸ hd)
      rw [if_neg (hq ▸ hne.symm), if_pos hq, hy] at hdelta
      rw [if_pos hq, placeholders, hdelta, placeholders, hy]
      rfl
    · rw [if_neg hq] at hdelta ⊢
      split at hdelta
      · exact placeholders_eq_of_map hdelta fun _ ↦ rfl
      · exact placeholders_eq_of_delta? hdelta

theorem placeholders_deleteAt (w : d.WellFormed) (hp : d.parent? node = some parent)
    (hd : d.delta? parent ≠ none) (q : NodeId) :
    (deleteAt d node parent).placeholders q =
      if q = parent then d.placeholders q ++ [node] else d.placeholders q := by
  have hnot : parent ∉ d.preorder node := fun hm ↦
    w.not_above_of_parent hp (above_of_mem_preorderWithin w hm)
  have hdelta := delta?_deleteAt w hp q
  by_cases hq : q = parent
  · obtain ⟨y, hy⟩ := Option.ne_none_iff_exists'.1 (hq ▸ hd)
    rw [if_neg (hq ▸ hnot), if_pos hq, hy] at hdelta
    rw [if_pos hq, placeholders, hdelta, placeholders, hy]
    rfl
  · rw [if_neg hq] at hdelta ⊢
    split at hdelta
    · exact placeholders_eq_of_map hdelta fun _ ↦ rfl
    · exact placeholders_eq_of_delta? hdelta

theorem holds_detachMoved (w : d.WellFormed) (hp : d.parent? node = some parent)
    (hd : d.delta? parent ≠ none) (h : d.Holds q x) :
    x = node ∨ (detachMoved d k node parent).Holds q x := by
  rcases h with h | h
  · by_cases hx : x = node
    · exact .inl hx
    · refine .inr (.inl ?_)
      rw [(removed_detachMoved w k node parent).children, List.mem_filter]
      exact ⟨h, by simpa using hx⟩
  · refine .inr (.inr ?_)
    rw [placeholders_detachMoved w hp hd]
    split
    · exact List.mem_append_left _ h
    · exact h

theorem holds_standIn (w : d.WellFormed) (hp : d.parent? node = some parent)
    (hd : d.delta? parent ≠ none) : (detachMoved d k node parent).Holds parent d.size := by
  refine .inr ?_
  rw [placeholders_detachMoved w hp hd, if_pos rfl]
  exact List.mem_append_right _ List.mem_cons_self

theorem holds_deleteAt (w : d.WellFormed) (hp : d.parent? node = some parent)
    (hd : d.delta? parent ≠ none) (h : d.Holds q x) : (deleteAt d node parent).Holds q x := by
  rcases h with h | h
  · by_cases hx : x = node
    · subst hx
      obtain rfl := Option.some_inj.1 (hp.symm.trans (w.mem_children.1 h))
      refine .inr ?_
      rw [placeholders_deleteAt w hp hd, if_pos rfl]
      exact List.mem_append_right _ List.mem_cons_self
    · refine .inl ?_
      rw [deleteAt, (removed_deletion w (lt_size_of_parent? hp) parent).children,
        List.mem_filter]
      exact ⟨h, by simpa using hx⟩
  · refine .inr ?_
    rw [placeholders_deleteAt w hp hd]
    split
    · exact List.mem_append_left _ h
    · exact h

/-- A script has taken the nodes in `out` out of the tree, and they wait for new places. All other
nodes are still reached. -/
structure Underway (out : List NodeId) (d : Tree) : Prop where
  wellFormed : d.WellFormed
  recorded : ∀ x < d.size, d.delta? x ≠ none
  waiting : ∀ x ∈ out, d.parent? x = none ∧ x ≠ root ∧ x < d.size
  held : ∀ x < d.size, ∃ r ∈ root :: out, d.Reaches r x

def Spared (out : List NodeId) (d : Tree) : Prop :=
  ∀ r ∈ root :: out, ∀ x, d.Above r x → (d.mark x).isDeletion = false

namespace Underway

variable (h : Underway out d)
include h

theorem top (hr : r ∈ root :: out) : d.parent? r = none := by
  rcases List.mem_cons.1 hr with rfl | hr
  · exact h.wellFormed.root_top
  · exact (h.waiting r hr).1

theorem mark_move (hp : d.parent? node = some parent) (x : NodeId) :
    (detachMoved d k node parent).mark x = if x = d.size then .movedAway
      else if x = node then .movedHere else d.mark x := by
  have w := h.wellFormed
  have hnode := lt_size_of_parent? hp
  have hdelta := delta?_detachMoved d k hnode (w.parent_ne hp).symm (w.parent_lt hp) x
  by_cases hs : x = d.size
  · rw [if_pos hs] at hdelta ⊢
    rw [mark, hdelta]
    rfl
  · rw [if_neg hs] at hdelta ⊢
    by_cases hx : x = node
    · obtain ⟨y, hy⟩ := Option.ne_none_iff_exists'.1 (h.recorded x (hx ▸ hnode))
      rw [if_pos hx, hy] at hdelta
      rw [if_pos hx, mark, hdelta]
      rfl
    · rw [if_neg hx] at hdelta ⊢
      split at hdelta
      · exact mark_eq_of_map hdelta fun _ ↦ rfl
      · exact mark_eq_of_delta? hdelta

theorem mark_delete (hp : d.parent? node = some parent) (x : NodeId) :
    (deleteAt d node parent).mark x = if x ∈ d.preorder node then .deleted else d.mark x := by
  have w := h.wellFormed
  have hnode := lt_size_of_parent? hp
  have hdelta := delta?_deleteAt w hp x
  by_cases hx : x ∈ d.preorder node
  · have hlt : x < d.size := by
      rcases w.mem_preorder hnode |>.1 hx |>.cases_tail with he | ⟨q, -, hq⟩
      · exact he ▸ hnode
      · exact lt_size_of_parent? hq
    obtain ⟨y, hy⟩ := Option.ne_none_iff_exists'.1 (h.recorded x hlt)
    rw [if_pos hx, hy] at hdelta
    rw [if_pos hx, mark, hdelta]
    rfl
  · rw [if_neg hx] at hdelta ⊢
    split at hdelta
    · exact mark_eq_of_map hdelta fun _ ↦ rfl
    · exact mark_eq_of_delta? hdelta

theorem move (hp : d.parent? node = some parent) (k : Nat) :
    Underway (out ++ [node]) (detachMoved d k node parent) := by
  have w := h.wellFormed
  have hrem := removed_detachMoved w k node parent
  have hnode := lt_size_of_parent? hp
  have hparent := w.parent_lt hp
  have hne := (w.parent_ne hp).symm
  -- whatever was reached through `node` is reached from `node`, which waits now
  have hcut {r x : NodeId} (hr : r ∈ root :: out) (hx : d.Reaches r x) :
      ∃ r' ∈ root :: (out ++ [node]), (detachMoved d k node parent).Reaches r' x := by
    have hd := h.recorded parent hparent
    rcases Reaches.cut (fun q y ↦ holds_detachMoved w hp hd) hx with hx | hx
    · exact ⟨r, List.mem_append_left [node] hr, hx⟩
    · exact ⟨node, List.mem_append_right (root :: out) List.mem_cons_self, hx⟩
  refine ⟨hrem.wellFormed, fun x hx ↦ ?_, fun x hx ↦ ?_, fun x hx ↦ ?_⟩
  · rw [delta?_detachMoved d k hnode hne hparent]
    rw [size_detachMoved] at hx
    by_cases hs : x = d.size
    · rw [if_pos hs]
      exact Option.some_ne_none _
    · obtain ⟨y, hy⟩ := Option.ne_none_iff_exists'.1 (h.recorded x (by omega))
      rw [if_neg hs, hy]
      split
      · exact Option.some_ne_none _
      · split <;> exact Option.some_ne_none _
  · rw [hrem.parent?, size_detachMoved]
    rcases List.mem_append.1 hx with hx | hx
    · obtain ⟨htop, hr, hlt⟩ := h.waiting x hx
      rw [htop, ite_self]
      exact ⟨rfl, hr, Nat.lt_succ_of_lt hlt⟩
    · rw [if_pos hx, List.mem_singleton.1 hx]
      exact ⟨rfl, w.child_ne_root hp, Nat.lt_succ_of_lt hnode⟩
  · rw [size_detachMoved] at hx
    by_cases hs : x = d.size
    · obtain ⟨r, hr, hrx⟩ := h.held parent hparent
      obtain ⟨r', hr', hx'⟩ := hcut hr hrx
      exact ⟨r', hr', hs ▸ hx'.tail (holds_standIn w hp (h.recorded parent hparent))⟩
    · obtain ⟨r, hr, hrx⟩ := h.held x (by omega)
      exact hcut hr hrx

theorem delete (hp : d.parent? node = some parent) : Underway out (deleteAt d node parent) := by
  have w := h.wellFormed
  have hnode := lt_size_of_parent? hp
  have hrem := removed_deletion w hnode parent
  refine ⟨hrem.wellFormed, fun x hx ↦ ?_, fun x hx ↦ ?_, fun x hx ↦ ?_⟩
  · rw [size_deleteAt] at hx
    obtain ⟨y, hy⟩ := Option.ne_none_iff_exists'.1 (h.recorded x hx)
    rw [delta?_deleteAt w hp, hy]
    split
    · exact Option.some_ne_none _
    · split <;> exact Option.some_ne_none _
  · obtain ⟨htop, hr, hlt⟩ := h.waiting x hx
    rw [size_deleteAt]
    refine ⟨?_, hr, hlt⟩
    rw [deleteAt, hrem.parent?, htop, ite_self]
  · rw [size_deleteAt] at hx
    obtain ⟨r, hr, hrx⟩ := h.held x hx
    refine ⟨r, hr, Relation.ReflTransGen.mono (fun q y hq ↦ ?_) _ _ hrx⟩
    exact holds_deleteAt w hp (h.recorded parent (w.parent_lt hp)) hq

theorem spared_delete (hs : Spared out d) (hp : d.parent? node = some parent) :
    Spared out (deleteAt d node parent) := by
  have w := h.wellFormed
  intro r hr x hx
  obtain ⟨hrx, hnode⟩ := (above_deleteAt w).1 hx
  have hnot : x ∉ d.preorder node := by
    intro hm
    -- the top `r` would be below the node, which has a parent
    have hnr := hnode (above_of_mem_preorderWithin w hm)
    have htop := h.top hr
    rw [above_of_top htop hnr, htop] at hp
    cases hp
  rw [h.mark_delete hp, if_neg hnot]
  exact hs r hr x hrx

theorem sprout (hs : Sprouted d d') : Underway (d.size :: out) d' := by
  have w := h.wellFormed
  have hlt := hs.lt
  have hmono {a x : NodeId} (hx : d.Reaches a x) : d'.Reaches a x := by
    refine Relation.ReflTransGen.mono (fun q y hq ↦ ?_) _ _ hx
    rw [Holds, (hs.others q hq.lt).1, placeholders_eq_of_delta? (hs.delta? hq.lt)]
    exact hq
  refine ⟨hs.wellFormed, fun x hx ↦ ?_, fun x hx ↦ ?_, fun x hx ↦ ?_⟩
  · by_cases hxd : x < d.size
    · rw [hs.delta? hxd]
      exact h.recorded x hxd
    · rw [hs.inserted x (Nat.le_of_not_lt hxd) hx]
      exact Option.some_ne_none _
  · rcases List.mem_cons.1 hx with rfl | hx
    · exact ⟨hs.detached w, Nat.ne_of_gt w.root_lt, hlt⟩
    · obtain ⟨htop, hr, hxd⟩ := h.waiting x hx
      exact ⟨(hs.others x hxd).2.trans htop, hr, Nat.lt_trans hxd hlt⟩
  · by_cases hxd : x < d.size
    · obtain ⟨r, hr, hrx⟩ := h.held x hxd
      refine ⟨r, ?_, hmono hrx⟩
      exact (List.mem_cons.1 hr).elim (fun hr ↦ hr ▸ List.mem_cons_self)
        fun hr ↦ List.mem_cons_of_mem _ (List.mem_cons_of_mem _ hr)
    · refine ⟨d.size, List.mem_cons_of_mem _ List.mem_cons_self, ?_⟩
      exact hs.wellFormed.reaches_of_above ((hs.above x).2 ⟨Nat.le_of_not_lt hxd, hx⟩)

theorem spared_sprout (hspared : Spared out d) (hs : Sprouted d d') :
    Spared (d.size :: out) d' := by
  have w := h.wellFormed
  intro r hr x hx
  by_cases hxd : x < d.size
  · obtain ⟨hrd, hrx⟩ := hs.above_old w hxd hx
    rw [mark_eq_of_delta? (hs.delta? hxd)]
    refine hspared r ?_ x hrx
    rcases List.mem_cons.1 hr with rfl | hr
    · exact List.mem_cons_self
    · refine List.mem_cons_of_mem _ ((List.mem_cons.1 hr).resolve_left ?_)
      rintro rfl
      exact Nat.lt_irrefl _ hrd
  · rcases hs.delta?_cases x with hd | ⟨-, hd⟩
    · rw [mark_eq_of_delta? hd, mark_of_size_le (Nat.le_of_not_lt hxd)]
      rfl
    · rw [mark, hd]
      rfl

end Underway

structure Attachable (out : List NodeId) (d : Tree) (p i : Nat) (c : NodeId) : Prop where
  underway : Underway (c :: out) d
  unique : c ∉ out
  live : p ∈ d.live
  le : i ≤ (d.children p).length

namespace Attachable

variable {z : NodeId} (h : Attachable out d p i z)
include h

theorem wellFormed : (d.insertChild p i z).WellFormed := by
  obtain ⟨htop, hr, hlt⟩ := h.underway.waiting z List.mem_cons_self
  have w := h.underway.wellFormed
  exact w.insertChild (w.live_lt h.live) hlt hr htop (w.not_above_of_live h.live hr htop) h.le

theorem mem_live : x ∈ (d.insertChild p i z).live ↔ x ∈ d.live ∨ d.Above z x := by
  obtain ⟨htop, hr, hlt⟩ := h.underway.waiting z List.mem_cons_self
  exact h.underway.wellFormed.mem_live_insertChild h.live hlt hr htop h.le

theorem underway_insertChild : Underway out (d.insertChild p i z) := by
  have w := h.underway.wellFormed
  have hp := w.live_lt h.live
  obtain ⟨htop, hr, hlt⟩ := h.underway.waiting z List.mem_cons_self
  have hdata := sameData_insertChild d p i z
  have hholds (q y : NodeId) (hq : d.Holds q y) : (d.insertChild p i z).Holds q y := by
    rw [Holds, hdata.placeholders, children_insertChild hp hlt]
    refine hq.imp_left fun hq ↦ ?_
    split
    · next he => exact (List.mem_insertIdx h.le).2 (.inr (he ▸ hq))
    · exact hq
  have hmono {a x : NodeId} (hx : d.Reaches a x) : (d.insertChild p i z).Reaches a x :=
    Relation.ReflTransGen.mono hholds _ _ hx
  -- what was reached from `z` is reached from the root, by way of `p`
  have hz : (d.insertChild p i z).Holds p z := by
    refine .inl ?_
    rw [children_insertChild hp hlt, if_pos rfl]
    exact (List.mem_insertIdx h.le).2 (.inl rfl)
  refine ⟨h.wellFormed, fun x hx ↦ ?_, fun x hx ↦ ?_, fun x hx ↦ ?_⟩
  · rw [size_insertChild] at hx
    rw [hdata.delta?]
    exact h.underway.recorded x hx
  · have hne : x ≠ z := by
      rintro rfl
      exact h.unique hx
    rw [parent?_insertChild hp hlt, if_neg hne, size_insertChild]
    exact h.underway.waiting x (List.mem_cons_of_mem z hx)
  · rw [size_insertChild] at hx
    obtain ⟨r, hr', hrx⟩ := h.underway.held x hx
    rcases List.mem_cons.1 hr' with rfl | hr'
    · exact ⟨root, List.mem_cons_self, hmono hrx⟩
    · rcases List.mem_cons.1 hr' with rfl | hr'
      · have hroot := w.reaches_of_above (w.mem_live.1 h.live)
        exact ⟨root, List.mem_cons_self, ((hmono hroot).tail hz).trans (hmono hrx)⟩
      · exact ⟨r, List.mem_cons_of_mem root hr', hmono hrx⟩

theorem spared_insertChild (hs : Spared (z :: out) d) : Spared out (d.insertChild p i z) := by
  have w := h.underway.wellFormed
  obtain ⟨htop, -, hlt⟩ := h.underway.waiting z List.mem_cons_self
  intro r hr x hx
  rw [(sameData_insertChild d p i z).mark]
  rw [WellFormed.above_insertChild (w.live_lt h.live) hlt htop] at hx
  rcases hx with hx | ⟨-, hx⟩
  · refine hs r ?_ x hx
    exact (List.mem_cons.1 hr).elim (fun hr ↦ hr ▸ List.mem_cons_self)
      fun hr ↦ List.mem_cons_of_mem _ (List.mem_cons_of_mem _ hr)
  · exact hs z (List.mem_cons_of_mem _ List.mem_cons_self) x hx

end Attachable

end FlowMerge.Script
