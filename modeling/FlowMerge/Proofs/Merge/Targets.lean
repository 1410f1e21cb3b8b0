import FlowMerge.Proofs.Merge.Turns

namespace FlowMerge.Merge

open FlowMerge.Tree

variable {m m' : Merge} {u u' : Tree} {s t tp x : NodeId} {n i : Nat} {c : Content}
  {up : NodeId → Option NodeId}

structure Moved (t tp : NodeId) (i : Nat) (u u' : Tree) : Prop where
  wellFormed : u'.WellFormed
  size : u'.size = u.size
  children : ∀ x, u'.children x = if x = tp then ((u.children tp).filter (· != t)).insertIdx i t
    else (u.children x).filter (· != t)
  parent? : ∀ x, u'.parent? x = if x = t then some tp else u.parent? x
  live : ∀ x, x ∈ u'.live ↔ x ∈ u.live
  content : ∀ x, u'.content x = u.content x
  delta? : ∀ x, u'.delta? x = if x = t then (u.delta? x).map fun d ↦ { d with mark := .movedHere }
    else u.delta? x

structure Added (c : Content) (tp : NodeId) (i : Nat) (u u' : Tree) : Prop where
  wellFormed : u'.WellFormed
  size : u'.size = u.size + 1
  children : ∀ x, u'.children x = if x = tp then (u.children tp).insertIdx i u.size
    else u.children x
  parent? : ∀ x, u'.parent? x = if x = u.size then some tp else u.parent? x
  live : ∀ x, x ∈ u'.live ↔ x ∈ u.live ∨ x = u.size
  content : ∀ x, u'.content x = if x = u.size then c else u.content x
  delta? : ∀ x, u'.delta? x = if x = u.size then some { mark := .inserted } else u.delta? x

def slot (m : Merge) (s t tp : NodeId) : Nat :=
  (m.modifyTarget fun tree ↦ tree.detach t).targetIndex s tp

def slotOfCopy (m : Merge) (s tp : NodeId) : Nat :=
  { m with target := m.copied s }.targetIndex s tp

theorem targetIndex_le (w : m.target.WellFormed) (s tp : NodeId) :
    m.targetIndex s tp ≤ (m.target.children tp).length := by
  unfold targetIndex
  split
  · exact Nat.zero_le _
  · dsimp only
    split
    · next t ht =>
      have hp : m.target.parent? t = some tp := by simpa using List.find?_some ht
      exact (List.getElem?_eq_some_iff.1 (w.getElem?_position hp)).1
    · exact Nat.zero_le _

theorem moved_shift (h : Quiet (m.shift s t tp) m') (w : m.target.WellFormed)
    (ht : t ∈ m.target.live) (hr : t ≠ root) (htp : tp ∈ m.target.live)
    (hfree : m.target.isAncestorOrSelf t tp = false) :
    Moved t tp (m.slot s t tp) m.target m'.target := by
  have hnot : ¬ m.target.Above t tp := by
    rw [← w.isAncestorOrSelf_iff, hfree]
    exact Bool.false_ne_true
  have hlt : t < (m.target.detach t).size := by
    rw [size_detach]
    exact w.live_lt ht
  have hltp : tp < (m.target.detach t).size := by
    rw [size_detach]
    exact w.live_lt htp
  have hle : m.slot s t tp ≤ ((m.target.detach t).children tp).length :=
    targetIndex_le (m := m.modifyTarget fun tree ↦ tree.detach t) (w.detach t) s tp
  have htop : (m.target.detach t).parent? t = none := by rw [w.parent?_detach, if_pos rfl]
  have habove : ¬ (m.target.detach t).Above t tp := fun h ↦ hnot (w.above_detach.1 h).1
  have w' := (w.detach t).insertChild hltp hlt hr htop habove hle
  have hset : SameShape (m.shift s t tp).target
      ((m.target.detach t).insertChild tp (m.slot s t tp) t) := sameShape_setMark _ t _
  have hshape := h.alike.toSameShape.trans hset
  have hdata : SameData ((m.target.detach t).insertChild tp (m.slot s t tp) t) m.target :=
    (sameData_insertChild _ _ _ _).trans (sameData_detach _ t)
  exact {
    wellFormed := hshape.wellFormed w'
    size := by
      rw [hshape.size, size_insertChild, size_detach]
    children x := by
      rw [hshape.children, children_insertChild hltp hlt, w.children_detach, w.children_detach]
    parent? x := by
      rw [hshape.parent?, parent?_insertChild hltp hlt, w.parent?_detach]
      split <;> rfl
    live x := by
      rw [hshape.live]
      exact w.mem_live_move ht hr htp hnot hle
    content x := by
      rw [h.alike.content]
      exact (content_modifyDelta _ _ _ _).trans (hdata.content x)
    delta? x := by
      rw [h.alike.delta?]
      refine (delta?_modifyDelta _ _ _ _).trans ?_
      rw [← hdata.delta? x]
      rfl }

theorem sameShape_copied (m : Merge) (s : NodeId) :
    SameShape (m.copied s) (m.target.importNode m.source s).1 := sameShape_setMark ..

theorem wellFormed_copied (w : m.target.WellFormed) (s : NodeId) : (m.copied s).WellFormed :=
  (sameShape_copied m s).wellFormed (w.alloc _ _)

theorem size_copied (m : Merge) (s : NodeId) : (m.copied s).size = m.target.size + 1 :=
  (sameShape_copied m s).size.trans (size_alloc ..)

theorem children_copied (m : Merge) (s x : NodeId) :
    (m.copied s).children x = m.target.children x :=
  ((sameShape_copied m s).children x).trans (children_alloc ..)

theorem parent?_copied (m : Merge) (s x : NodeId) :
    (m.copied s).parent? x = m.target.parent? x :=
  ((sameShape_copied m s).parent? x).trans (parent?_alloc ..)

theorem added_graft (h : Quiet (m.graft s tp) m') (w : m.target.WellFormed)
    (htp : tp ∈ m.target.live) (hroot : m.target.delta? root ≠ none) :
    Added (m.source.content s) tp (m.slotOfCopy s tp) m.target m'.target := by
  have w₂ := wellFormed_copied w s
  have hsize := size_copied m s
  have hlt : m.target.size < (m.copied s).size := by
    rw [hsize]
    exact Nat.lt_succ_self _
  have hltp : tp < (m.copied s).size := Nat.lt_trans (w.live_lt htp) hlt
  have hchildren := children_copied m s
  have hparent := parent?_copied m s
  -- copying hangs nothing anywhere, so that the tree above and below is the old one
  have habove {a b : NodeId} : (m.copied s).Above a b ↔ m.target.Above a b := by
    have he : (m.copied s).IsParent = m.target.IsParent := by
      funext q d
      rw [IsParent, hparent, IsParent]
    rw [Above, he]
  have hlive (x : NodeId) : x ∈ (m.copied s).live ↔ x ∈ m.target.live := by
    rw [w₂.mem_live, w.mem_live, habove]
  have htop : (m.copied s).parent? m.target.size = none := by
    rw [hparent, parent?_of_size_le (Nat.le_refl _)]
  have hr : m.target.size ≠ root := Nat.ne_of_gt w.root_lt
  have hle : m.slotOfCopy s tp ≤ ((m.copied s).children tp).length :=
    targetIndex_le (m := { m with target := m.copied s }) w₂ s tp
  have hnot : ¬ (m.copied s).Above m.target.size tp := by
    rw [habove]
    exact w.not_above_size (w.live_lt htp)
  have hshape : SameShape m'.target
      ((m.copied s).insertChild tp (m.slotOfCopy s tp) m.target.size) := h.alike.toSameShape
  have hdata := sameData_insertChild (m.copied s) tp (m.slotOfCopy s tp) m.target.size
  exact {
    wellFormed := hshape.wellFormed (w₂.insertChild hltp hlt hr htop hnot hle)
    size := by
      rw [hshape.size, size_insertChild, hsize]
    children x := by
      rw [hshape.children, children_insertChild hltp hlt, hchildren, hchildren]
    parent? x := by
      rw [hshape.parent?, parent?_insertChild hltp hlt, hparent]
    live x := by
      rw [hshape.live, w₂.mem_live_insertChild ((hlive tp).2 htp) hlt hr htop hle, hlive, habove]
      refine or_congr_right ⟨fun ha ↦ ?_, fun hx ↦ hx ▸ .refl⟩
      rcases Relation.ReflTransGen.cases_head ha with hx | ⟨q, hq, -⟩
      · exact hx.symm
      · have hlast := w.parent_lt hq
        exact absurd hlast (Nat.lt_irrefl _)
    content x := by
      rw [h.alike.content]
      refine (hdata.content x).trans ((content_modifyDelta _ _ _ _).trans (content_alloc ..))
    delta? x := by
      rw [h.alike.delta?]
      refine (hdata.delta? x).trans ((delta?_modifyDelta _ _ _ _).trans ?_)
      have ha := Overlay.delta?_blank hroot
      rw [importNode, delta?_alloc, ha]
      split <;> rfl }

theorem Moved.branch (h : Moved t tp i u u') (hu : Branch n up u) (ht : t < n) :
    Branch n up u' := by
  have hmark {x : NodeId} (hx : x ≠ t) : u'.mark x = u.mark x := by
    rw [mark, h.delta?, if_neg hx, mark]
  -- `t` is a base node, so that it has a delta for the mark to go in
  have hmoved : u'.mark t = .movedHere := by
    have hb := hu.base? t
    rw [if_pos ht, base?] at hb
    obtain ⟨y, hy, -⟩ := Option.bind_eq_some_iff.1 hb
    rw [mark, h.delta?, if_pos rfl, hy]
    rfl
  exact {
    wellFormed := h.wellFormed
    base? x := by
      rw [← hu.base?, base?, base?, h.delta?]
      split
      · cases u.delta? x <;> rfl
      · rfl
    recorded x hx := by
      obtain ⟨y, hy⟩ := hu.recorded x ((h.live x).1 hx)
      rw [h.delta?, hy]
      split
      · exact ⟨_, rfl⟩
      · exact ⟨y, rfl⟩
    inserted x hx hn := by
      rw [hmark (by rintro rfl; exact Nat.not_le_of_lt ht hn)]
      exact hu.inserted x ((h.live x).1 hx) hn
    known x hx hn := by
      by_cases hxt : x = t
      · rw [hxt, hmoved]
        rfl
      · rw [hmark hxt]
        exact hu.known x ((h.live x).1 hx) hn
    unmoved x hx hn hm := by
      have hxt : x ≠ t := by
        rintro rfl
        exact hm hmoved
      rw [h.parent?, if_neg hxt]
      rw [hmark hxt] at hm
      exact hu.unmoved x ((h.live x).1 hx) hn hm }

theorem Branch.lt_size (hu : Branch n up u) (hx : x < n) : x < u.size := by
  have hb := hu.base? x
  rw [if_pos hx, Merge.base?] at hb
  obtain ⟨y, hy, -⟩ := Option.bind_eq_some_iff.1 hb
  exact lt_size_of_delta? hy

theorem Branch.le_size (hu : Branch n up u) : n ≤ u.size :=
  Nat.le_of_not_lt fun h ↦ Nat.lt_irrefl _ (hu.lt_size h)

theorem Added.branch (h : Added c tp i u u') (hu : Branch n up u) : Branch n up u' := by
  have hold {x : NodeId} (hx : x ∈ u'.live) (hn : x ≠ u.size) : x ∈ u.live :=
    ((h.live x).1 hx).resolve_right hn
  have hmark {x : NodeId} (hx : x ≠ u.size) : u'.mark x = u.mark x := by
    rw [mark, h.delta?, if_neg hx, mark]
  have hne {x : NodeId} (hx : x < n) : x ≠ u.size := Nat.ne_of_lt (hu.lt_size hx)
  exact {
    wellFormed := h.wellFormed
    base? x := by
      rw [base?, h.delta?]
      split
      · next hx =>
        rw [if_neg fun hlt ↦ hne hlt hx]
        rfl
      · exact hu.base? x
    recorded x hx := by
      rw [h.delta?]
      split
      · exact ⟨_, rfl⟩
      · next hxs => exact hu.recorded x (hold hx hxs)
    inserted x hx hn := by
      by_cases hxs : x = u.size
      · rw [mark, h.delta?, if_pos hxs]
        rfl
      · rw [hmark hxs]
        exact hu.inserted x (hold hx hxs) hn
    known x hx hn := by
      rw [hmark (hne hn)]
      exact hu.known x (hold hx (hne hn)) hn
    unmoved x hx hn hm := by
      rw [hmark (hne hn)] at hm
      rw [h.parent?, if_neg (hne hn)]
      exact hu.unmoved x (hold hx (hne hn)) hn hm }

theorem Branch.alike (hu : Branch n up u) (h : Alike u' u) : Branch n up u' := by
  have hlive := h.toSameShape.live
  exact {
    wellFormed := h.toSameShape.wellFormed hu.wellFormed
    base? x := by
      rw [Merge.base?, h.delta?]
      exact hu.base? x
    recorded x hx := by
      rw [h.delta?]
      exact hu.recorded x (hlive ▸ hx)
    inserted x hx hn := by
      rw [h.mark]
      exact hu.inserted x (hlive ▸ hx) hn
    known x hx hn := by
      rw [h.mark]
      exact hu.known x (hlive ▸ hx) hn
    unmoved x hx hn hm := by
      rw [h.mark] at hm
      rw [h.parent?]
      exact hu.unmoved x (hlive ▸ hx) hn hm }

end FlowMerge.Merge
