import FlowMerge.Proofs.Script.Growth
import FlowMerge.Proofs.Annotations

namespace FlowMerge

namespace Tree

variable {t u : Tree} {a c p x y : NodeId} {f : Delta → Delta}

def placeholders (t : Tree) (x : NodeId) : List NodeId :=
  ((t.delta? x).map Delta.placeholders).getD []

def moveId? (t : Tree) (x : NodeId) : Option Nat := (t.delta? x).bind Delta.moveId

def Holds (t : Tree) (p c : NodeId) : Prop := c ∈ t.children p ∨ c ∈ t.placeholders p

abbrev Reaches (t : Tree) : NodeId → NodeId → Prop := Relation.ReflTransGen t.Holds

theorem WellFormed.reaches_of_above (w : t.WellFormed) (h : t.Above a x) : t.Reaches a x :=
  Relation.ReflTransGen.mono (fun _ _ hp ↦ .inl (w.mem_children.2 hp)) _ _ h

theorem Holds.lt (h : t.Holds p c) : p < t.size := by
  by_contra hp
  rw [Nat.not_lt] at hp
  rcases h with h | h
  · rw [children_of_size_le hp] at h
    cases h
  · rw [placeholders, delta?, overlay_of_size_le hp] at h
    cases h

/-- When the links to one node are given up, the rest is reached as before or from that node. -/
theorem Reaches.cut (h : ∀ p x, t.Holds p x → x = c ∨ u.Holds p x) (hx : t.Reaches a x) :
    u.Reaches a x ∨ u.Reaches c x := by
  induction hx with
  | refl => exact .inl .refl
  | @tail p x _ hp ih =>
    rcases h p x hp with rfl | hp'
    · exact .inr .refl
    · exact ih.imp (·.tail hp') (·.tail hp')

theorem mark_eq_of_delta? (h : u.delta? y = t.delta? x) : u.mark y = t.mark x := by
  rw [mark, h, mark]

theorem moveId?_eq_of_delta? (h : u.delta? y = t.delta? x) : u.moveId? y = t.moveId? x := by
  rw [moveId?, h, moveId?]

theorem placeholders_eq_of_delta? (h : u.delta? y = t.delta? x) :
    u.placeholders y = t.placeholders x := by
  rw [placeholders, h, placeholders]

theorem mark_eq_of_map (h : u.delta? x = (t.delta? x).map f) (hf : ∀ y, (f y).mark = y.mark) :
    u.mark x = t.mark x := by
  rw [mark, h, Option.map_map, mark]
  exact congrArg (fun g ↦ ((t.delta? x).map g).getD _) (funext hf)

theorem placeholders_eq_of_map (h : u.delta? x = (t.delta? x).map f)
    (hf : ∀ y, (f y).placeholders = y.placeholders) : u.placeholders x = t.placeholders x := by
  rw [placeholders, h, Option.map_map, placeholders]
  exact congrArg (fun g ↦ ((t.delta? x).map g).getD _) (funext hf)

theorem placeholders_of_size_le (h : t.size ≤ x) : t.placeholders x = [] := by
  rw [placeholders, delta?, overlay_of_size_le h]
  rfl

theorem mark_of_size_le (h : t.size ≤ x) : t.mark x = .unchanged := by
  rw [mark, delta?, overlay_of_size_le h]
  rfl

theorem lt_size_of_mark (h : t.mark x ≠ .unchanged) : x < t.size :=
  Nat.lt_of_not_le fun hle ↦ h (mark_of_size_le hle)

theorem SameData.placeholders (h : SameData u t) (x : NodeId) :
    u.placeholders x = t.placeholders x := placeholders_eq_of_delta? (h.delta? x)

end Tree

namespace Script

open FlowMerge.Tree

variable {t d d' : Tree} {c : Change} {node parent x y : NodeId} {k : Nat}

theorem resolveFrom_pristine (w : t.WellFormed) (hx : x ∈ t.live) (whole r : Path) (n : Nat) :
    (pristine t).resolveFrom whole (t.place x) n r =
      (t.resolveFrom whole x n r).map t.place := by
  induction r generalizing x n with
  | nil => rfl
  | cons i r ih =>
    rw [resolveFrom, resolveFrom, children_pristine w hx, List.getElem?_map, List.length_map]
    cases hc : (t.children x)[i]? with
    | none => rfl
    | some y => exact ih (w.child_live hx (List.mem_of_getElem? hc)) (n + 1)

theorem exists_resolve_of_pristine (w : t.WellFormed) {r : Path}
    (h : (pristine t).resolve r = .ok x) :
    ∃ o ∈ t.live, t.resolve r = .ok o ∧ t.place o = x := by
  have hr := resolveFrom_pristine w w.root_mem_live r r 0
  rw [w.place_root] at hr
  rw [resolve, hr] at h
  cases ho : t.resolveFrom r root 0 r with
  | error e =>
    rw [ho] at h
    cases h
  | ok o =>
    rw [ho] at h
    exact ⟨o, live_of_resolve w ho, ho, Except.ok.inj h⟩

def standIn (d : Tree) (k : Nat) (node : NodeId) : Delta :=
  { mark := .movedAway, moveId := some k, origin := ((d.delta? node).getD {}).origin }

theorem detachMoved_eq (d : Tree) (k : Nat) (node parent : NodeId) :
    detachMoved d k node parent = (((d.alloc
      (revert (d.content node) ((d.delta? node).getD {}).updates)
      (.changed (standIn d k node))).1.addPlaceholder parent d.size).detach node).modifyDelta node
        fun y ↦ { y with mark := .movedHere, moveId := some k } := rfl

theorem content_detachMoved (d : Tree) (k : Nat) (node parent : NodeId) :
    (detachMoved d k node parent).content d.size =
      revert (d.content node) ((d.delta? node).getD {}).updates := by
  rw [detachMoved_eq, content_modifyDelta, (sameData_detach _ _).content, addPlaceholder,
    content_modifyDelta, content_alloc, if_pos rfl]

theorem size_detachMoved (d : Tree) (k : Nat) (node parent : NodeId) :
    (detachMoved d k node parent).size = d.size + 1 := by
  rw [detachMoved_eq, (sameShape_modifyDelta _ _ _).size, size_detach,
    (sameShape_addPlaceholder _ _ _).size, size_alloc]

theorem delta?_detachMoved (d : Tree) (k : Nat) (hn : node < d.size) (hne : node ≠ parent)
    (hp : parent < d.size) (x : NodeId) : (detachMoved d k node parent).delta? x =
      if x = d.size then some (standIn d k node)
      else if x = node then (d.delta? x).map fun y ↦ { y with
        mark := .movedHere, moveId := some k }
      else if x = parent then (d.delta? x).map fun y ↦ { y with
        placeholders := y.placeholders ++ [d.size] }
      else d.delta? x := by
  rw [detachMoved_eq, delta?_modifyDelta, (sameData_detach _ _).delta?, addPlaceholder,
    delta?_modifyDelta, delta?_alloc]
  by_cases hs : x = d.size
  · rw [if_pos hs, if_pos hs, if_neg (hs ▸ (Nat.ne_of_lt hn).symm),
      if_neg (hs ▸ (Nat.ne_of_lt hp).symm)]
    rfl
  · rw [if_neg hs, if_neg hs]
    by_cases hx : x = node
    · rw [if_pos hx, if_pos hx, if_neg (hx ▸ hne)]
    · rw [if_neg hx, if_neg hx]

theorem steady_detachMoved (d : Tree) (k : Nat) (node parent : NodeId) :
    Steady d (detachMoved d k node parent) :=
  (((Steady.alloc d _ _).trans (.addPlaceholder _ parent d.size)).trans (.detach _ node)).trans
    (.modifyDelta _ node fun _ ↦ ⟨rfl, rfl, .inr (.inl rfl)⟩)

def deleteAt (d : Tree) (node parent : NodeId) : Tree :=
  ((d.markSubtree node .deleted).addPlaceholder parent node).detach node

theorem size_deleteAt (d : Tree) (node parent : NodeId) :
    (deleteAt d node parent).size = d.size :=
  (size_detach _ _).trans
    ((sameShape_addPlaceholder _ _ _).size.trans (sameShape_markSubtree _ _ _).size)

theorem content_deleteAt (d : Tree) (node parent x : NodeId) :
    (deleteAt d node parent).content x = d.content x :=
  ((sameData_detach _ _).content x).trans
    ((content_modifyDelta _ _ _ _).trans (content_markSubtree ..))

theorem above_deleteAt (w : d.WellFormed) : (deleteAt d node parent).Above x y ↔
    d.Above x y ∧ (d.Above node y → d.Above node x) := by
  have hs := (sameShape_addPlaceholder _ parent node).trans (sameShape_markSubtree d node .deleted)
  rw [deleteAt, (hs.wellFormed w).above_detach, hs.above, hs.above, hs.above]

theorem delta?_deleteAt (w : d.WellFormed) (hp : d.parent? node = some parent) (x : NodeId) :
    (deleteAt d node parent).delta? x =
      if x ∈ d.preorder node then (d.delta? x).map fun y ↦ { y with mark := .deleted }
      else if x = parent then (d.delta? x).map fun y ↦ { y with
        placeholders := y.placeholders ++ [node] }
      else d.delta? x := by
  have hnot : parent ∉ d.preorder node := fun h ↦
    w.not_above_of_parent hp (above_of_mem_preorderWithin w h)
  rw [deleteAt, (sameData_detach _ _).delta?, addPlaceholder, delta?_modifyDelta,
    delta?_markSubtree]
  by_cases hx : x = parent
  · rw [if_pos hx, if_neg (hx ▸ hnot), if_neg (hx ▸ hnot), if_pos hx]
  · rw [if_neg hx, if_neg hx]

theorem steady_deleteAt (d : Tree) (node parent : NodeId) : Steady d (deleteAt d node parent) :=
  ((Steady.markDeleted d node).trans (.addPlaceholder _ parent node)).trans (.detach _ node)

/-- The tree `d'` is `d` with a detached tree of inserted nodes, the first of which is its top. -/
structure Sprouted (d d' : Tree) : Prop where
  wellFormed : d'.WellFormed
  above : ∀ y, d'.Above d.size y ↔ d.size ≤ y ∧ y < d'.size
  others : ∀ y < d.size, d'.children y = d.children y ∧ d'.parent? y = d.parent? y
  data : ∀ y < d.size, d'.content y = d.content y ∧ d'.overlay y = d.overlay y
  inserted : ∀ y, d.size ≤ y → y < d'.size → d'.delta? y = some { mark := .inserted }

namespace Sprouted

variable (h : Sprouted d d')
include h

theorem lt : d.size < d'.size := ((h.above d.size).1 .refl).2

theorem detached (w : d.WellFormed) : d'.parent? d.size = none := by
  cases hp : d'.parent? d.size with
  | none => rfl
  | some p =>
    -- an older parent would have the new node among its children
    by_cases hlt : p < d.size
    · have hc := h.wellFormed.mem_children.2 hp
      rw [(h.others p hlt).1] at hc
      exact absurd (w.child_lt hc) (Nat.lt_irrefl _)
    · have hab := (h.above p).2 ⟨Nat.le_of_not_lt hlt, h.wellFormed.parent_lt hp⟩
      exact absurd hab (h.wellFormed.not_above_of_parent hp)

theorem delta? (hy : y < d.size) : d'.delta? y = d.delta? y := by
  rw [Tree.delta?, (h.data y hy).2, Tree.delta?]

theorem delta?_cases (y : NodeId) : d'.delta? y = d.delta? y ∨
    d.size ≤ y ∧ d'.delta? y = some { mark := .inserted } := by
  by_cases hy : y < d.size
  · exact .inl (h.delta? hy)
  · have hle := Nat.le_of_not_lt hy
    by_cases hy' : y < d'.size
    · exact .inr ⟨hle, h.inserted y hle hy'⟩
    · rw [Tree.delta?, overlay_of_size_le (Nat.le_of_not_lt hy'), Tree.delta?,
        overlay_of_size_le hle]
      exact .inl rfl

theorem steady : Steady d d' :=
  .of_data (Nat.le_of_lt h.lt) (fun y hy ↦ (h.data y hy).1) fun _ hy ↦ h.delta? hy

theorem above_old (w : d.WellFormed) (hy : y < d.size) (ha : d'.Above x y) :
    x < d.size ∧ d.Above x y := by
  induction ha using Relation.ReflTransGen.head_induction_on with
  | refl => exact ⟨hy, .refl⟩
  | @head x q hq _ ih =>
    rw [IsParent, (h.others q ih.1).2] at hq
    exact ⟨w.parent_lt hq, ih.2.head hq⟩

end Sprouted

theorem sprouted_importSubtree (w : d.WellFormed) {u : Tree} (wu : u.WellFormed)
    (hroot : d.delta? root ≠ none) :
    Sprouted d ((d.importSubtree u root).1.markSubtree d.size .inserted) := by
  obtain ⟨g, h⟩ := copied_importSubtree wu w wu.root_lt
  generalize (d.importSubtree u root).1 = d' at h ⊢
  have hshape := sameShape_markSubtree d' d.size .inserted
  exact {
    wellFormed := hshape.wellFormed h.wellFormed
    above y := by
      rw [hshape.above, hshape.size, h.above_iff wu w]
    others y hy := by
      rw [hshape.children, hshape.parent?]
      exact h.others y hy
    data y hy := h.data_markSubtree wu w .inserted hy
    inserted y hy hy' :=
      h.delta?_markSubtree_size wu w .inserted (Overlay.delta?_blank hroot) hy (hshape.size ▸ hy') }

theorem attach_ok (h : attach d c node = .ok d') : ∃ r i q, c.new = some (r ++ [i]) ∧
    d.resolve r = .ok q ∧ i ≤ (d.children q).length ∧ d' = d.insertChild q i node := by
  unfold attach at h
  split at h
  · cases h
  · next path hnew =>
    split at h
    · next above i habove hlast =>
      have hpath : path = above ++ [i] := by
        rw [Path.parent?] at habove
        split at habove
        · cases habove
        · rw [← Option.some_inj.1 habove]
          exact (List.dropLast_append_getLast? i hlast).symm
      cases hq : d.resolve above with
      | error e =>
        rw [hq] at h
        cases h
      | ok q =>
        simp only [hq, bind, Except.bind] at h
        split at h
        · next u hu =>
          rw [insertChild?] at hu
          split at hu
          · next hi =>
            refine ⟨above, i, q, hpath ▸ hnew, hq, hi, ?_⟩
            rw [← Except.ok.inj h, ← Option.some_inj.1 hu]
          · cases hu
        · cases h
    · cases h

theorem steady_attach (h : attach d c node = .ok d') : Steady d d' := by
  obtain ⟨r, i, q, -, -, -, rfl⟩ := attach_ok h
  exact .insertChild d q i node

end Script

end FlowMerge
