import FlowMerge.Tree.Copy
import Mathlib.Logic.Relation
import Mathlib.Tactic.ByContra

namespace FlowMerge

theorem Overlay.delta?_blank {a : Overlay} (h : a.delta? ≠ none) : a.blank.delta? = some {} := by
  cases a with
  | plain => exact absurd rfl h
  | changed d => rfl
  | merged d i => rfl

namespace Tree

variable {t u v : Tree} {p c x : NodeId}

structure SameShape (t u : Tree) : Prop where
  size : t.size = u.size
  children : ∀ x, t.children x = u.children x
  parent? : ∀ x, t.parent? x = u.parent? x
  position : ∀ x, t.position x = u.position x

structure SameData (t u : Tree) : Prop where
  content : ∀ x, t.content x = u.content x
  overlay : ∀ x, t.overlay x = u.overlay x

structure Alike (t u : Tree) : Prop extends SameShape t u where
  content : ∀ x, t.content x = u.content x
  delta? : ∀ x, t.delta? x = u.delta? x

theorem SameShape.refl (t : Tree) : SameShape t t := ⟨rfl, fun _ ↦ rfl, fun _ ↦ rfl, fun _ ↦ rfl⟩

theorem SameShape.symm (h : SameShape t u) : SameShape u t :=
  ⟨h.size.symm, fun x ↦ (h.children x).symm, fun x ↦ (h.parent? x).symm,
    fun x ↦ (h.position x).symm⟩

theorem SameShape.trans (h : SameShape t u) (h' : SameShape u v) : SameShape t v :=
  ⟨h.size.trans h'.size, fun x ↦ (h.children x).trans (h'.children x),
    fun x ↦ (h.parent? x).trans (h'.parent? x), fun x ↦ (h.position x).trans (h'.position x)⟩

theorem SameShape.foldl {β : Type} {f : Tree → β → Tree} (h : ∀ t b, SameShape (f t b) t)
    (bs : List β) (t : Tree) : SameShape (bs.foldl f t) t := by
  induction bs generalizing t with
  | nil => exact .refl t
  | cons b bs ih => exact (ih (f t b)).trans (h t b)

theorem SameData.refl (t : Tree) : SameData t t := ⟨fun _ ↦ rfl, fun _ ↦ rfl⟩

theorem SameData.trans (h : SameData t u) (h' : SameData u v) : SameData t v :=
  ⟨fun x ↦ (h.content x).trans (h'.content x), fun x ↦ (h.overlay x).trans (h'.overlay x)⟩

theorem SameData.delta? (h : SameData t u) (x : NodeId) : t.delta? x = u.delta? x := by
  rw [Tree.delta?, h.overlay, Tree.delta?]

theorem SameData.mark (h : SameData t u) (x : NodeId) : t.mark x = u.mark x := by
  rw [Tree.mark, h.delta?, Tree.mark]

theorem SameData.foldl {β : Type} {f : Tree → β → Tree} (h : ∀ t b, SameData (f t b) t)
    (bs : List β) (t : Tree) : SameData (bs.foldl f t) t := by
  induction bs generalizing t with
  | nil => exact .refl t
  | cons b bs ih => exact (ih (f t b)).trans (h t b)

theorem Alike.refl (t : Tree) : Alike t t := ⟨.refl t, fun _ ↦ rfl, fun _ ↦ rfl⟩

theorem Alike.trans (h : Alike t u) (h' : Alike u v) : Alike t v :=
  ⟨h.toSameShape.trans h'.toSameShape, fun x ↦ (h.content x).trans (h'.content x),
    fun x ↦ (h.delta? x).trans (h'.delta? x)⟩

theorem Alike.mark (h : Alike t u) (x : NodeId) : t.mark x = u.mark x := by
  rw [Tree.mark, h.delta?, Tree.mark]

theorem node_of_size_le (h : t.size ≤ x) : t.node x = default := by
  simp only [node, Array.getD_eq_getD_getElem?]
  rw [Array.getElem?_eq_none h, Option.getD_none]

theorem children_of_size_le (h : t.size ≤ x) : t.children x = [] := by
  rw [children, node_of_size_le h]; rfl

theorem parent?_of_size_le (h : t.size ≤ x) : t.parent? x = none := by
  rw [parent?, node_of_size_le h]; rfl

theorem overlay_of_size_le (h : t.size ≤ x) : t.overlay x = .plain := by
  rw [overlay, node_of_size_le h]; rfl

theorem lt_size_of_delta? {y : Delta} (h : t.delta? x = some y) : x < t.size := by
  by_contra hx
  rw [delta?, overlay_of_size_le (Nat.le_of_not_lt hx)] at h
  cases h

theorem lt_size_of_parent? (h : t.parent? c = some p) : c < t.size := by
  by_contra hc
  rw [parent?_of_size_le (Nat.le_of_not_lt hc)] at h
  cases h

theorem lt_size_of_mem_children (h : c ∈ t.children p) : p < t.size := by
  by_contra hp
  rw [children_of_size_le (Nat.le_of_not_lt hp)] at h
  cases h

variable (t)

@[simp] theorem size_modify (id : NodeId) (f : Node → Node) : (t.modify id f).size = t.size := by
  simp only [size, modify, Array.size_modify]

theorem node_modify (id : NodeId) (f : Node → Node) (x : NodeId) :
    (t.modify id f).node x = if x = id ∧ x < t.size then f (t.node x) else t.node x := by
  simp only [node, modify, Array.getD_eq_getD_getElem?, Array.getElem?_modify]
  by_cases hx : x < t.size
  · rw [Array.getElem?_eq_getElem hx]
    by_cases h : id = x <;> simp [h, hx, eq_comm]
  · rw [Array.getElem?_eq_none (Nat.le_of_not_lt hx)]
    by_cases h : id = x <;> simp [h, hx]

theorem sameShape_modify (id : NodeId) (f : Node → Node)
    (h : ∀ n, (f n).children = n.children ∧ (f n).parent = n.parent ∧
      (f n).position = n.position) : SameShape (t.modify id f) t where
  size := size_modify t id f
  children x := by
    simp only [children, node_modify]
    split
    · exact (h _).1
    · rfl
  parent? x := by
    simp only [parent?, node_modify]
    split
    · exact (h _).2.1
    · rfl
  position x := by
    simp only [position, node_modify]
    split
    · exact (h _).2.2
    · rfl

theorem sameShape_modifyContent (id : NodeId) (f : Content → Content) :
    SameShape (t.modifyContent id f) t := sameShape_modify t id _ fun _ ↦ ⟨rfl, rfl, rfl⟩

theorem sameShape_modifyDelta (id : NodeId) (f : Delta → Delta) :
    SameShape (t.modifyDelta id f) t := sameShape_modify t id _ fun _ ↦ ⟨rfl, rfl, rfl⟩

theorem sameShape_modifyInfo (id : NodeId) (f : MergeInfo → MergeInfo) :
    SameShape (t.modifyInfo id f) t := sameShape_modify t id _ fun _ ↦ ⟨rfl, rfl, rfl⟩

theorem sameShape_setMark (id : NodeId) (m : Mark) : SameShape (t.setMark id m) t :=
  sameShape_modifyDelta t id _

theorem sameShape_recordUpdate (id : NodeId) (key : String) (e : Update) :
    SameShape (t.recordUpdate id key e) t := sameShape_modifyDelta t id _

theorem sameShape_addPlaceholder (id c : NodeId) : SameShape (t.addPlaceholder id c) t :=
  sameShape_modifyDelta t id _

theorem sameShape_markSubtree (id : NodeId) (m : Mark) : SameShape (t.markSubtree id m) t :=
  .foldl (fun t x ↦ sameShape_setMark t x m) _ t

theorem content_modifyContent (id : NodeId) (f : Content → Content) (x : NodeId) :
    (t.modifyContent id f).content x =
      if x = id ∧ x < t.size then f (t.content x) else t.content x := by
  simp only [content, modifyContent, node_modify]
  split <;> rfl

@[simp] theorem overlay_modifyContent (id : NodeId) (f : Content → Content) (x : NodeId) :
    (t.modifyContent id f).overlay x = t.overlay x := by
  simp only [overlay, modifyContent, node_modify]
  split <;> rfl

@[simp] theorem content_modifyDelta (id : NodeId) (f : Delta → Delta) (x : NodeId) :
    (t.modifyDelta id f).content x = t.content x := by
  simp only [content, modifyDelta, node_modify]
  split <;> rfl

@[simp] theorem content_modifyInfo (id : NodeId) (f : MergeInfo → MergeInfo) (x : NodeId) :
    (t.modifyInfo id f).content x = t.content x := by
  simp only [content, modifyInfo, node_modify]
  split <;> rfl

theorem overlay_modifyDelta (id : NodeId) (f : Delta → Delta) (x : NodeId) :
    (t.modifyDelta id f).overlay x =
      if x = id then (t.overlay x).mapDelta f else t.overlay x := by
  by_cases hx : x < t.size
  · simp only [overlay, modifyDelta, node_modify, hx, and_true]
    split <;> rfl
  · rw [overlay_of_size_le (Nat.le_of_not_lt hx),
      overlay_of_size_le (by rw [(sameShape_modifyDelta t id f).size]; exact Nat.le_of_not_lt hx)]
    simp [Overlay.mapDelta]

theorem delta?_modifyDelta (id : NodeId) (f : Delta → Delta) (x : NodeId) :
    (t.modifyDelta id f).delta? x = if x = id then (t.delta? x).map f else t.delta? x := by
  rw [delta?, overlay_modifyDelta]
  split
  · rw [delta?]; cases t.overlay x <;> rfl
  · rfl

@[simp] theorem delta?_modifyContent (id : NodeId) (f : Content → Content) (x : NodeId) :
    (t.modifyContent id f).delta? x = t.delta? x := by rw [delta?, overlay_modifyContent, delta?]

@[simp] theorem delta?_modifyInfo (id : NodeId) (f : MergeInfo → MergeInfo) (x : NodeId) :
    (t.modifyInfo id f).delta? x = t.delta? x := by
  simp only [delta?, overlay, modifyInfo, node_modify]
  split
  · cases (t.node x).overlay <;> rfl
  · rfl

theorem alike_modifyInfo (id : NodeId) (f : MergeInfo → MergeInfo) :
    Alike (t.modifyInfo id f) t :=
  ⟨sameShape_modifyInfo t id f, content_modifyInfo t id f, delta?_modifyInfo t id f⟩

theorem overlay_markSubtree (id : NodeId) (m : Mark) (x : NodeId) :
    (t.markSubtree id m).overlay x = if x ∈ t.preorder id then
      (t.overlay x).mapDelta fun d ↦ { d with mark := m } else t.overlay x := by
  rw [markSubtree]
  generalize t.preorder id = l
  induction l generalizing t with
  | nil => rfl
  | cons i l ih =>
    rw [List.foldl_cons, ih, setMark, overlay_modifyDelta]
    by_cases hi : x = i
    · rw [if_pos hi, if_pos (List.mem_cons.2 (.inl hi))]
      split
      · cases t.overlay x <;> rfl
      · rfl
    · rw [if_neg hi]
      simp only [List.mem_cons, hi, false_or]

theorem delta?_markSubtree (id : NodeId) (m : Mark) (x : NodeId) :
    (t.markSubtree id m).delta? x = if x ∈ t.preorder id then
      (t.delta? x).map fun d ↦ { d with mark := m } else t.delta? x := by
  rw [delta?, overlay_markSubtree]
  split
  · rw [delta?]; cases t.overlay x <;> rfl
  · rfl

@[simp] theorem content_markSubtree (id : NodeId) (m : Mark) (x : NodeId) :
    (t.markSubtree id m).content x = t.content x :=
  List.foldlRecOn _ _ (motive := fun u : Tree ↦ u.content x = t.content x) rfl
    fun u h i _ ↦ (content_modifyDelta u i _ x).trans h

@[simp] theorem size_alloc (c : Content) (a : Overlay) : (t.alloc c a).1.size = t.size + 1 := by
  simp only [size, alloc, Array.size_push]

theorem node_alloc (c : Content) (a : Overlay) (x : NodeId) :
    (t.alloc c a).1.node x =
      if x = t.size then { content := c, overlay := a } else t.node x := by
  simp only [node, alloc, Array.getD_eq_getD_getElem?, Array.getElem?_push, size]
  split <;> rfl

@[simp] theorem children_alloc (c : Content) (a : Overlay) (x : NodeId) :
    (t.alloc c a).1.children x = t.children x := by
  rw [children, node_alloc]
  split
  · next h => rw [children_of_size_le (Nat.le_of_eq h.symm)]
  · rfl

@[simp] theorem parent?_alloc (c : Content) (a : Overlay) (x : NodeId) :
    (t.alloc c a).1.parent? x = t.parent? x := by
  rw [parent?, node_alloc]
  split
  · next h => rw [parent?_of_size_le (Nat.le_of_eq h.symm)]
  · rfl

@[simp] theorem position_alloc (c : Content) (a : Overlay) (x : NodeId) :
    (t.alloc c a).1.position x = t.position x := by
  rw [position, node_alloc]
  split
  · next h => rw [position, node_of_size_le (Nat.le_of_eq h.symm)]; rfl
  · rfl

theorem content_alloc (c : Content) (a : Overlay) (x : NodeId) :
    (t.alloc c a).1.content x = if x = t.size then c else t.content x := by
  rw [content, node_alloc]
  split <;> rfl

theorem overlay_alloc (c : Content) (a : Overlay) (x : NodeId) :
    (t.alloc c a).1.overlay x = if x = t.size then a else t.overlay x := by
  rw [overlay, node_alloc]
  split <;> rfl

theorem delta?_alloc (c : Content) (a : Overlay) (x : NodeId) :
    (t.alloc c a).1.delta? x = if x = t.size then a.delta? else t.delta? x := by
  rw [delta?, overlay_alloc]
  split <;> rfl

theorem sameData_modify (id : NodeId) (f : Node → Node)
    (h : ∀ n, (f n).content = n.content ∧ (f n).overlay = n.overlay) :
    SameData (t.modify id f) t where
  content x := by
    simp only [content, node_modify]
    split
    · exact (h _).1
    · rfl
  overlay x := by
    simp only [overlay, node_modify]
    split
    · exact (h _).2
    · rfl

theorem sameData_renumber (p : NodeId) (i : Nat) : SameData (t.renumber p i) t :=
  .foldl (fun t (c : NodeId × Nat) ↦ sameData_modify t c.1 (fun n ↦ { n with position := c.2 })
    fun _ ↦ ⟨rfl, rfl⟩) _ t

theorem sameData_insertChild (p : NodeId) (i : Nat) (c : NodeId) :
    SameData (t.insertChild p i c) t := by
  refine (sameData_renumber _ p i).trans (.trans (sameData_modify _ c _ ?_)
    (sameData_modify t p _ ?_)) <;> exact fun _ ↦ ⟨rfl, rfl⟩

theorem sameData_detach (c : NodeId) : SameData (t.detach c) t := by
  unfold detach
  split
  · exact .refl t
  · refine (sameData_renumber _ _ _).trans (.trans (sameData_modify _ c _ ?_)
      (sameData_modify t _ _ ?_)) <;> exact fun _ ↦ ⟨rfl, rfl⟩

theorem modify_modify_comm (a b : NodeId) {f g : Node → Node} (h : ∀ n, f (g n) = g (f n)) :
    (t.modify a f).modify b g = (t.modify b g).modify a f := by
  refine congrArg Tree.mk (Array.ext (by simp only [modify, Array.size_modify]) fun i h₁ h₂ ↦ ?_)
  simp only [modify, Array.getElem_modify]
  split <;> split <;> simp [h]

def modifyData (a : NodeId) (g : Content → Content) (h : Overlay → Overlay) : Tree :=
  t.modify a fun n ↦ { n with content := g n.content, overlay := h n.overlay }

theorem renumber_modifyData (p : NodeId) (i : Nat) (a : NodeId) (g : Content → Content)
    (h : Overlay → Overlay) :
    (t.modifyData a g h).renumber p i = (t.renumber p i).modifyData a g h := by
  have hshape : SameShape (t.modifyData a g h) t := sameShape_modify t a _ fun _ ↦ ⟨rfl, rfl, rfl⟩
  rw [renumber, hshape.children, renumber]
  clear hshape
  generalize ((t.children p).drop i).zipIdx i = l
  induction l generalizing t with
  | nil => rfl
  | cons c l ih =>
    have hc : (t.modifyData a g h).modify c.1 (fun n ↦ { n with position := c.2 }) =
        (t.modify c.1 fun n ↦ { n with position := c.2 }).modifyData a g h :=
      modify_modify_comm t a c.1 fun _ ↦ rfl
    rw [List.foldl_cons, List.foldl_cons, ← ih, hc]

theorem insertChild_modifyData (p : NodeId) (i : Nat) (c a : NodeId) (g : Content → Content)
    (h : Overlay → Overlay) :
    (t.modifyData a g h).insertChild p i c = (t.insertChild p i c).modifyData a g h := by
  have h₁ : (t.modifyData a g h).modify p
        (fun n ↦ { n with children := n.children.insertIdx i c }) =
      (t.modify p fun n ↦ { n with children := n.children.insertIdx i c }).modifyData a g h :=
    modify_modify_comm t a p fun _ ↦ rfl
  have h₂ (u : Tree) : (u.modifyData a g h).modify c (fun n ↦ { n with parent := some p }) =
      (u.modify c fun n ↦ { n with parent := some p }).modifyData a g h :=
    modify_modify_comm u a c fun _ ↦ rfl
  simp only [insertChild, h₁, h₂, renumber_modifyData]

theorem insertChild_modifyContent (p : NodeId) (i : Nat) (c a : NodeId) (g : Content → Content) :
    (t.modifyContent a g).insertChild p i c = (t.insertChild p i c).modifyContent a g :=
  insertChild_modifyData t p i c a g id

theorem insertChild_modifyInfo (p : NodeId) (i : Nat) (c a : NodeId)
    (f : MergeInfo → MergeInfo) :
    (t.modifyInfo a f).insertChild p i c = (t.insertChild p i c).modifyInfo a f :=
  insertChild_modifyData t p i c a id (Overlay.mapInfo f)

end Tree

end FlowMerge
