import FlowMerge.Proofs.Tree.Copies

namespace FlowMerge.Tree

variable {t u v src : Tree} {p c x : NodeId} {a b : Overlay}

/-- Equal in children and contents, with overlays of the same kinds. -/
structure Akin (t u : Tree) : Prop where
  size : t.size = u.size
  children : ∀ x, t.children x = u.children x
  content : ∀ x, t.content x = u.content x
  kind : ∀ x, (t.overlay x).blank = (u.overlay x).blank

theorem children_modify {f : Node → Node} (hf : ∀ n, (f n).children = n.children) (t : Tree)
    (id x : NodeId) : (t.modify id f).children x = t.children x := by
  rw [children, node_modify]
  split
  · exact hf _
  · rfl

theorem children_insertChild_eq (t : Tree) (p : NodeId) (i : Nat) (c x : NodeId) :
    (t.insertChild p i c).children x =
      if x = p ∧ x < t.size then (t.children x).insertIdx i c else t.children x := by
  rw [insertChild_eq, children_renumber, hang, children_modify (by exact fun _ ↦ rfl), children,
    node_modify]
  split <;> rfl

namespace Akin

theorem refl (t : Tree) : Akin t t := ⟨rfl, fun _ ↦ rfl, fun _ ↦ rfl, fun _ ↦ rfl⟩

theorem symm (h : Akin t u) : Akin u t :=
  ⟨h.size.symm, fun x ↦ (h.children x).symm, fun x ↦ (h.content x).symm,
    fun x ↦ (h.kind x).symm⟩

theorem trans (h : Akin t u) (h' : Akin u v) : Akin t v :=
  ⟨h.size.trans h'.size, fun x ↦ (h.children x).trans (h'.children x),
    fun x ↦ (h.content x).trans (h'.content x), fun x ↦ (h.kind x).trans (h'.kind x)⟩

theorem modifyDelta (t : Tree) (id : NodeId) (f : Delta → Delta) : Akin (t.modifyDelta id f) t where
  size := (sameShape_modifyDelta t id f).size
  children := (sameShape_modifyDelta t id f).children
  content := content_modifyDelta t id f
  kind x := by
    rw [overlay_modifyDelta]
    split
    · cases t.overlay x <;> rfl
    · rfl

theorem markSubtree (t : Tree) (id : NodeId) (m : Mark) : Akin (t.markSubtree id m) t :=
  List.foldlRecOn _ _ (motive := fun u ↦ Akin u t) (refl t)
    fun u h x _ ↦ (modifyDelta u x fun d ↦ { d with mark := m }).trans h

section Additions

variable (h : Akin t u)
include h

theorem alloc (c : Content) (ha : a.blank = b.blank) : Akin (t.alloc c a).1 (u.alloc c b).1 where
  size := by rw [size_alloc, size_alloc, h.size]
  children x := by rw [children_alloc, children_alloc, h.children]
  content x := by rw [content_alloc, content_alloc, h.size, h.content]
  kind x := by
    rw [overlay_alloc, overlay_alloc, h.size, apply_ite Overlay.blank, ha, h.kind,
      ← apply_ite Overlay.blank]

theorem insertChild (p : NodeId) (i : Nat) (c : NodeId) :
    Akin (t.insertChild p i c) (u.insertChild p i c) where
  size := by rw [size_insertChild, size_insertChild, h.size]
  children x := by
    rw [children_insertChild_eq, children_insertChild_eq, h.size, h.children]
  content x := by
    rw [(sameData_insertChild t p i c).content, (sameData_insertChild u p i c).content, h.content]
  kind x := by
    rw [(sameData_insertChild t p i c).overlay, (sameData_insertChild u p i c).overlay, h.kind]

theorem addLast (p : NodeId) (c : Content) (a : Overlay) :
    Akin (t.addLast p c a) (u.addLast p c a) := by
  rw [addLast_eq, addLast_eq, h.children, h.size]
  exact (h.alloc c rfl).insertChild p _ _

theorem addAll (p : NodeId) (a : Overlay) (cs : List Content) :
    Akin (t.addAll p a cs) (u.addAll p a cs) := by
  induction cs generalizing t u with
  | nil => exact h
  | cons c cs ih => exact ih (h.addLast p c a)

theorem importBelow (src : Tree) (a : Overlay) (n : Nat) (id copy : NodeId) :
    Akin (importBelow src a n t id copy) (importBelow src a n u id copy) := by
  induction n generalizing t u id copy with
  | zero => exact h
  | succ n ih =>
    rw [Tree.importBelow, Tree.importBelow, importChildren_eq, importChildren_eq, h.size]
    exact List.foldl_rel (h.addAll copy a _) fun e _ _ _ hrest ↦ ih hrest e.1 e.2

theorem importSubtree (src : Tree) (id : NodeId) :
    Akin (t.importSubtree src id).1 (u.importSubtree src id).1 := by
  have ha := h.alloc (src.content id) (congrArg Overlay.blank (h.kind root))
  show Akin (Tree.importBelow src ((t.alloc _ _).1.overlay root).blank src.size _ id t.size)
    (Tree.importBelow src ((u.alloc _ _).1.overlay root).blank src.size _ id u.size)
  rw [ha.kind root, h.size]
  exact ha.importBelow src _ src.size id u.size

theorem resolve (r : Path) : t.resolve r = u.resolve r := by
  suffices hs : ∀ (rest : Path) (x : NodeId) (n : Nat),
      t.resolveFrom r x n rest = u.resolveFrom r x n rest from hs r root 0
  intro rest
  induction rest with
  | nil => exact fun _ _ ↦ rfl
  | cons i rest ih =>
    intro x n
    rw [resolveFrom, resolveFrom, h.children]
    split
    · exact ih _ _
    · rfl

theorem mirrors : Mirrors id t u where
  root := rfl
  children x _ := (h.children x).symm.trans (List.map_id _).symm
  content x _ := h.content x ▸ Content.same_refl _

end Additions

end Akin

end FlowMerge.Tree
