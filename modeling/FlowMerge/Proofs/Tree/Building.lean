import FlowMerge.Proofs.Tree.Copies

namespace FlowMerge.Tree

variable {t : Tree} {c p : NodeId} {n : Nat}

inductive Operation where
  | alloc (c : Content) (a : Overlay)
  | addChild (parent : NodeId) (c : Content)
  | appendChild (parent child : NodeId)
  | insertChild (parent : NodeId) (i : Nat) (child : NodeId)
  | detach (id : NodeId)

/-- Whether a node may be attached below another one: it is detached and not the root, and the other
one is not part of its own subtree. -/
def Attachable (t : Tree) (parent child : NodeId) : Prop :=
  parent < t.size ∧ child < t.size ∧ child ≠ root ∧ t.parent? child = none ∧
    t.isAncestorOrSelf child parent = false

instance (t : Tree) (parent child : NodeId) : Decidable (t.Attachable parent child) :=
  inferInstanceAs (Decidable (_ ∧ _ ∧ _ ∧ _ ∧ _))

namespace Operation

def perform (t : Tree) : Operation → Tree
  | alloc c a => (t.alloc c a).1
  | addChild p c => (t.addChild p c).1
  | appendChild p c => t.appendChild p c
  | insertChild p i c => t.insertChild p i c
  | detach c => t.detach c

def Allowed (t : Tree) : Operation → Prop
  | alloc _ _ => True
  | addChild p _ => p < t.size
  | appendChild p c => t.Attachable p c
  | insertChild p i c => t.Attachable p c ∧ i ≤ (t.children p).length
  | detach c => c < t.size

instance (t : Tree) : (op : Operation) → Decidable (op.Allowed t)
  | alloc _ _ => .isTrue trivial
  | addChild p _ => inferInstanceAs (Decidable (p < t.size))
  | appendChild p c => inferInstanceAs (Decidable (t.Attachable p c))
  | insertChild p i c =>
    inferInstanceAs (Decidable (t.Attachable p c ∧ i ≤ (t.children p).length))
  | detach c => inferInstanceAs (Decidable (c < t.size))

end Operation

def Allows : Tree → List Operation → Prop
  | _, [] => True
  | t, op :: ops => op.Allowed t ∧ Allows (op.perform t) ops

instance decidableAllows : (t : Tree) → (ops : List Operation) → Decidable (t.Allows ops)
  | _, [] => .isTrue trivial
  | t, op :: ops =>
    have := decidableAllows (op.perform t) ops
    inferInstanceAs (Decidable (op.Allowed t ∧ Allows (op.perform t) ops))

theorem Attachable.insertChild (h : t.Attachable p c) (w : t.WellFormed) {i : Nat}
    (hi : i ≤ (t.children p).length) : (t.insertChild p i c).WellFormed := by
  obtain ⟨hp, hc, hr, htop, hapart⟩ := h
  refine w.insertChild hp hc hr htop (fun ha ↦ ?_) hi
  rw [w.isAncestorOrSelf_iff.2 ha] at hapart
  cases hapart

theorem WellFormed.perform (w : t.WellFormed) {op : Operation} (h : op.Allowed t) :
    (op.perform t).WellFormed := by
  cases op with
  | alloc c a => exact w.alloc c a
  | addChild p c => exact w.addChild h c
  | appendChild p c => exact Attachable.insertChild h w (Nat.le_refl _)
  | insertChild p i c => exact Attachable.insertChild h.1 w h.2
  | detach c => exact w.detach c

theorem WellFormed.foldl_perform (w : t.WellFormed) {ops : List Operation} (h : t.Allows ops) :
    (ops.foldl Operation.perform t).WellFormed := by
  induction ops generalizing t with
  | nil => exact w
  | cons op ops ih => exact ih (w.perform h.1) h.2

theorem position_root_renumber (w : (t.renumber p n).WellFormed) :
    (t.renumber p n).position root = t.position root := by
  refine position_renumber_of_not_mem fun h ↦ ?_
  rw [← children_renumber t p n] at h
  exact w.child_ne_root (w.mem_children.1 (List.mem_of_mem_drop h)) rfl

theorem position_root_insertChild (w : (t.insertChild p n c).WellFormed) (hp : p < t.size)
    (hc : c < t.size) : (t.insertChild p n c).position root = t.position root := by
  rw [insertChild_eq] at w ⊢
  rw [position_root_renumber w, (links_hang hp hc n root).2.2]

theorem WellFormed.position_root_addLast (w : t.WellFormed) (hp : p < t.size) (r : Content)
    (o : Overlay) : (t.addLast p r o).position root = t.position root := by
  have hw := w.addLast hp r o
  rw [addLast_eq] at hw ⊢
  rw [position_root_insertChild hw, position_alloc] <;> rw [size_alloc]
  · exact Nat.lt_succ_of_lt hp
  · exact Nat.lt_succ_self _

theorem WellFormed.position_root_detach (w : t.WellFormed) (c : NodeId) :
    (t.detach c).position root = t.position root := by
  cases hc : t.parent? c with
  | none => rw [detach_of_top hc]
  | some p =>
    have hw := w.detach c
    have hlinks := links_cut (w.parent_lt hc) (lt_size_of_parent? hc) (t.position c) root
    rw [detach_eq hc] at hw ⊢
    rw [position_root_renumber hw, hlinks.2.2, if_neg (w.child_ne_root hc).symm]

theorem WellFormed.position_root_perform (w : t.WellFormed) {op : Operation}
    (h : op.Allowed t) : (op.perform t).position root = t.position root := by
  have hw := w.perform h
  cases op with
  | alloc c a => exact position_alloc ..
  | addChild p c => exact w.position_root_addLast h c _
  | appendChild p c => exact position_root_insertChild hw h.1 h.2.1
  | insertChild p i c => exact position_root_insertChild hw h.1.1 h.1.2.1
  | detach c => exact w.position_root_detach c

theorem WellFormed.position_root_foldl_perform (w : t.WellFormed) {ops : List Operation}
    (h : t.Allows ops) : (ops.foldl Operation.perform t).position root = t.position root := by
  induction ops generalizing t with
  | nil => rfl
  | cons op ops ih => exact (ih (w.perform h.1) h.2).trans (w.position_root_perform h.1)

/-- Children, parents and positions tell the same story, in which no node lies below itself, and
paths lead to just the nodes that they are the paths of. -/
structure Coherent (t : Tree) : Prop where
  linked : ∀ p c i, (t.children p)[i]? = some c ↔ t.parent? c = some p ∧ t.position c = i
  ancestors : ∀ a c, a ∈ t.ancestors c ↔ Relation.TransGen t.IsParent a c
  acyclic : ∀ c, ¬ Relation.TransGen t.IsParent c c
  resolve_path : ∀ c, t.isAttached c = true → t.resolve (t.path c) = .ok c
  path_of_resolve : ∀ q c, t.resolve q = .ok c → t.isAttached c = true ∧ t.path c = q

theorem WellFormed.coherent (w : t.WellFormed) : Coherent t where
  linked := w.linked
  ancestors a c := by
    rw [w.mem_ancestors, Relation.TransGen.tail'_iff]
    exact exists_congr fun p ↦ and_comm
  acyclic c h := by
    obtain ⟨p, hc, hp⟩ := Relation.TransGen.tail'_iff.1 h
    exact w.not_above_of_parent hp hc
  resolve_path c h := w.resolve_path_self (w.mem_live.2 (w.isAttached_iff.1 h))
  path_of_resolve q c h :=
    ⟨w.isAttached_iff.2 (above_of_resolveFrom w h), Tree.path_of_resolve w h⟩

/-- However a tree is built, it is a tree, and paths are the addresses of its nodes. -/
theorem coherent_foldl_perform (r : Content) (o : Overlay) {ops : List Operation}
    (h : (rootedAt r o).Allows ops) : Coherent (ops.foldl Operation.perform (rootedAt r o)) :=
  ((wellFormed_rootedAt r o).foldl_perform h).coherent

/-- A node is taken out and put in again below a sibling, before that one's own child, which then
leaves the tree. A node made apart goes before both. -/
theorem coherent_after_moves :
    let t₀ := leaf { label := "description" }
    let ops : List Operation :=
      [.addChild root { label := "call" }, .addChild root { label := "loop" },
        .addChild 2 { label := "stop" }, .detach 1, .insertChild 2 0 1,
        .alloc { label := "manipulate" } .plain, .insertChild root 0 4, .detach 3]
    let t := ops.foldl Operation.perform t₀
    t₀.Allows ops ∧ Coherent t ∧ t.live = [root, 4, 2, 1] ∧ t.path 1 = [1, 0] ∧
      t.resolve (t.path 1) = .ok 1 := by
  intro t₀ ops t
  have h : t₀.Allows ops := by decide +kernel
  have hc : Coherent t := coherent_foldl_perform _ _ h
  exact ⟨h, hc, by decide +kernel, by decide +kernel, hc.resolve_path 1 (by decide +kernel)⟩

end FlowMerge.Tree
