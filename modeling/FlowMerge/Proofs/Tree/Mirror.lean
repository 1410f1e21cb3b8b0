import FlowMerge.Proofs.Fields
import FlowMerge.Proofs.Tree.Moves
import Mathlib.Data.List.Zip

namespace FlowMerge.Tree

variable {t u v : Tree} {f g : NodeId → NodeId} {a c p x y : NodeId} {i m n : Nat}

/-- Subtrees are the same if a map from one to the other keeps contents and children. -/
theorem sameWithin_of_map (wt : t.WellFormed) (wu : u.WellFormed)
    (hchildren : ∀ y, t.Above x y → u.children (f y) = (t.children y).map f)
    (hcontent : ∀ y, t.Above x y → (u.content (f y) == t.content y) = true)
    (hx : f x < u.size) (hn : u.size ≤ n + u.depth (f x)) : u.sameWithin t n (f x) x = true := by
  induction x using wt.down_induction generalizing n with
  | h x ih =>
    have hd := wu.depth_lt hx
    obtain ⟨n, rfl⟩ := Nat.exists_eq_succ_of_ne_zero (show n ≠ 0 by omega)
    rw [sameWithin, hchildren x .refl, List.length_map, beq_self_eq_true, Bool.and_true,
      hcontent x .refl, Bool.true_and, List.all_eq_true]
    intro q hq
    rw [List.zip_map_left, List.mem_map] at hq
    obtain ⟨⟨c, c'⟩, hc, rfl⟩ := hq
    obtain ⟨i, hi⟩ := List.mem_iff_getElem?.1 hc
    rw [List.getElem?_zip_eq_some] at hi
    obtain rfl : c = c' := Option.some_inj.1 (hi.1.symm.trans hi.2)
    have hcx := List.mem_of_getElem? hi.1
    have hfc : f c ∈ u.children (f x) := hchildren x .refl ▸ List.mem_map_of_mem hcx
    have hdc := wu.depth_of_parent (wu.mem_children.1 hfc)
    have hbelow {y : NodeId} (hy : t.Above c y) : t.Above x y :=
      hy.head (wt.mem_children.1 hcx)
    exact ih c hcx (fun y hy ↦ hchildren y (hbelow hy)) (fun y hy ↦ hcontent y (hbelow hy))
      (wu.child_lt hfc) (show u.size ≤ n + u.depth (f c) by omega)

theorem sameWithin_symm {b : NodeId} (h : t.sameWithin u n a b = true) :
    u.sameWithin t n b a = true := by
  induction n generalizing a b with
  | zero => cases h
  | succ n ih =>
    rw [sameWithin, Bool.and_eq_true, Bool.and_eq_true, List.all_eq_true] at h ⊢
    obtain ⟨⟨hcontent, hlen⟩, hall⟩ := h
    refine ⟨⟨Content.same_symm hcontent, BEq.symm hlen⟩, fun q hq ↦ ih (hall q.swap ?_)⟩
    rw [← List.zip_swap]
    exact List.mem_map_of_mem hq

theorem WellFormed.sameWithin_eq (w : t.WellFormed) {b : NodeId} (ha : a < t.size)
    (hn : t.size ≤ n + t.depth a) (hm : t.size ≤ m + t.depth a) :
    t.sameWithin u n a b = t.sameWithin u m a b := by
  refine congrFun (w.within_eq (f := fun n a b ↦ t.sameWithin u n a b) (fun n m y ih ↦ ?_)
    ha hn hm) b
  funext b
  rw [sameWithin, sameWithin]
  congr 1
  rw [Bool.eq_iff_iff, List.all_eq_true, List.all_eq_true]
  refine forall₂_congr fun q hq ↦ ?_
  rw [congrFun (ih q.1 (List.of_mem_zip hq).1) q.2]

theorem sameSubtree_symm (wt : t.WellFormed) (wu : u.WellFormed) {b : NodeId} (ha : a < t.size)
    (hb : b < u.size) (h : t.sameSubtree a u b = true) : u.sameSubtree b t a = true := by
  rw [sameSubtree, wt.sameWithin_eq (m := t.size + u.size) ha (by omega) (by omega)] at h
  rw [sameSubtree, wu.sameWithin_eq (m := t.size + u.size) hb (by omega) (by omega)]
  exact sameWithin_symm h

/-- The live nodes of the tree `t` have their images in `u`, with the images of their children as
children. -/
structure Embeds (f : NodeId → NodeId) (t u : Tree) : Prop where
  root : f root = root
  children : ∀ x ∈ t.live, u.children (f x) = (t.children x).map f

structure Mirrors (f : NodeId → NodeId) (t u : Tree) : Prop extends Embeds f t u where
  content : ∀ x ∈ t.live, (u.content (f x) == t.content x) = true

def Unambiguous (t : Tree) : Prop := ∀ x ∈ t.live, (t.content x).Unambiguous

instance (t : Tree) : Decidable t.Unambiguous :=
  inferInstanceAs (Decidable (∀ x ∈ t.live, (t.content x).Unambiguous))

namespace Embeds

theorem map_parent (h : Embeds f t u) (wt : t.WellFormed) (wu : u.WellFormed) (hx : x ∈ t.live)
    (hp : t.parent? x = some p) : u.parent? (f x) = some (f p) := by
  rw [← wu.mem_children, h.children p (wt.parent_live hx hp)]
  exact List.mem_map_of_mem (wt.mem_children.2 hp)

theorem map_live (h : Embeds f t u) (wt : t.WellFormed) (wu : u.WellFormed) (hx : x ∈ t.live) :
    f x ∈ u.live := by
  induction x using wt.up_induction with
  | h x ih =>
    by_cases hr : x = Tree.root
    · rw [hr, h.root]
      exact wu.root_mem_live
    · obtain ⟨p, hp, hpl⟩ := wt.exists_parent_of_live hx hr
      exact wu.child_live (ih p hp hpl) (wu.mem_children.2 (h.map_parent wt wu hx hp))

theorem preorder_map (h : Embeds f t u) (wt : t.WellFormed) (wu : u.WellFormed)
    (hx : x ∈ t.live) : u.preorder (f x) = (t.preorder x).map f := by
  induction x using wt.down_induction with
  | h x ih =>
    rw [wu.preorder_eq (wu.live_lt (h.map_live wt wu hx)), wt.preorder_eq (wt.live_lt hx),
      h.children x hx, List.map_cons, List.flatMap_map, List.map_flatMap]
    congr 1
    exact List.flatMap_congr fun c hc ↦ ih c hc (wt.child_live hx hc)

theorem live_map (h : Embeds f t u) (wt : t.WellFormed) (wu : u.WellFormed) :
    u.live = t.live.map f := by
  have hm := h.preorder_map wt wu wt.root_mem_live
  rwa [h.root] at hm

theorem resolve_path (h : Embeds f t u) (wt : t.WellFormed) (hx : x ∈ t.live) :
    u.resolve (t.path x) = .ok (f x) := by
  refine Tree.resolve_path wt f h.root hx fun c p hc hp ↦ ?_
  rw [h.children p (wt.parent_live (wt.above_live hx hc) hp), List.getElem?_map,
    wt.getElem?_position hp]
  rfl

theorem path_map (h : Embeds f t u) (wt : t.WellFormed) (wu : u.WellFormed) (hx : x ∈ t.live) :
    u.path (f x) = t.path x := path_of_resolve wu (h.resolve_path wt hx)

end Embeds

namespace Mirrors

theorem of_sameShape (h : SameShape u t) (hc : ∀ x, u.content x = t.content x) :
    Mirrors id t u where
  root := rfl
  children x _ := (h.children x).trans (List.map_id _).symm
  content x _ := hc x ▸ Content.same_refl _

theorem trans (h : Mirrors f t u) (h' : Mirrors g u v) (wt : t.WellFormed) (wu : u.WellFormed) :
    Mirrors (g ∘ f) t v where
  root := by rw [Function.comp_apply, h.root, h'.root]
  children x hx := by
    rw [Function.comp_apply, h'.children _ (h.map_live wt wu hx), h.children x hx, List.map_map]
  content x hx := Content.same_trans (h'.content _ (h.map_live wt wu hx)) (h.content x hx)

theorem sameWithin (h : Mirrors f t u) (wt : t.WellFormed) (wu : u.WellFormed) (hx : x ∈ t.live)
    (hn : u.size ≤ n + u.depth (f x)) : u.sameWithin t n (f x) x = true :=
  sameWithin_of_map wt wu (fun _ hy ↦ h.children _ (wt.live_of_above hx hy))
    (fun _ hy ↦ h.content _ (wt.live_of_above hx hy)) (wu.live_lt (h.map_live wt wu hx)) hn

theorem sameContent (h : Mirrors f t u) (wt : t.WellFormed) (wu : u.WellFormed) :
    u.sameContent t = true := by
  have hs := h.sameWithin wt wu wt.root_mem_live (n := u.size) (Nat.le_add_right ..)
  rwa [h.root] at hs

end Mirrors

theorem length_preorder_of_sameWithin (wt : t.WellFormed) (wu : u.WellFormed) {b : NodeId}
    (ha : a < t.size) (hb : b < u.size) (h : t.sameWithin u n a b = true) :
    (t.preorder a).length = (u.preorder b).length := by
  induction n generalizing a b with
  | zero => cases h
  | succ n ih =>
    rw [Tree.sameWithin, Bool.and_eq_true, Bool.and_eq_true, List.all_eq_true] at h
    obtain ⟨⟨-, hlen⟩, hall⟩ := h
    rw [beq_iff_eq] at hlen
    have hchildren : (t.children a).map (fun c ↦ (t.preorder c).length) =
        (u.children b).map fun c ↦ (u.preorder c).length := by
      refine List.ext_getElem (by rw [List.length_map, List.length_map, hlen]) fun i hi hi' ↦ ?_
      rw [List.length_map] at hi hi'
      rw [List.getElem_map, List.getElem_map]
      refine ih (wt.child_lt (List.getElem_mem hi)) (wu.child_lt (List.getElem_mem hi'))
        (hall ((t.children a)[i], (u.children b)[i]) ?_)
      rw [List.mem_iff_getElem]
      exact ⟨i, by rw [List.length_zip]; omega, List.getElem_zip⟩
    rw [wt.preorder_eq ha, wu.preorder_eq hb, List.length_cons, List.length_cons,
      List.length_flatMap, List.length_flatMap, hchildren]

theorem length_live_of_sameContent (wt : t.WellFormed) (wu : u.WellFormed)
    (h : t.sameContent u = true) : t.live.length = u.live.length :=
  length_preorder_of_sameWithin wt wu wt.root_lt wu.root_lt h

def place (t : Tree) (id : NodeId) : NodeId := t.live.idxOf id

variable {o : Nat → Overlay}

@[simp] theorem size_rebuild (t : Tree) (o : Nat → Overlay) :
    (t.rebuild o).size = t.live.length := by
  simp only [size, rebuild, List.size_toArray, List.length_map, List.length_zipIdx]

theorem node_rebuild (o : Nat → Overlay) (hx : x ∈ t.live) :
    (t.rebuild o).node (t.place x) =
      { content := t.content x
        children := (t.children x).map t.place
        parent := (t.parent? x).map t.place
        position := t.position x
        overlay := o (t.place x) } := by
  have hi := List.getElem?_idxOf hx
  simp only [node, rebuild, Array.getD_eq_getD_getElem?, List.getElem?_toArray, List.getElem?_map,
    List.getElem?_zipIdx, place, hi, Option.map_some, Option.getD_some, Nat.zero_add]
  rfl

theorem children_rebuild (o : Nat → Overlay) (hx : x ∈ t.live) :
    (t.rebuild o).children (t.place x) = (t.children x).map t.place :=
  congrArg Node.children (node_rebuild o hx)

theorem parent?_rebuild (o : Nat → Overlay) (hx : x ∈ t.live) :
    (t.rebuild o).parent? (t.place x) = (t.parent? x).map t.place :=
  congrArg Node.parent (node_rebuild o hx)

theorem position_rebuild (o : Nat → Overlay) (hx : x ∈ t.live) :
    (t.rebuild o).position (t.place x) = t.position x := by
  rw [position, node_rebuild o hx]

theorem content_rebuild (o : Nat → Overlay) (hx : x ∈ t.live) :
    (t.rebuild o).content (t.place x) = t.content x := by
  rw [content, node_rebuild o hx]

theorem overlay_rebuild (o : Nat → Overlay) (hx : x ∈ t.live) :
    (t.rebuild o).overlay (t.place x) = o (t.place x) := by
  rw [overlay, node_rebuild o hx]

theorem place_lt (hx : x ∈ t.live) : t.place x < t.live.length := List.idxOf_lt_length_of_mem hx

theorem place_inj (hx : x ∈ t.live) (h : t.place x = t.place y) : x = y :=
  (List.idxOf_inj hx).1 h

namespace WellFormed

theorem place_root (w : t.WellFormed) : t.place root = root := by
  rw [place, w.live_eq, List.idxOf_cons_self]
  rfl

theorem exists_place (w : t.WellFormed) {k : NodeId} (hk : k < t.live.length) :
    ∃ x ∈ t.live, t.place x = k :=
  ⟨t.live[k], List.getElem_mem hk, w.nodup_live.idxOf_getElem k hk⟩

theorem map_place_live (w : t.WellFormed) : t.live.map t.place = List.range t.live.length := by
  refine List.ext_getElem (by rw [List.length_map, List.length_range]) fun i h _ ↦ ?_
  rw [List.getElem_map, List.getElem_range]
  exact w.nodup_live.idxOf_getElem i (by rwa [List.length_map] at h)

theorem linked_rebuild (w : t.WellFormed) (o : Nat → Overlay) (p c : NodeId) (i : Nat) :
    ((t.rebuild o).children p)[i]? = some c ↔
      (t.rebuild o).parent? c = some p ∧ (t.rebuild o).position c = i := by
  constructor
  · intro h
    have hp := lt_size_of_mem_children (List.mem_of_getElem? h)
    rw [size_rebuild] at hp
    obtain ⟨q, hq, rfl⟩ := w.exists_place hp
    rw [children_rebuild o hq, List.getElem?_map, Option.map_eq_some_iff] at h
    obtain ⟨x, hx, rfl⟩ := h
    have hxl := w.child_live hq (List.mem_of_getElem? hx)
    obtain ⟨hpar, hpos⟩ := (w.linked q x i).1 hx
    rw [parent?_rebuild o hxl, position_rebuild o hxl, hpar]
    exact ⟨rfl, hpos⟩
  · rintro ⟨hpar, hpos⟩
    have hc := lt_size_of_parent? hpar
    rw [size_rebuild] at hc
    obtain ⟨x, hx, rfl⟩ := w.exists_place hc
    rw [parent?_rebuild o hx, Option.map_eq_some_iff] at hpar
    obtain ⟨q, hq, rfl⟩ := hpar
    rw [position_rebuild o hx] at hpos
    rw [children_rebuild o (w.parent_live hx hq), List.getElem?_map, (w.linked q x i).2 ⟨hq, hpos⟩]
    rfl

theorem rebuild (w : t.WellFormed) (o : Nat → Overlay) : (t.rebuild o).WellFormed where
  root_lt := by
    rw [size_rebuild, w.live_eq]
    exact Nat.succ_pos _
  root_top := by
    have h := parent?_rebuild o w.root_mem_live
    rwa [w.place_root, w.root_top] at h
  linked := w.linked_rebuild o
  acyclic := by
    refine ⟨fun k ↦ t.depth ((t.live[k]?).getD root), fun c p h ↦ ?_⟩
    have hget {x : NodeId} (hx : x ∈ t.live) : (t.live[t.place x]?).getD root = x := by
      rw [place, List.getElem?_idxOf hx, Option.getD_some]
    have hc := lt_size_of_parent? h
    rw [size_rebuild] at hc
    obtain ⟨x, hx, rfl⟩ := w.exists_place hc
    rw [parent?_rebuild o hx, Option.map_eq_some_iff] at h
    obtain ⟨q, hq, rfl⟩ := h
    simp only [hget hx, hget (w.parent_live hx hq), w.depth_of_parent hq]
    exact Nat.lt_succ_self _

theorem mirrors_rebuild (w : t.WellFormed) (o : Nat → Overlay) :
    Mirrors t.place t (t.rebuild o) where
  root := w.place_root
  children _ hx := children_rebuild o hx
  content _ hx := by rw [content_rebuild o hx]; exact Content.same_refl _

theorem live_rebuild (w : t.WellFormed) (o : Nat → Overlay) :
    (t.rebuild o).live = List.range t.live.length := by
  rw [(w.mirrors_rebuild o).live_map w (w.rebuild o), w.map_place_live]

end WellFormed

end FlowMerge.Tree
