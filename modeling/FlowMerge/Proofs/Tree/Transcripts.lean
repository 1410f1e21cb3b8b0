import FlowMerge.Proofs.Tree.Copies
import FlowMerge.Proofs.Tree.Order
import Mathlib.Logic.Function.Basic

namespace FlowMerge.Tree

open Function (update)

variable {t u v : Tree} {g : NodeId → Content} {o : Nat → Overlay}
  {pre post : List NodeId} {p x : NodeId} {c : Content}

/-- The children, and where there is no parent the positions, say where all nodes are. -/
theorem eq_of_children (wt : t.WellFormed) (wu : u.WellFormed) (hsize : t.size = u.size)
    (hchildren : ∀ x < t.size, t.children x = u.children x)
    (hcontent : ∀ x < t.size, t.content x = u.content x)
    (hoverlay : ∀ x < t.size, t.overlay x = u.overlay x)
    (htop : ∀ x < t.size, t.parent? x = none → t.position x = u.position x) : t = u := by
  have hparent (x p : NodeId) : t.parent? x = some p ↔ u.parent? x = some p := by
    rw [← wt.mem_children, ← wu.mem_children]
    by_cases hp : p < t.size
    · rw [hchildren p hp]
    · rw [children_of_size_le (Nat.le_of_not_lt hp),
        children_of_size_le (hsize ▸ Nat.le_of_not_lt hp)]
  have hposition {x : NodeId} (hx : x < t.size) : t.position x = u.position x := by
    cases hp : t.parent? x with
    | none => exact htop x hx hp
    | some p =>
      have hi := wt.getElem?_position hp
      rw [hchildren p (wt.parent_lt hp)] at hi
      exact ((wu.linked p x _).1 hi).2.symm
  have hnode {x : NodeId} (hx : x < t.size) : t.node x = u.node x :=
    calc t.node x
      _ = ⟨t.content x, t.children x, t.parent? x, t.position x, t.overlay x⟩ := rfl
      _ = ⟨u.content x, u.children x, u.parent? x, u.position x, u.overlay x⟩ := by
        rw [hcontent x hx, hchildren x hx, Option.ext (hparent x), hposition hx, hoverlay x hx]
      _ = u.node x := rfl
  refine congrArg Tree.mk (Array.ext hsize fun i h₁ h₂ ↦ ?_)
  have hi := hnode h₁
  rwa [node, node, Array.getD_eq_getD_getElem?, Array.getD_eq_getD_getElem?,
    Array.getElem?_eq_getElem h₁, Array.getElem?_eq_getElem h₂] at hi

/-- The store `u` holds the nodes `pre` of `t`, each at its place in the pre-order of `t`. Their
contents are those that `g` says, and `o` says which overlay stands at each place. -/
structure Transcribes (t : Tree) (g : NodeId → Content) (o : Nat → Overlay) (pre : List NodeId)
    (u : Tree) : Prop where
  wellFormed : u.WellFormed
  size : u.size = pre.length
  overlay : ∀ x ∈ pre, u.overlay (t.place x) = o (t.place x)
  content : ∀ x ∈ pre, u.content (t.place x) = g x
  children : ∀ x ∈ pre, u.children (t.place x) = ((t.children x).filter (· ∈ pre)).map t.place

theorem WellFormed.place_of_split (w : t.WellFormed) (h : t.live = pre ++ x :: post) :
    t.place x = pre.length := by
  have hx : x ∉ pre := fun hpre ↦
    (List.nodup_append.1 (h ▸ w.nodup_live)).2.2 x hpre x List.mem_cons_self rfl
  rw [place, h, List.idxOf_append_of_notMem hx, List.idxOf_cons_self, Nat.add_zero]

theorem WellFormed.place_lt_length (w : t.WellFormed) (h : pre <+: t.live) (hx : x ∈ pre) :
    t.place x < pre.length := by
  obtain ⟨post, hpost⟩ := h
  obtain ⟨l, l', rfl⟩ := List.append_of_mem hx
  rw [List.append_assoc] at hpost
  rw [w.place_of_split hpost.symm]
  simp

theorem WellFormed.passed_of_split (w : t.WellFormed) (h : t.live = pre ++ x :: post) :
    (∀ p, t.parent? x = some p → p ∈ pre) ∧
      (∀ p y, t.parent? x = some p → t.parent? y = some p →
        (y ∈ pre ↔ t.position y < t.position x)) ∧
      ∀ y ∈ t.children x, y ∉ pre := by
  have hx : x ∈ t.live := h ▸ List.mem_append_right pre List.mem_cons_self
  have hpw : (pre ++ x :: post).Pairwise t.Precedes := h ▸ w.pairwise_live
  have hbefore {y : NodeId} (hy : y ∈ pre) : t.Precedes y x :=
    (List.pairwise_append.1 hpw).2.2 y hy x List.mem_cons_self
  refine ⟨fun p hp ↦ ?_, fun p y hp hy ↦ ⟨fun hpre ↦ (hbefore hpre).siblings p hy hp, fun hlt ↦ ?_⟩,
    fun y hy hpre ↦ (hbefore hpre).not_above (.single (w.mem_children.1 hy))⟩
  · exact mem_left_of_not_rel hpw (h ▸ w.parent_live hx hp) (w.parent_ne hp) fun hrel ↦
      hrel.not_above (.single hp)
  · have hyl := w.child_live (w.parent_live hx hp) (w.mem_children.2 hy)
    refine mem_left_of_not_rel hpw (h ▸ hyl) ?_ fun hrel ↦
      Nat.lt_asymm hlt (hrel.siblings p hp hy)
    rintro rfl
    exact Nat.lt_irrefl _ hlt

theorem WellFormed.filter_children_of_split (w : t.WellFormed) (h : t.live = pre ++ x :: post)
    (hp : t.parent? x = some p) :
    (t.children p).filter (· ∈ pre ++ [x]) = (t.children p).filter (· ∈ pre) ++ [x] := by
  obtain ⟨-, hsiblings, -⟩ := w.passed_of_split h
  have hpassed {j : Nat} {y : NodeId} (hy : (t.children p)[j]? = some y) :
      y ∈ pre ↔ j < t.position x := by
    obtain ⟨hyp, rfl⟩ := (w.linked p y j).1 hy
    exact hsiblings p y hp hyp
  have hrest : ((t.children p).drop (t.position x + 1)).filter (· ∈ pre) = [] := by
    refine List.filter_eq_nil_iff.2 fun y hy hpre ↦ ?_
    obtain ⟨j, hj⟩ := List.mem_iff_getElem?.1 hy
    rw [List.getElem?_drop] at hj
    have hlt := (hpassed hj).1 (of_decide_eq_true hpre)
    omega
  obtain ⟨hbefore, hwith⟩ := filter_split (q := (· ∈ pre)) (w.nodup_children p)
    (w.getElem?_position hp) (fun j hj y hy ↦ decide_eq_true ((hpassed hy).2 hj))
    (decide_eq_false fun hpre ↦ Nat.lt_irrefl _ ((hsiblings p x hp hp).1 hpre))
  rw [hrest] at hbefore hwith
  rw [hbefore, List.append_nil, ← hwith]
  refine List.filter_congr fun y _ ↦ ?_
  rw [Bool.eq_iff_iff]
  simp

theorem WellFormed.filter_children_live (w : t.WellFormed) (hx : x ∈ t.live) :
    (t.children x).filter (· ∈ t.live) = t.children x :=
  List.filter_eq_self.2 fun _ hc ↦ decide_eq_true (w.child_live hx hc)

namespace Transcribes

theorem rootedAt (w : t.WellFormed) (hc : g root = c) :
    Transcribes t g o [root] (rootedAt c (o 0)) where
  wellFormed := wellFormed_rootedAt c (o 0)
  size := rfl
  overlay x hx := by
    rw [List.mem_singleton.1 hx, w.place_root]
    rfl
  content x hx := by
    rw [List.mem_singleton.1 hx, w.place_root, hc]
    rfl
  children x hx := by
    have hnone : (t.children root).filter (· ∈ [root]) = [] :=
      List.filter_eq_nil_iff.2 fun y hy hmem ↦
        w.child_ne_root (w.mem_children.1 hy) (List.mem_singleton.1 (of_decide_eq_true hmem))
    rw [List.mem_singleton.1 hx, w.place_root, hnone]
    rfl

theorem addLast (h : Transcribes t g o pre u) (w : t.WellFormed) (hlive : t.live = pre ++ x :: post)
    (hp : t.parent? x = some p) (c : Content) :
    t.place x = u.size ∧ Transcribes t (update g x c) o (pre ++ [x])
      (u.addLast (t.place p) c (o (t.place x))) := by
  obtain ⟨hparent, -, hbelow⟩ := w.passed_of_split hlive
  have hplace : t.place x = u.size := (w.place_of_split hlive).trans h.size.symm
  have hstart : pre <+: t.live := ⟨x :: post, hlive.symm⟩
  -- the nodes transcribed so far keep their places, and `x` gets the next one
  have hnew {y : NodeId} (hy : y ∈ pre) : y ≠ x ∧ t.place y < u.size :=
    ⟨(List.nodup_append.1 (hlive ▸ w.nodup_live)).2.2 y hy x List.mem_cons_self,
      h.size ▸ w.place_lt_length hstart hy⟩
  have hpl := (hnew (hparent p hp)).2
  refine ⟨hplace, h.wellFormed.addLast hpl c _, ?_, fun y hy ↦ ?_, fun y hy ↦ ?_, fun y hy ↦ ?_⟩
  · rw [size_addLast, h.size, List.length_append, List.length_singleton]
  · rw [overlay_addLast]
    rcases List.mem_append.1 hy with hy | hy
    · rw [if_neg (Nat.ne_of_lt (hnew hy).2), h.overlay y hy]
    · rw [List.mem_singleton.1 hy, if_pos hplace]
  · rw [content_addLast]
    rcases List.mem_append.1 hy with hy | hy
    · obtain ⟨hne, hlt⟩ := hnew hy
      rw [if_neg (Nat.ne_of_lt hlt), Function.update_of_ne hne, h.content y hy]
    · rw [List.mem_singleton.1 hy, if_pos hplace, Function.update_self]
  · rw [children_addLast hpl]
    by_cases hyp : y = p
    · rw [hyp, if_pos rfl, w.filter_children_of_split hlive hp, h.children p (hparent p hp),
        List.map_append, List.map_singleton, hplace]
    · have hpy : t.place y ≠ t.place p := fun he ↦
        hyp (place_inj (hstart.subset (hparent p hp)) he.symm).symm
      have hxy : ∀ z ∈ t.children y, z ≠ x := by
        rintro z hz rfl
        exact hyp (Option.some_inj.1 ((w.mem_children.1 hz).symm.trans hp))
      have hfilter : (t.children y).filter (· ∈ pre ++ [x]) = (t.children y).filter (· ∈ pre) :=
        List.filter_congr fun z hz ↦ by simp [hxy z hz]
      rw [if_neg hpy, hfilter]
      rcases List.mem_append.1 hy with hy | hy
      · exact h.children y hy
      · rw [List.mem_singleton.1 hy, hplace, children_of_size_le (Nat.le_refl _),
          List.filter_eq_nil_iff.2 fun z hz hpre ↦ hbelow z hz (of_decide_eq_true hpre)]
        rfl

theorem addChild (h : Transcribes t g o pre u) (w : t.WellFormed)
    (hlive : t.live = pre ++ x :: post) (hp : t.parent? x = some p)
    (ho : (o (t.place p)).blank = o (t.place x)) (c : Content) :
    (u.addChild (t.place p) c).2 = t.place x ∧
      Transcribes t (update g x c) o (pre ++ [x]) (u.addChild (t.place p) c).1 := by
  obtain ⟨hplace, hadd⟩ := h.addLast w hlive hp c
  refine ⟨hplace.symm, ?_⟩
  rwa [← ho, ← h.overlay p ((w.passed_of_split hlive).1 p hp)] at hadd

theorem modifyContent (h : Transcribes t g o pre u) (w : t.WellFormed) (hpre : pre <+: t.live)
    (hx : x ∈ pre) (f : Content → Content) :
    Transcribes t (update g x (f (g x))) o pre (u.modifyContent (t.place x) f) where
  wellFormed := (sameShape_modifyContent ..).wellFormed h.wellFormed
  size := (sameShape_modifyContent ..).size.trans h.size
  overlay y hy := by rw [overlay_modifyContent, h.overlay y hy]
  content y hy := by
    rw [content_modifyContent]
    by_cases hyx : y = x
    · rw [hyx, if_pos ⟨rfl, h.size ▸ w.place_lt_length hpre hx⟩, Function.update_self,
        h.content x hx]
    · have hplace : t.place y ≠ t.place x := fun he ↦ hyx (place_inj (hpre.subset hy) he)
      rw [if_neg fun he ↦ hplace he.1, Function.update_of_ne hyx, h.content y hy]
  children y hy := ((sameShape_modifyContent ..).children _).trans (h.children y hy)

theorem embeds (h : Transcribes t g o t.live u) (w : t.WellFormed) : Embeds t.place t u where
  root := w.place_root
  children x hx := by
    rw [h.children x hx, w.filter_children_live hx]

theorem plain (h : Transcribes t g (fun _ ↦ .plain) t.live u) (w : t.WellFormed) (y : NodeId) :
    u.overlay y = .plain := by
  by_cases hy : y < u.size
  · obtain ⟨x, hx, rfl⟩ := w.exists_place (h.size ▸ hy)
    exact h.overlay x hx
  · exact overlay_of_size_le (Nat.le_of_not_lt hy)

/-- All transcripts are alike, if their roots have one position. -/
theorem eq (h : Transcribes t g o t.live u) (h' : Transcribes t g o t.live v) (w : t.WellFormed)
    (hr : u.position root = v.position root) : u = v := by
  have he := h.embeds w
  refine eq_of_children h.wellFormed h'.wellFormed (h.size.trans h'.size.symm) (fun k hk ↦ ?_)
    (fun k hk ↦ ?_) (fun k hk ↦ ?_) (fun k hk htop ↦ ?_) <;>
    obtain ⟨x, hx, rfl⟩ := w.exists_place (h.size ▸ hk)
  · rw [he.children x hx, (h'.embeds w).children x hx]
  · rw [h.content x hx, h'.content x hx]
  · rw [h.overlay x hx, h'.overlay x hx]
  · by_cases hxr : x = root
    · rwa [hxr, w.place_root]
    · obtain ⟨p, hp, -⟩ := w.exists_parent_of_live hx hxr
      rw [he.map_parent w h.wellFormed hx hp] at htop
      cases htop

end Transcribes

theorem WellFormed.transcribes_rebuild (w : t.WellFormed) (o : Nat → Overlay) :
    Transcribes t t.content o t.live (t.rebuild o) where
  wellFormed := w.rebuild o
  size := size_rebuild t o
  overlay _ := overlay_rebuild o
  content _ := content_rebuild o
  children x hx := by rw [children_rebuild o hx, w.filter_children_live hx]

end FlowMerge.Tree
