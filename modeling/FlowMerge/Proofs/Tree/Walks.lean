import FlowMerge.Proofs.Tree.WellFormed
import Mathlib.Data.List.Perm.Subperm

namespace FlowMerge.Tree

variable {t u : Tree} {p q c x a b : NodeId} {i j m n : Nat}

theorem ancestorsWithin_succ (h : (t.ancestorsWithin n x).length < n) :
    t.ancestorsWithin (n + 1) x = t.ancestorsWithin n x := by
  induction n generalizing x with
  | zero => cases h
  | succ n ih =>
    rw [ancestorsWithin, ancestorsWithin]
    cases hp : t.parent? x with
    | none => rfl
    | some p =>
      rw [ancestorsWithin, hp] at h
      exact congrArg (p :: ·) (ih (Nat.lt_of_succ_lt_succ h))

theorem above_of_mem_ancestorsWithin (h : a ∈ t.ancestorsWithin n x) :
    ∃ p, t.parent? x = some p ∧ t.Above a p := by
  induction n generalizing x with
  | zero => cases h
  | succ n ih =>
    rw [ancestorsWithin] at h
    cases hp : t.parent? x with
    | none => rw [hp] at h; cases h
    | some p =>
      rw [hp] at h
      refine ⟨p, rfl, ?_⟩
      rcases List.mem_cons.1 h with rfl | h
      · exact .refl
      · obtain ⟨q, hq, ha⟩ := ih h
        exact ha.tail hq

namespace WellFormed

theorem nodup_ancestorsWithin (w : t.WellFormed) (n : Nat) (x : NodeId) :
    (x :: t.ancestorsWithin n x).Nodup := by
  rw [List.nodup_cons]
  induction n generalizing x with
  | zero => exact ⟨List.not_mem_nil, .nil⟩
  | succ n ih =>
    constructor
    · intro h
      obtain ⟨p, hp, ha⟩ := above_of_mem_ancestorsWithin h
      exact w.not_above_of_parent hp ha
    · rw [ancestorsWithin]
      split
      · exact .nil
      · exact List.nodup_cons.2 (ih _)

theorem mem_ancestorsWithin_lt (w : t.WellFormed) (h : a ∈ t.ancestorsWithin n x) :
    a < t.size := by
  obtain ⟨p, hp, ha⟩ := above_of_mem_ancestorsWithin h
  exact Above.lt_size ha w (w.parent_lt hp)

theorem length_ancestors_lt (w : t.WellFormed) (hx : x < t.size) :
    (t.ancestors x).length < t.size := by
  have hs : (x :: t.ancestors x) ⊆ List.range t.size := by
    intro a ha
    rw [List.mem_range]
    rcases List.mem_cons.1 ha with rfl | ha
    · exact hx
    · exact w.mem_ancestorsWithin_lt ha
  have hl := ((w.nodup_ancestorsWithin t.size x).subperm hs).length_le
  rwa [List.length_cons, List.length_range] at hl

theorem ancestors_of_parent (w : t.WellFormed) (h : t.parent? c = some p) :
    t.ancestors c = p :: t.ancestors p := by
  have hs : t.ancestors c = t.ancestorsWithin (t.size + 1) c :=
    (ancestorsWithin_succ (w.length_ancestors_lt (lt_size_of_parent? h))).symm
  rw [hs, ancestorsWithin, h]
  rfl

theorem depth_of_parent (w : t.WellFormed) (h : t.parent? c = some p) :
    t.depth c = t.depth p + 1 := by
  rw [depth, w.ancestors_of_parent h, List.length_cons, depth]

theorem depth_lt (w : t.WellFormed) (hx : x < t.size) : t.depth x < t.size :=
  w.length_ancestors_lt hx

theorem mem_ancestors (w : t.WellFormed) :
    a ∈ t.ancestors c ↔ ∃ p, t.parent? c = some p ∧ t.Above a p := by
  refine ⟨above_of_mem_ancestorsWithin, ?_⟩
  induction c using w.up_induction with
  | h c ih =>
    rintro ⟨p, hp, ha⟩
    rw [w.ancestors_of_parent hp, List.mem_cons]
    rcases above_iff.1 ha with rfl | ⟨q, hq, ha⟩
    · exact .inl rfl
    · exact .inr (ih p hp ⟨q, hq, ha⟩)

theorem isAncestorOrSelf_iff (w : t.WellFormed) :
    t.isAncestorOrSelf a c = true ↔ t.Above a c := by
  rw [isAncestorOrSelf, Bool.or_eq_true, beq_iff_eq, List.contains_iff_mem, w.mem_ancestors,
    above_iff, eq_comm]

theorem isAttached_iff (w : t.WellFormed) : t.isAttached c = true ↔ t.Above root c :=
  w.isAncestorOrSelf_iff

theorem pathWithin_eq (w : t.WellFormed) (hn : t.depth c ≤ n) (hm : t.depth c ≤ m) :
    t.pathWithin n c = t.pathWithin m c := by
  induction c using w.up_induction generalizing n m with
  | h c ih =>
    cases hp : t.parent? c with
    | none => cases n <;> cases m <;> simp [pathWithin, hp]
    | some p =>
      rw [w.depth_of_parent hp] at hn hm
      obtain ⟨n, rfl⟩ := Nat.exists_eq_add_of_le' (Nat.le_of_add_left_le hn)
      obtain ⟨m, rfl⟩ := Nat.exists_eq_add_of_le' (Nat.le_of_add_left_le hm)
      rw [pathWithin, pathWithin, hp]
      exact congrArg (· ++ [t.position c]) (ih p hp (by omega) (by omega))

theorem path_of_parent (w : t.WellFormed) (h : t.parent? c = some p) :
    t.path c = t.path p ++ [t.position c] := by
  have hc := w.depth_lt (lt_size_of_parent? h)
  have hd := w.depth_of_parent h
  rw [path, w.pathWithin_eq (m := t.size + 1) (by omega) (by omega), pathWithin, h]
  rfl

end WellFormed

theorem depth_of_top (h : t.parent? c = none) : t.depth c = 0 := by
  rw [depth, ancestors]
  cases t.size with
  | zero => rfl
  | succ n => rw [ancestorsWithin, h, List.length_nil]

theorem path_of_top (h : t.parent? c = none) : t.path c = [] := by
  rw [path]
  cases t.size with
  | zero => rfl
  | succ n => rw [pathWithin, h]

theorem preorderWithin_succ (t : Tree) (n : Nat) (x : NodeId) :
    t.preorderWithin (n + 1) x = x :: (t.children x).flatMap (t.preorderWithin n) := rfl

theorem above_of_mem_preorderWithin (w : t.WellFormed) (h : x ∈ t.preorderWithin n a) :
    t.Above a x := by
  induction n generalizing a with
  | zero => cases h
  | succ n ih =>
    rw [preorderWithin_succ, List.mem_cons, List.mem_flatMap] at h
    obtain rfl | ⟨c, hc, hx⟩ := h
    · exact .refl
    · exact (ih hx).head (w.mem_children.1 hc)

namespace WellFormed

/-- Down from a node: what holds of all children passes to their parent. -/
theorem down_induction (w : t.WellFormed) {P : NodeId → Prop}
    (h : ∀ x, (∀ c, c ∈ t.children x → P c) → P x) (x : NodeId) : P x := by
  induction hn : t.size - t.depth x using Nat.strongRecOn generalizing x with
  | ind n ih =>
    refine h x fun c hc ↦ ?_
    have hp := w.mem_children.1 hc
    have hd := w.depth_of_parent hp
    have hl := w.depth_lt (w.child_lt hc)
    exact ih (t.size - t.depth c) (by omega) c rfl

/-- What is worked out from a node downwards does not hang on the bound, if that covers all that may
lie below the node. -/
theorem within_eq {β : Type} {f : Nat → NodeId → β} (w : t.WellFormed)
    (step : ∀ n m y, (∀ c ∈ t.children y, f n c = f m c) → f (n + 1) y = f (m + 1) y)
    (hx : x < t.size) (hn : t.size ≤ n + t.depth x) (hm : t.size ≤ m + t.depth x) :
    f n x = f m x := by
  induction x using w.down_induction generalizing n m with
  | h x ih =>
    have hl := w.depth_lt hx
    obtain ⟨n, rfl⟩ := Nat.exists_eq_succ_of_ne_zero (show n ≠ 0 by omega)
    obtain ⟨m, rfl⟩ := Nat.exists_eq_succ_of_ne_zero (show m ≠ 0 by omega)
    refine step n m x fun c hc ↦ ?_
    have hd := w.depth_of_parent (w.mem_children.1 hc)
    exact ih c hc (w.child_lt hc) (by omega) (by omega)

theorem preorderWithin_eq (w : t.WellFormed) (hx : x < t.size) (hn : t.size ≤ n + t.depth x)
    (hm : t.size ≤ m + t.depth x) : t.preorderWithin n x = t.preorderWithin m x := by
  refine w.within_eq (fun n m y ih ↦ ?_) hx hn hm
  rw [preorderWithin_succ, preorderWithin_succ, List.flatMap_congr ih]

theorem preorder_eq (w : t.WellFormed) (hx : x < t.size) :
    t.preorder x = x :: (t.children x).flatMap t.preorder := by
  rw [preorder, w.preorderWithin_eq (m := t.size + 1) hx (by omega) (by omega),
    preorderWithin_succ]
  rfl

theorem above_iff_children (w : t.WellFormed) :
    t.Above a x ↔ x = a ∨ ∃ c ∈ t.children a, t.Above c x := by
  rw [Above, Relation.ReflTransGen.cases_head_iff]
  exact or_congr eq_comm (exists_congr fun c ↦ and_congr_left' w.mem_children.symm)

theorem apart_of_split (w : t.WellFormed) {pre post : List NodeId}
    (h : t.children a = pre ++ c :: post) (hx : t.Above c x) :
    x ≠ a ∧ ∀ b ∈ pre, ¬ t.Above b x := by
  have hparent {b : NodeId} (hb : b ∈ pre ++ c :: post) : t.parent? b = some a :=
    w.mem_children.1 (h ▸ hb)
  have hc := hparent (List.mem_append_right pre List.mem_cons_self)
  have hnodup := w.nodup_children a
  rw [h, List.nodup_append] at hnodup
  refine ⟨?_, fun b hb ↦ ?_⟩
  · rintro rfl
    exact w.not_above_of_parent hc hx
  · exact w.siblings_apart hc (hparent (List.mem_append_left _ hb))
      (hnodup.2.2 b hb c List.mem_cons_self).symm hx

theorem mem_preorder (w : t.WellFormed) (ha : a < t.size) :
    x ∈ t.preorder a ↔ t.Above a x := by
  induction a using w.down_induction with
  | h a ih =>
    rw [w.preorder_eq ha, List.mem_cons, List.mem_flatMap, w.above_iff_children]
    exact or_congr_right (exists_congr fun c ↦ and_congr_right fun hc ↦ ih c hc (w.child_lt hc))

theorem preorderWithin_congr {u : Tree} (w : t.WellFormed)
    (h : ∀ y, t.Above a y → u.children y = t.children y) (n : Nat) :
    u.preorderWithin n a = t.preorderWithin n a := by
  induction n generalizing a with
  | zero => rfl
  | succ n ih =>
    rw [preorderWithin_succ, preorderWithin_succ, h a .refl]
    refine congrArg (a :: ·) (List.flatMap_congr fun c hc ↦ ih fun y hy ↦ ?_)
    exact h y (w.above_iff_children.2 (.inr ⟨c, hc, hy⟩))

theorem nodup_preorder (w : t.WellFormed) (ha : a < t.size) : (t.preorder a).Nodup := by
  induction a using w.down_induction with
  | h a ih =>
    rw [w.preorder_eq ha, List.nodup_cons, List.nodup_flatMap]
    refine ⟨?_, fun c hc ↦ ih c hc (w.child_lt hc), ?_⟩
    · rw [List.mem_flatMap]
      rintro ⟨c, hc, hx⟩
      rw [w.mem_preorder (w.child_lt hc)] at hx
      exact w.not_above_of_parent (w.mem_children.1 hc) hx
    · refine (w.nodup_children a).imp_of_mem fun {c d} hc hd hne x hx hx' ↦ ?_
      rw [w.mem_preorder (w.child_lt hc)] at hx
      rw [w.mem_preorder (w.child_lt hd)] at hx'
      exact w.siblings_apart (w.mem_children.1 hc) (w.mem_children.1 hd) hne hx hx'

theorem mem_below (w : t.WellFormed) (ha : a < t.size) :
    x ∈ t.below a ↔ t.Above a x ∧ x ≠ a := by
  have hn := w.nodup_preorder ha
  rw [w.preorder_eq ha, List.nodup_cons] at hn
  rw [← w.mem_preorder ha, below, w.preorder_eq ha, List.tail_cons, List.mem_cons]
  constructor
  · intro h
    refine ⟨.inr h, ?_⟩
    rintro rfl
    exact hn.1 h
  · rintro ⟨rfl | h, hne⟩
    · exact absurd rfl hne
    · exact h

theorem mem_live (w : t.WellFormed) : x ∈ t.live ↔ t.Above root x := w.mem_preorder w.root_lt

theorem nodup_live (w : t.WellFormed) : t.live.Nodup := w.nodup_preorder w.root_lt

theorem live_lt (w : t.WellFormed) (h : x ∈ t.live) : x < t.size := by
  rcases above_iff.1 (w.mem_live.1 h) with rfl | ⟨p, hp, -⟩
  · exact w.root_lt
  · exact lt_size_of_parent? hp

theorem root_mem_live (w : t.WellFormed) : root ∈ t.live := w.mem_live.2 .refl

theorem live_eq (w : t.WellFormed) : t.live = root :: t.live.tail := by
  rw [live, w.preorder_eq w.root_lt, List.tail_cons]

theorem mem_live_tail (w : t.WellFormed) : x ∈ t.live.tail ↔ x ∈ t.live ∧ x ≠ root := by
  rw [w.mem_live]
  exact w.mem_below w.root_lt

theorem parent_live (w : t.WellFormed) (hx : x ∈ t.live) (h : t.parent? x = some p) :
    p ∈ t.live := by
  rw [w.mem_live] at hx ⊢
  rcases above_iff.1 hx with rfl | ⟨q, hq, ha⟩
  · exact absurd rfl (w.child_ne_root h)
  · exact Option.some_inj.1 (hq.symm.trans h) ▸ ha

theorem above_live (w : t.WellFormed) (hx : x ∈ t.live) (h : t.Above a x) : a ∈ t.live := by
  rw [w.mem_live] at hx ⊢
  rcases above_total h hx with ha | ha
  · exact above_of_top w.root_top ha ▸ .refl
  · exact ha

theorem child_live (w : t.WellFormed) (hp : p ∈ t.live) (h : c ∈ t.children p) :
    c ∈ t.live := by
  rw [w.mem_live] at hp ⊢
  exact hp.tail (w.mem_children.1 h)

theorem live_of_above (w : t.WellFormed) (ha : a ∈ t.live) (h : t.Above a x) : x ∈ t.live := by
  rw [w.mem_live] at ha ⊢
  exact ha.trans h

theorem exists_parent_of_live (w : t.WellFormed) (hx : x ∈ t.live) (hr : x ≠ root) :
    ∃ p, t.parent? x = some p ∧ p ∈ t.live := by
  rcases above_iff.1 (w.mem_live.1 hx) with rfl | ⟨p, hp, ha⟩
  · exact absurd rfl hr
  · exact ⟨p, hp, w.mem_live.2 ha⟩

end WellFormed

theorem resolveFrom_append {whole r s : Path} {d : Nat}
    (h : t.resolveFrom whole x d r = .ok a) :
    t.resolveFrom whole x d (r ++ s) = t.resolveFrom whole a (d + r.length) s := by
  induction r generalizing x d with
  | nil =>
    obtain rfl : x = a := Except.ok.inj h
    rfl
  | cons i r ih =>
    rw [resolveFrom] at h
    rw [List.cons_append, resolveFrom]
    cases hc : (t.children x)[i]? with
    | none => rw [hc] at h; cases h
    | some c =>
      rw [hc] at h
      rw [List.length_cons, Nat.add_comm r.length, ← Nat.add_assoc]
      exact ih h

/-- A path leads to the image of its node in another tree, if each step of it leads from the image
of a node to that of its child. -/
theorem resolve_path (w : t.WellFormed) (f : NodeId → NodeId) (hr : f root = root)
    (hx : x ∈ t.live)
    (h : ∀ c p, t.Above c x → t.parent? c = some p →
      (u.children (f p))[t.position c]? = some (f c)) :
    u.resolve (t.path x) = .ok (f x) := by
  suffices hs : ∀ whole, u.resolveFrom whole root 0 (t.path x) = .ok (f x) from hs _
  intro whole
  induction x using w.up_induction with
  | h x ih =>
    cases hp : t.parent? x with
    | none =>
      obtain rfl := above_of_top hp (w.mem_live.1 hx)
      rw [path_of_top hp, resolveFrom, hr]
    | some p =>
      have hq := ih p hp (w.parent_live hx hp) fun c q hc ↦ h c q (hc.tail hp)
      rw [w.path_of_parent hp, resolveFrom_append hq, resolveFrom, h x p .refl hp]
      rfl

theorem path_of_resolveFrom (w : t.WellFormed) {whole r : Path} {d : Nat}
    (h : t.resolveFrom whole x d r = .ok a) : t.path a = t.path x ++ r := by
  induction r generalizing x d with
  | nil =>
    obtain rfl := Except.ok.inj h
    exact (List.append_nil _).symm
  | cons i r ih =>
    rw [resolveFrom] at h
    split at h
    · next c hc =>
      obtain ⟨hp, rfl⟩ := (w.linked x c i).1 hc
      rw [ih h, w.path_of_parent hp, List.append_assoc]
      rfl
    · cases h

theorem above_of_resolveFrom (w : t.WellFormed) {whole r : Path} {n : Nat}
    (h : t.resolveFrom whole x n r = .ok a) : t.Above x a := by
  induction r generalizing x n with
  | nil => exact Except.ok.inj h ▸ .refl
  | cons i r ih =>
    rw [resolveFrom] at h
    split at h
    · next c hc => exact (ih h).head (w.mem_children.1 (List.mem_of_getElem? hc))
    · cases h

theorem live_of_resolve (w : t.WellFormed) {r : Path} (h : t.resolve r = .ok a) : a ∈ t.live :=
  w.mem_live.2 (above_of_resolveFrom w h)

theorem WellFormed.resolve_path_self (w : t.WellFormed) (hx : x ∈ t.live) :
    t.resolve (t.path x) = .ok x :=
  resolve_path w id rfl hx fun _ _ _ hc ↦ w.getElem?_position hc

theorem path_of_resolve (w : t.WellFormed) {r : Path} (h : t.resolve r = .ok a) :
    t.path a = r := by
  rw [path_of_resolveFrom w h, path_of_top w.root_top, List.nil_append]

/-- One path leads to each node of a tree. -/
theorem existsUnique_path (w : t.WellFormed) (hx : x ∈ t.live) : ∃! r, t.resolve r = .ok x :=
  ⟨t.path x, w.resolve_path_self hx, fun _ hr ↦ (path_of_resolve w hr).symm⟩

theorem path_inj (w : t.WellFormed) (ha : a ∈ t.live) (hx : x ∈ t.live)
    (h : t.path a = t.path x) : a = x := by
  have hax := w.resolve_path_self ha
  rw [h, w.resolve_path_self hx] at hax
  exact (Except.ok.inj hax).symm

theorem WellFormed.nodup_paths (w : t.WellFormed) : (t.live.map t.path).Nodup :=
  w.nodup_live.map_on fun _ ha _ hx h ↦ path_inj w ha hx h

namespace SameShape

theorem preorderWithin (h : SameShape t u) (n : Nat) (x : NodeId) :
    t.preorderWithin n x = u.preorderWithin n x := by
  induction n generalizing x with
  | zero => rfl
  | succ n ih =>
    rw [preorderWithin_succ, preorderWithin_succ, h.children]
    congr 1
    exact List.flatMap_congr fun c _ ↦ ih c

theorem preorder (h : SameShape t u) (x : NodeId) : t.preorder x = u.preorder x := by
  rw [Tree.preorder, h.preorderWithin, h.size, Tree.preorder]

theorem live (h : SameShape t u) : t.live = u.live := h.preorder root

theorem pathWithin (h : SameShape t u) (n : Nat) (x : NodeId) :
    t.pathWithin n x = u.pathWithin n x := by
  induction n generalizing x with
  | zero => rfl
  | succ n ih =>
    rw [Tree.pathWithin, Tree.pathWithin, h.parent?, h.position]
    cases u.parent? x with
    | none => rfl
    | some p =>
      dsimp only
      rw [ih p]

theorem path (h : SameShape t u) (x : NodeId) : t.path x = u.path x := by
  rw [Tree.path, h.pathWithin, h.size, Tree.path]

end SameShape

end FlowMerge.Tree
