import FlowMerge.Proofs.Tree.Store
import Mathlib.Data.List.Nodup
import Mathlib.Data.List.InsertIdx

namespace FlowMerge.Tree

variable {t u : Tree} {p q c x a b : NodeId} {i j : Nat}

/-- Children, parents and positions tell the same story, which has the root at its top and no
cycles. Detached nodes are the tops of trees of their own. -/
structure WellFormed (t : Tree) : Prop where
  root_lt : root < t.size
  root_top : t.parent? root = none
  linked : ∀ p c i, (t.children p)[i]? = some c ↔ t.parent? c = some p ∧ t.position c = i
  acyclic : ∃ rank : NodeId → Nat, ∀ c p, t.parent? c = some p → rank p < rank c

def IsParent (t : Tree) (p c : NodeId) : Prop := t.parent? c = some p

abbrev Above (t : Tree) : NodeId → NodeId → Prop := Relation.ReflTransGen t.IsParent

theorem SameShape.wellFormed (h : SameShape t u) (w : u.WellFormed) : t.WellFormed where
  root_lt := h.size ▸ w.root_lt
  root_top := (h.parent? _).trans w.root_top
  linked p c i := by rw [h.children, h.parent?, h.position]; exact w.linked p c i
  acyclic := by
    obtain ⟨rank, hr⟩ := w.acyclic
    exact ⟨rank, fun c p hc ↦ hr c p ((h.parent? c).symm.trans hc)⟩

theorem SameShape.above (h : SameShape t u) : t.Above a b ↔ u.Above a b := by
  have he : t.IsParent = u.IsParent := by
    funext p c
    rw [IsParent, h.parent?, IsParent]
  rw [Above, he]

namespace WellFormed

theorem mem_children (w : t.WellFormed) : c ∈ t.children p ↔ t.parent? c = some p := by
  rw [List.mem_iff_getElem?]
  constructor
  · rintro ⟨i, hi⟩
    exact ((w.linked p c i).1 hi).1
  · intro h
    exact ⟨t.position c, (w.linked p c _).2 ⟨h, rfl⟩⟩

theorem getElem?_position (w : t.WellFormed) (h : t.parent? c = some p) :
    (t.children p)[t.position c]? = some c := (w.linked p c _).2 ⟨h, rfl⟩

theorem nodup_children (w : t.WellFormed) (p : NodeId) : (t.children p).Nodup := by
  rw [List.nodup_iff_getElem?_ne_getElem?]
  intro i j hij hj h
  rw [List.getElem?_eq_getElem hj] at h
  have h₁ := ((w.linked p _ i).1 h).2
  have h₂ := ((w.linked p _ j).1 (List.getElem?_eq_getElem hj)).2
  omega

theorem parent_lt (w : t.WellFormed) (h : t.parent? c = some p) : p < t.size :=
  lt_size_of_mem_children (w.mem_children.2 h)

theorem child_lt (w : t.WellFormed) (h : c ∈ t.children p) : c < t.size :=
  lt_size_of_parent? (w.mem_children.1 h)

theorem child_ne_root (w : t.WellFormed) (h : t.parent? c = some p) : c ≠ root := by
  rintro rfl
  rw [w.root_top] at h
  cases h

/-- Up from a node: what holds of a parent passes to its children. -/
theorem up_induction (w : t.WellFormed) {P : NodeId → Prop}
    (h : ∀ c, (∀ p, t.parent? c = some p → P p) → P c) (c : NodeId) : P c := by
  obtain ⟨rank, hr⟩ := w.acyclic
  induction hn : rank c using Nat.strongRecOn generalizing c with
  | ind n ih => exact h c fun p hp ↦ ih (rank p) (hn ▸ hr c p hp) p rfl

theorem rank_le {rank : NodeId → Nat} (hr : ∀ c p, t.parent? c = some p → rank p < rank c)
    (h : t.Above a b) : rank a ≤ rank b := by
  induction h with
  | refl => exact Nat.le_refl _
  | tail _ hp ih => exact Nat.le_trans ih (Nat.le_of_lt (hr _ _ hp))

theorem not_above_of_parent (w : t.WellFormed) (h : t.parent? c = some p) : ¬ t.Above c p := by
  obtain ⟨rank, hr⟩ := w.acyclic
  intro ha
  have h₁ := rank_le hr ha
  have h₂ := hr c p h
  omega

theorem parent_ne (w : t.WellFormed) (h : t.parent? c = some p) : p ≠ c := by
  rintro rfl
  exact w.not_above_of_parent h .refl

theorem above_antisymm (w : t.WellFormed) (h : t.Above a b) (h' : t.Above b a) : a = b := by
  cases h' with
  | refl => rfl
  | tail hb hp => exact absurd (h.trans hb) (w.not_above_of_parent hp)

theorem above_total (h : t.Above a c) (h' : t.Above b c) : t.Above a b ∨ t.Above b a := by
  induction h with
  | refl => exact .inr h'
  | @tail p c _ hp ih =>
    cases h' with
    | refl => exact .inl (.tail ‹_› hp)
    | tail hb hq =>
      obtain rfl := Option.some_inj.1 (hp.symm.trans hq)
      exact ih hb

end WellFormed

theorem above_of_top (h : t.parent? c = none) (ha : t.Above a c) : a = c := by
  cases ha with
  | refl => rfl
  | tail _ hp => rw [IsParent, h] at hp; cases hp

theorem above_iff : t.Above a c ↔ a = c ∨ ∃ p, t.parent? c = some p ∧ t.Above a p := by
  constructor
  · intro h
    cases h with
    | refl => exact .inl rfl
    | tail ha hp => exact .inr ⟨_, hp, ha⟩
  · rintro (rfl | ⟨p, hp, ha⟩)
    · exact .refl
    · exact ha.tail hp

/-- A branch that is in a tree with fewer links is there with all nodes on it. -/
theorem WellFormed.above_between (w : u.WellFormed)
    (hlink : ∀ x p, t.parent? x = some p → u.parent? x = some p) (h : t.Above a x)
    (hac : u.Above a c) (hcx : u.Above c x) : t.Above a c ∧ t.Above c x := by
  induction h with
  | refl =>
    obtain rfl := w.above_antisymm hac hcx
    exact ⟨.refl, .refl⟩
  | @tail p x hap hpx ih =>
    rcases above_iff.1 hcx with rfl | ⟨q, hq, hcq⟩
    · exact ⟨hap.tail hpx, .refl⟩
    · obtain rfl := Option.some_inj.1 ((hlink x p hpx).symm.trans hq)
      obtain ⟨hac', hcp⟩ := ih hcq
      exact ⟨hac', hcp.tail hpx⟩

theorem WellFormed.siblings_apart (w : t.WellFormed) (ha : t.parent? a = some p)
    (hb : t.parent? b = some p) (hne : a ≠ b) (h : t.Above a x) : ¬ t.Above b x := by
  have step {c d : NodeId} (hc : t.parent? c = some p) (hd : t.parent? d = some p)
      (hne : c ≠ d) : ¬ t.Above c d := by
    intro h
    rcases above_iff.1 h with rfl | ⟨q, hq, h⟩
    · exact hne rfl
    · obtain rfl := Option.some_inj.1 (hd.symm.trans hq)
      exact w.not_above_of_parent hc h
  intro h'
  rcases above_total h h' with h | h
  · exact step ha hb hne h
  · exact step hb ha hne.symm h

theorem Above.lt_size (h : t.Above a c) (w : t.WellFormed) (hc : c < t.size) : a < t.size := by
  induction h with
  | refl => exact hc
  | tail _ hp ih => exact ih (w.parent_lt hp)

def reposition (t : Tree) (l : List (NodeId × Nat)) : Tree :=
  l.foldl (fun t c ↦ t.modify c.1 fun n ↦ { n with position := c.2 }) t

theorem position_reposition_of_not_mem (l : List (NodeId × Nat)) (t : Tree)
    (h : ∀ k, (x, k) ∉ l) : (t.reposition l).position x = t.position x := by
  induction l generalizing t with
  | nil => rfl
  | cons e l ih =>
    rw [reposition, List.foldl_cons, ← reposition, ih _ fun k hk ↦ h k (List.mem_cons_of_mem _ hk),
      position, node_modify, if_neg, position]
    rintro ⟨rfl, -⟩
    exact h e.2 List.mem_cons_self

theorem position_reposition_of_mem (l : List (NodeId × Nat)) (t : Tree)
    (hn : (l.map Prod.fst).Nodup) (hx : x < t.size) (h : (x, j) ∈ l) :
    (t.reposition l).position x = j := by
  induction l generalizing t with
  | nil => cases h
  | cons e l ih =>
    rw [List.map_cons, List.nodup_cons] at hn
    rw [reposition, List.foldl_cons, ← reposition]
    rcases List.mem_cons.1 h with rfl | h
    · rw [position_reposition_of_not_mem, position, node_modify, if_pos ⟨rfl, hx⟩]
      intro k hk
      exact hn.1 (List.mem_map.2 ⟨_, hk, rfl⟩)
    · exact ih _ hn.2 (by rw [size_modify]; exact hx) h

theorem links_reposition (l : List (NodeId × Nat)) (t : Tree) :
    (t.reposition l).size = t.size ∧ ∀ x, (t.reposition l).children x = t.children x ∧
      (t.reposition l).parent? x = t.parent? x := by
  induction l generalizing t with
  | nil => exact ⟨rfl, fun x ↦ ⟨rfl, rfl⟩⟩
  | cons e l ih =>
    obtain ⟨hs, hl⟩ := ih (t.modify e.1 fun n ↦ { n with position := e.2 })
    refine ⟨hs.trans (size_modify ..), fun x ↦ ⟨(hl x).1.trans ?_, (hl x).2.trans ?_⟩⟩
    · rw [children, node_modify]
      split <;> rfl
    · rw [parent?, node_modify]
      split <;> rfl

@[simp] theorem size_renumber (t : Tree) (p : NodeId) (i : Nat) :
    (t.renumber p i).size = t.size := (links_reposition _ t).1

@[simp] theorem children_renumber (t : Tree) (p : NodeId) (i : Nat) (x : NodeId) :
    (t.renumber p i).children x = t.children x := ((links_reposition _ t).2 x).1

@[simp] theorem parent?_renumber (t : Tree) (p : NodeId) (i : Nat) (x : NodeId) :
    (t.renumber p i).parent? x = t.parent? x := ((links_reposition _ t).2 x).2

theorem position_renumber_of_not_mem (h : x ∉ (t.children p).drop i) :
    (t.renumber p i).position x = t.position x := by
  refine position_reposition_of_not_mem _ t fun k hk ↦ h ?_
  rw [List.mk_mem_zipIdx_iff_le_and_getElem?_sub] at hk
  exact List.mem_of_getElem? hk.2

theorem position_renumber_of_getElem? (hn : (t.children p).Nodup) (hx : x < t.size)
    (hij : i ≤ j) (h : (t.children p)[j]? = some x) : (t.renumber p i).position x = j := by
  refine position_reposition_of_mem _ t ?_ hx ?_
  · rw [List.zipIdx_map_fst]
    exact hn.sublist (List.drop_sublist _ _)
  · rw [List.mk_mem_zipIdx_iff_le_and_getElem?_sub, List.getElem?_drop]
    exact ⟨hij, by rw [Nat.add_sub_cancel' hij]; exact h⟩

/-- Children that agree with the parents come to agree with the positions too, if those before the
place where the renumbering starts do. -/
theorem linked_renumber (hn : ∀ q, (t.children q).Nodup)
    (hmem : ∀ q x, x ∈ t.children q ↔ t.parent? x = some q)
    (hothers : ∀ q, q ≠ p → ∀ x j, (t.children q)[j]? = some x → t.position x = j)
    (hbefore : ∀ x j, j < i → (t.children p)[j]? = some x → t.position x = j)
    (q x : NodeId) (j : Nat) : ((t.renumber p i).children q)[j]? = some x ↔
      (t.renumber p i).parent? x = some q ∧ (t.renumber p i).position x = j := by
  have key : ∀ j, (t.children q)[j]? = some x → (t.renumber p i).position x = j := by
    intro j h
    have hx := (hmem q x).1 (List.mem_of_getElem? h)
    by_cases hq : q = p
    · subst hq
      by_cases hij : i ≤ j
      · exact position_renumber_of_getElem? (hn q) (lt_size_of_parent? hx) hij h
      · rw [position_renumber_of_not_mem, hbefore x j (by omega) h]
        intro hd
        obtain ⟨k, hk⟩ := List.mem_iff_getElem?.1 hd
        rw [List.getElem?_drop] at hk
        have hj := (List.getElem?_eq_some_iff.1 h).1
        have := (List.getElem?_inj hj (hn q)).1 (h.trans hk.symm)
        omega
    · rw [position_renumber_of_not_mem, hothers q hq x j h]
      intro hd
      have := (hmem p x).1 (List.mem_of_mem_drop hd)
      exact hq (Option.some_inj.1 (hx.symm.trans this))
  rw [children_renumber, parent?_renumber, ← hmem]
  constructor
  · exact fun h ↦ ⟨List.mem_of_getElem? h, key j h⟩
  · rintro ⟨h, rfl⟩
    obtain ⟨k, hk⟩ := List.mem_iff_getElem?.1 h
    rw [key k hk]
    exact hk

def hang (t : Tree) (p : NodeId) (i : Nat) (c : NodeId) : Tree :=
  (t.modify p fun n ↦ { n with children := n.children.insertIdx i c }).modify c fun n ↦
    { n with parent := some p }

theorem insertChild_eq (t : Tree) (p : NodeId) (i : Nat) (c : NodeId) :
    t.insertChild p i c = (t.hang p i c).renumber p i := rfl

theorem links_hang (hp : p < t.size) (hc : c < t.size) (i : Nat) (x : NodeId) :
    (t.hang p i c).children x =
        (if x = p then (t.children p).insertIdx i c else t.children x) ∧
      (t.hang p i c).parent? x = (if x = c then some p else t.parent? x) ∧
      (t.hang p i c).position x = t.position x := by
  simp only [hang, children, parent?, position, node_modify, size_modify]
  by_cases hxp : x = p <;> by_cases hxc : x = c <;> simp_all

@[simp] theorem size_insertChild (t : Tree) (p : NodeId) (i : Nat) (c : NodeId) :
    (t.insertChild p i c).size = t.size := by
  rw [insertChild_eq, size_renumber, hang, size_modify, size_modify]

theorem children_insertChild (hp : p < t.size) (hc : c < t.size) (i : Nat) (x : NodeId) :
    (t.insertChild p i c).children x =
      if x = p then (t.children p).insertIdx i c else t.children x := by
  rw [insertChild_eq, children_renumber, (links_hang hp hc i x).1]

theorem parent?_insertChild (hp : p < t.size) (hc : c < t.size) (i : Nat) (x : NodeId) :
    (t.insertChild p i c).parent? x = if x = c then some p else t.parent? x := by
  rw [insertChild_eq, parent?_renumber, (links_hang hp hc i x).2.1]

def cut (t : Tree) (p : NodeId) (i : Nat) (c : NodeId) : Tree :=
  (t.modify p fun n ↦ { n with children := n.children.eraseIdx i }).modify c fun n ↦
    { n with parent := none, position := 0 }

theorem detach_eq (h : t.parent? c = some p) :
    t.detach c = (t.cut p (t.position c) c).renumber p (t.position c) := by
  unfold detach
  rw [h]
  rfl

theorem detach_of_top (h : t.parent? c = none) : t.detach c = t := by
  unfold detach
  rw [h]

theorem links_cut (hp : p < t.size) (hc : c < t.size) (i : Nat) (x : NodeId) :
    (t.cut p i c).children x = (if x = p then (t.children p).eraseIdx i else t.children x) ∧
      (t.cut p i c).parent? x = (if x = c then none else t.parent? x) ∧
      (t.cut p i c).position x = if x = c then 0 else t.position x := by
  simp only [cut, children, parent?, position, node_modify, size_modify]
  by_cases hxp : x = p <;> by_cases hxc : x = c <;> simp_all

@[simp] theorem size_detach (t : Tree) (c : NodeId) : (t.detach c).size = t.size := by
  cases h : t.parent? c with
  | none => rw [detach_of_top h]
  | some p => rw [detach_eq h, size_renumber, cut, size_modify, size_modify]

namespace WellFormed

theorem eraseIdx_position (w : t.WellFormed) (h : t.parent? c = some p) :
    (t.children p).eraseIdx (t.position c) = (t.children p).filter (· != c) := by
  obtain ⟨hi, hc⟩ := List.getElem?_eq_some_iff.1 (w.getElem?_position h)
  have he := (w.nodup_children p).erase_getElem _ hi
  rw [← he, hc, (w.nodup_children p).erase_eq_filter]

theorem filter_ne_of_parent? (w : t.WellFormed) (h : t.parent? c ≠ some x) :
    (t.children x).filter (· != c) = t.children x := by
  refine List.filter_eq_self.2 fun d hd ↦ ?_
  simp only [bne_iff_ne, ne_eq]
  rintro rfl
  exact h (w.mem_children.1 hd)

theorem children_detach (w : t.WellFormed) (c x : NodeId) :
    (t.detach c).children x = (t.children x).filter (· != c) := by
  cases h : t.parent? c with
  | none => rw [detach_of_top h, w.filter_ne_of_parent? (by rw [h]; exact nofun)]
  | some p =>
    rw [detach_eq h, children_renumber, (links_cut (w.parent_lt h) (lt_size_of_parent? h) _ x).1]
    split
    · next hx => rw [hx, w.eraseIdx_position h]
    · next hx =>
      exact (w.filter_ne_of_parent? fun he ↦ hx (Option.some_inj.1 (he.symm.trans h))).symm

theorem parent?_detach (w : t.WellFormed) (c x : NodeId) :
    (t.detach c).parent? x = if x = c then none else t.parent? x := by
  cases h : t.parent? c with
  | none =>
    rw [detach_of_top h]
    split
    · next hx => rw [hx, h]
    · rfl
  | some p =>
    rw [detach_eq h, parent?_renumber, (links_cut (w.parent_lt h) (lt_size_of_parent? h) _ x).2.1]

theorem alloc (w : t.WellFormed) (c : Content) (a : Overlay) : (t.alloc c a).1.WellFormed where
  root_lt := by rw [size_alloc]; exact Nat.lt_succ_of_lt w.root_lt
  root_top := by rw [parent?_alloc]; exact w.root_top
  linked p c i := by rw [children_alloc, parent?_alloc, position_alloc]; exact w.linked p c i
  acyclic := by
    obtain ⟨rank, hr⟩ := w.acyclic
    exact ⟨rank, fun c p h ↦ hr c p (by rwa [parent?_alloc] at h)⟩

theorem detach (w : t.WellFormed) (c : NodeId) : (t.detach c).WellFormed where
  root_lt := by rw [size_detach]; exact w.root_lt
  root_top := by rw [w.parent?_detach, w.root_top, ite_self]
  linked := by
    cases h : t.parent? c with
    | none => rw [detach_of_top h]; exact w.linked
    | some p =>
      have hl := links_cut (w.parent_lt h) (lt_size_of_parent? h) (t.position c)
      have hc (q : NodeId) :
          (t.cut p (t.position c) c).children q = (t.children q).filter (· != c) := by
        rw [← w.children_detach, detach_eq h, children_renumber]
      rw [detach_eq h]
      -- the children that came before `c` keep their positions
      refine linked_renumber (fun q ↦ ?_) (fun q x ↦ ?_) (fun q hq x j hx ↦ ?_)
        (fun x j hj hx ↦ ?_)
      · rw [hc]
        exact (w.nodup_children q).filter _
      · rw [hc, (hl x).2.1, List.mem_filter, w.mem_children, bne_iff_ne]
        split <;> simp_all
      · rw [(hl q).1, if_neg hq] at hx
        obtain ⟨hxq, rfl⟩ := (w.linked q x j).1 hx
        rw [(hl x).2.2, if_neg]
        rintro rfl
        exact hq (Option.some_inj.1 (hxq.symm.trans h))
      · rw [(hl p).1, if_pos rfl, List.getElem?_eraseIdx_of_lt hj] at hx
        obtain ⟨-, rfl⟩ := (w.linked p x j).1 hx
        rw [(hl x).2.2, if_neg]
        rintro rfl
        exact Nat.lt_irrefl _ hj
  acyclic := by
    obtain ⟨rank, hr⟩ := w.acyclic
    refine ⟨rank, fun x q h ↦ hr x q ?_⟩
    rw [w.parent?_detach] at h
    split at h
    · cases h
    · exact h

/-- Attaching a top to a node that is not below it closes no circle. -/
theorem acyclic_insertChild (w : t.WellFormed) (hp : p < t.size) (hc : c < t.size)
    (ha : ¬ t.Above c p) (i : Nat) : ∃ rank : NodeId → Nat, ∀ x q,
      (t.insertChild p i c).parent? x = some q → rank q < rank x := by
  classical
  obtain ⟨rank, hrank⟩ := w.acyclic
  -- all that comes along goes below the new parent
  refine ⟨fun x ↦ if t.Above c x then rank x + rank p + 1 else rank x, fun x q h ↦ ?_⟩
  rw [parent?_insertChild hp hc] at h
  split at h
  · next hx =>
    obtain rfl := Option.some_inj.1 h
    subst hx
    simp only [if_neg ha, if_pos (Relation.ReflTransGen.refl (r := t.IsParent) (a := x))]
    omega
  · next hx =>
    have hlt := hrank x q h
    have hiff : t.Above c x ↔ t.Above c q := by
      rw [above_iff]
      constructor
      · rintro (rfl | ⟨q', hq', hab⟩)
        · exact absurd rfl hx
        · exact Option.some_inj.1 (hq'.symm.trans h) ▸ hab
      · exact fun hab ↦ .inr ⟨q, h, hab⟩
    simp only [hiff]
    split <;> omega

theorem insertChild (w : t.WellFormed) (hp : p < t.size) (hc : c < t.size) (hr : c ≠ root)
    (top : t.parent? c = none) (ha : ¬ t.Above c p) (hi : i ≤ (t.children p).length) :
    (t.insertChild p i c).WellFormed where
  root_lt := by rw [size_insertChild]; exact w.root_lt
  root_top := by rw [parent?_insertChild hp hc, if_neg hr.symm, w.root_top]
  linked := by
    have hl := links_hang hp hc i
    have hnot (q : NodeId) : c ∉ t.children q := by
      rw [w.mem_children, top]
      exact nofun
    rw [insertChild_eq]
    -- the children before the place of `c` keep their positions
    refine linked_renumber (fun q ↦ ?_) (fun q x ↦ ?_) (fun q hq x j hx ↦ ?_)
      (fun x j hj hx ↦ ?_)
    · rw [(hl q).1]
      split
      · exact (List.perm_insertIdx c _ hi).nodup_iff.2
          (List.nodup_cons.2 ⟨hnot p, w.nodup_children p⟩)
      · exact w.nodup_children q
    · rw [(hl q).1, (hl x).2.1]
      by_cases hx : x = c
      · subst hx
        by_cases hq : q = p
        · simp [hq, List.mem_insertIdx hi]
        · simp [hq, hnot q, Ne.symm hq]
      · by_cases hq : q = p
        · subst hq
          simp [hx, List.mem_insertIdx hi, w.mem_children]
        · simp [hx, hq, w.mem_children]
    · rw [(hl q).1, if_neg hq] at hx
      rw [(hl x).2.2]
      exact ((w.linked q x j).1 hx).2
    · rw [(hl p).1, if_pos rfl, List.getElem?_insertIdx_of_lt hj] at hx
      rw [(hl x).2.2]
      exact ((w.linked p x j).1 hx).2
  acyclic := w.acyclic_insertChild hp hc ha i

end WellFormed

end FlowMerge.Tree
