import FlowMerge.Merge.Align
import FlowMerge.Proofs.Script.Custody

namespace FlowMerge.Script

open FlowMerge.Tree
open Merge (base?)

variable {t d d' : Tree} {node parent p x y z : NodeId} {out ids : List NodeId} {n i j k : Nat}
  {first : NodeId → Content}

/-- The nodes in `ids` were moved out of a tree of `n` nodes in this order. Each move has a stand-in
with the content that `first` gives the moved node. -/
structure Numbered (n : Nat) (first : NodeId → Content) (ids : List NodeId) (d : Tree) : Prop where
  root_lt : root < n
  lt : ∀ x ∈ ids, x < n
  size_le : n + ids.length ≤ d.size
  base : ∀ x, base? d x = if x < n then some x else none
  moved : ∀ j x, ids[j]? = some x → d.mark x = .movedHere ∧ d.moveId? x = some (j + 1)
  standIn : ∀ j x, ids[j]? = some x → d.mark (n + j) = .movedAway ∧
    d.moveId? (n + j) = some (j + 1) ∧ (d.content (n + j) == first x) = true
  alone : ∀ j < ids.length, d.parent? (n + j) = none ∧ d.children (n + j) = []
  only : ∀ x, d.moveId? x ≠ none → x ∈ ids ∨ ∃ j < ids.length, x = n + j

theorem base?_eq_of_delta? (h : d'.delta? x = d.delta? x) : base? d' x = base? d x := by
  rw [base?, h, base?]

theorem Numbered.keep (h : Numbered n first ids d) (hsize : d.size ≤ d'.size)
    (hkeep : ∀ x < d.size, base? d' x = base? d x ∧ d'.moveId? x = d.moveId? x ∧
      d'.content x = d.content x ∧ (d.moveId? x ≠ none → d'.mark x = d.mark x))
    (hnew : ∀ x, d.size ≤ x → d'.delta? x = d.delta? x ∨ d'.delta? x = some { mark := .inserted })
    (halone : ∀ j < ids.length, d'.parent? (n + j) = none ∧ d'.children (n + j) = []) :
    Numbered n first ids d' := by
  -- the nodes that are added carry no number
  have hnone {x : NodeId} (hx : d.size ≤ x) : base? d' x = none ∧ d'.moveId? x = none := by
    have hd : d.delta? x = none := by
      rw [delta?, overlay_of_size_le hx]
      rfl
    rw [base?, moveId?]
    rcases hnew x hx with hx | hx <;> rw [hx]
    · rw [hd]
      exact ⟨rfl, rfl⟩
    · exact ⟨rfl, rfl⟩
  have hmark {x : NodeId} {k : Nat} (hx : x < d.size) (hk : d.moveId? x = some k) :
      d'.mark x = d.mark x := (hkeep x hx).2.2.2 (hk ▸ Option.some_ne_none k)
  exact {
    root_lt := h.root_lt
    lt := h.lt
    size_le := Nat.le_trans h.size_le hsize
    base x := by
      by_cases hxd : x < d.size
      · rw [(hkeep x hxd).1, h.base]
      · have hle := Nat.le_trans (Nat.le_add_right n ids.length) h.size_le
        rw [(hnone (Nat.le_of_not_lt hxd)).1, if_neg fun hx ↦ hxd (Nat.lt_of_lt_of_le hx hle)]
    moved j x hx := by
      have hle := Nat.le_trans (Nat.le_add_right n ids.length) h.size_le
      have hxd : x < d.size := Nat.lt_of_lt_of_le (h.lt x (List.mem_of_getElem? hx)) hle
      obtain ⟨hm, hk⟩ := h.moved j x hx
      rw [hmark hxd hk, (hkeep x hxd).2.1]
      exact ⟨hm, hk⟩
    standIn j x hx := by
      have hle := h.size_le
      have hj := (List.getElem?_eq_some_iff.1 hx).1
      have hxd : n + j < d.size := by omega
      obtain ⟨hm, hk, hc⟩ := h.standIn j x hx
      rw [hmark hxd hk, (hkeep _ hxd).2.1, (hkeep _ hxd).2.2.1]
      exact ⟨hm, hk, hc⟩
    alone := halone
    only x hx := by
      by_cases hxd : x < d.size
      · rw [(hkeep x hxd).2.1] at hx
        exact h.only x hx
      · exact absurd (hnone (Nat.le_of_not_lt hxd)).2 hx }

theorem Numbered.top (h : Numbered n first ids d) (hu : Underway ids d) (hx : d.moveId? x ≠ none) :
    d.parent? x = none := by
  rcases h.only x hx with hx | ⟨j, hj, rfl⟩
  · exact (hu.waiting x hx).1
  · exact (h.alone j hj).1

theorem Numbered.delete (h : Numbered n first ids d) (hu : Underway ids d)
    (hp : d.parent? node = some parent) : Numbered n first ids (deleteAt d node parent) := by
  have w := hu.wellFormed
  have hrem := removed_deletion w (lt_size_of_parent? hp) parent
  have hdelta (x : NodeId) : ∃ f : Delta → Delta, (deleteAt d node parent).delta? x =
      (d.delta? x).map f ∧ ∀ y, (f y).base = y.base ∧ (f y).moveId = y.moveId := by
    rw [delta?_deleteAt w hp]
    split
    · exact ⟨_, rfl, fun _ ↦ ⟨rfl, rfl⟩⟩
    · split
      · exact ⟨_, rfl, fun _ ↦ ⟨rfl, rfl⟩⟩
      · exact ⟨id, Option.map_id_apply.symm, fun _ ↦ ⟨rfl, rfl⟩⟩
  refine h.keep (Nat.le_of_eq (size_deleteAt d node parent).symm) (fun x hx ↦ ?_) (fun x hx ↦ ?_)
    fun j hj ↦ ?_
  · obtain ⟨f, hf, hkeep⟩ := hdelta x
    refine ⟨?_, ?_, content_deleteAt d node parent x, fun hk ↦ ?_⟩
    · rw [base?, hf, base?]
      cases d.delta? x with
      | none => rfl
      | some y => exact (hkeep y).1
    · rw [moveId?, hf, moveId?]
      cases d.delta? x with
      | none => rfl
      | some y => exact (hkeep y).2
    · -- a numbered node hangs nowhere, so that it is not below the node that goes
      have htop := h.top hu hk
      have hnot : x ∉ d.preorder node := by
        intro hm
        rw [above_of_top htop (above_of_mem_preorderWithin w hm), htop] at hp
        cases hp
      rw [mark, delta?_deleteAt w hp, if_neg hnot, mark]
      split
      · cases d.delta? x <;> rfl
      · rfl
  · obtain ⟨f, hf, -⟩ := hdelta x
    refine .inl ?_
    rw [hf, delta?, overlay_of_size_le hx]
    rfl
  · obtain ⟨hpar, hch⟩ := h.alone j hj
    rw [deleteAt, hrem.parent?, hrem.children, hpar, hch, ite_self]
    exact ⟨rfl, rfl⟩

theorem Numbered.sprout (h : Numbered n first ids d) (hs : Sprouted d d') :
    Numbered n first ids d' := by
  refine h.keep (Nat.le_of_lt hs.lt) (fun x hx ↦ ?_)
    (fun x _ ↦ (hs.delta?_cases x).imp_right And.right) fun j hj ↦ ?_
  · have hd := hs.delta? hx
    exact ⟨base?_eq_of_delta? hd, moveId?_eq_of_delta? hd, (hs.data x hx).1,
      fun _ ↦ mark_eq_of_delta? hd⟩
  · have hle := h.size_le
    obtain ⟨hch, hpar⟩ := hs.others (n + j) (by omega)
    rw [hch, hpar]
    exact h.alone j hj

theorem Numbered.attach (h : Numbered n first ids d) (hz : Attachable out d p i node)
    (hnode : ∀ j < ids.length, node ≠ n + j) : Numbered n first ids (d.insertChild p i node) := by
  have w := hz.underway.wellFormed
  have hp := w.live_lt hz.live
  have hlt := (hz.underway.waiting node List.mem_cons_self).2.2
  have hdata := sameData_insertChild d p i node
  refine h.keep (Nat.le_of_eq (size_insertChild d p i node).symm) (fun x hx ↦ ?_)
    (fun x _ ↦ .inl (hdata.delta? x)) fun j hj ↦ ?_
  · have hd := hdata.delta? x
    exact ⟨base?_eq_of_delta? hd, moveId?_eq_of_delta? hd, hdata.content x,
      fun _ ↦ mark_eq_of_delta? hd⟩
  · obtain ⟨hpar, hch⟩ := h.alone j hj
    -- a stand-in is not live
    have hne : n + j ≠ p := by
      rintro rfl
      have hroot := h.root_lt
      rw [above_of_top hpar (w.mem_live.1 hz.live)] at hroot
      exact Nat.not_lt_of_le (Nat.le_add_right n j) hroot
    rw [parent?_insertChild hp hlt, if_neg (hnode j hj).symm, children_insertChild hp hlt,
      if_neg hne]
    exact ⟨hpar, hch⟩

theorem Numbered.of_moveId? (h : Numbered n first ids d) (hx : d.moveId? x = some k) :
    ∃ j < ids.length, k = j + 1 ∧ ((ids[j]? = some x ∧ d.mark x = .movedHere) ∨
      (x = n + j ∧ d.mark x = .movedAway)) := by
  rcases h.only x (hx ▸ Option.some_ne_none k) with hm | ⟨j, hj, rfl⟩
  · obtain ⟨j, hj⟩ := List.mem_iff_getElem?.1 hm
    obtain ⟨hmark, hid⟩ := h.moved j x hj
    exact ⟨j, (List.getElem?_eq_some_iff.1 hj).1, Option.some_inj.1 (hx.symm.trans hid),
      .inl ⟨hj, hmark⟩⟩
  · obtain ⟨hmark, hid, -⟩ := h.standIn j _ (List.getElem?_eq_getElem hj)
    exact ⟨j, hj, Option.some_inj.1 (hx.symm.trans hid), .inr ⟨rfl, hmark⟩⟩

theorem Numbered.movedHere_iff (h : Numbered n first ids d) (hj : ids[j]? = some x) {z : NodeId} :
    d.mark z = .movedHere ∧ d.moveId? z = some (j + 1) ↔ z = x := by
  constructor
  · rintro ⟨hm, hid⟩
    obtain ⟨i, -, hi, ⟨hz, -⟩ | ⟨-, hz⟩⟩ := h.of_moveId? hid
    · obtain rfl := Nat.add_right_cancel hi
      exact Option.some_inj.1 (hz.symm.trans hj)
    · rw [hm] at hz
      cases hz
  · rintro rfl
    exact h.moved j z hj

theorem Numbered.movedAway_iff (h : Numbered n first ids d) (hj : ids[j]? = some x) {z : NodeId} :
    d.mark z = .movedAway ∧ d.moveId? z = some (j + 1) ↔ z = n + j := by
  constructor
  · rintro ⟨hm, hid⟩
    obtain ⟨i, -, hi, ⟨-, hz⟩ | ⟨hz, -⟩⟩ := h.of_moveId? hid
    · rw [hm] at hz
      cases hz
    · obtain rfl := Nat.add_right_cancel hi
      exact hz
  · rintro rfl
    obtain ⟨hm, hid, -⟩ := h.standIn j x hj
    exact ⟨hm, hid⟩

/-- The moves with targets `ids` are taken out. Nothing else is, and what has been written into
nodes is remembered. -/
structure Moving (n : Nat) (first : NodeId → Content) (ids : List NodeId) (d : Tree) : Prop
    extends Underway ids d, Numbered n first ids d, Custody ids d where
  size : d.size = n + ids.length
  nodup : ids.Nodup
  unmarked : ∀ x, (d.mark x).isDeletion = false
  remembered : ∀ x < n, ∃ y, d.delta? x = some y ∧ y.updates.Remembers (first x) (d.content x)

namespace Moving

variable (h : Moving n first ids d)
include h

theorem lt_of_parent? (hp : d.parent? node = some parent) : node < n := by
  by_contra hle
  have hlt := lt_size_of_parent? hp
  rw [h.size] at hlt
  obtain ⟨j, rfl⟩ := Nat.exists_eq_add_of_le (Nat.le_of_not_lt hle)
  rw [(h.alone j (Nat.lt_of_add_lt_add_left hlt)).1] at hp
  cases hp

theorem delta?_move (hp : d.parent? node = some parent) (hx : x ≠ d.size) :
    ∃ f : Delta → Delta, (detachMoved d k node parent).delta? x = (d.delta? x).map f ∧
      ∀ y, (f y).base = y.base ∧ (f y).updates = y.updates ∧
        (if x = node then (f y).mark = .movedHere ∧ (f y).moveId = some k
          else (f y).mark = y.mark ∧ (f y).moveId = y.moveId) := by
  have hne := (h.wellFormed.parent_ne hp).symm
  rw [delta?_detachMoved d k (lt_size_of_parent? hp) hne (h.wellFormed.parent_lt hp), if_neg hx]
  split
  · exact ⟨_, rfl, fun _ ↦ ⟨rfl, rfl, rfl, rfl⟩⟩
  · split
    · exact ⟨_, rfl, fun _ ↦ ⟨rfl, rfl, rfl, rfl⟩⟩
    · exact ⟨id, Option.map_id_apply.symm, fun _ ↦ ⟨rfl, rfl, rfl, rfl⟩⟩

theorem mark_move (hp : d.parent? node = some parent) (hx : x ≠ d.size) (hn : x ≠ node) :
    (detachMoved d k node parent).mark x = d.mark x ∧
      (detachMoved d k node parent).moveId? x = d.moveId? x := by
  obtain ⟨f, hf, hkeep⟩ := h.delta?_move (k := k) hp hx
  rw [mark, moveId?, hf, mark, moveId?]
  cases d.delta? x with
  | none => exact ⟨rfl, rfl⟩
  | some y =>
    have hy := (hkeep y).2.2
    rw [if_neg hn] at hy
    exact hy

theorem mark_move_self (hp : d.parent? node = some parent) :
    (detachMoved d k node parent).mark node = .movedHere ∧
      (detachMoved d k node parent).moveId? node = some k := by
  have hlt := lt_size_of_parent? hp
  obtain ⟨f, hf, hkeep⟩ := h.delta?_move (k := k) hp (Nat.ne_of_lt hlt)
  obtain ⟨y, hy⟩ := Option.ne_none_iff_exists'.1 (h.recorded node hlt)
  have hfy := (hkeep y).2.2
  rw [if_pos rfl] at hfy
  rw [mark, moveId?, hf, hy]
  exact hfy

theorem delta?_standIn (hp : d.parent? node = some parent) :
    (detachMoved d k node parent).delta? d.size = some (standIn d k node) := by
  have hne := (h.wellFormed.parent_ne hp).symm
  rw [delta?_detachMoved d k (lt_size_of_parent? hp) hne (h.wellFormed.parent_lt hp), if_pos rfl]

theorem remembered_move (hp : d.parent? node = some parent) (hx : x < n) : ∃ y,
    (detachMoved d k node parent).delta? x = some y ∧ y.base = some x ∧
      y.updates.Remembers (first x) ((detachMoved d k node parent).content x) := by
  have hxd : x < d.size := Nat.lt_of_lt_of_le hx (h.size ▸ Nat.le_add_right n _)
  obtain ⟨f, hf, hkeep⟩ := h.delta?_move (k := k) hp (Nat.ne_of_lt hxd)
  obtain ⟨y, hy, hrem⟩ := h.remembered x hx
  have hb := h.base x
  rw [if_pos hx, base?, hy] at hb
  refine ⟨f y, by rw [hf, hy]; rfl, (hkeep y).1.trans hb, ?_⟩
  rw [(hkeep y).2.1, (removed_detachMoved h.wellFormed k node parent).content x hxd]
  exact hrem

theorem not_mem_of_parent? (hp : d.parent? node = some parent) : node ∉ ids := by
  intro hm
  rw [(h.waiting node hm).1] at hp
  cases hp

theorem ne_size (hx : x < n) : x ≠ d.size :=
  Nat.ne_of_lt (Nat.lt_of_lt_of_le hx (h.size ▸ Nat.le_add_right n _))

theorem standIn_ne (hp : d.parent? node = some parent) (hj : j < ids.length) :
    n + j ≠ d.size ∧ n + j ≠ node := by
  constructor
  · have hsize := h.size
    omega
  · rintro rfl
    rw [(h.alone j hj).1] at hp
    cases hp

theorem base?_move (hp : d.parent? node = some parent) (x : NodeId) :
    base? (detachMoved d k node parent) x = if x < n then some x else none := by
  by_cases hx : x = d.size
  · rw [hx, base?, h.delta?_standIn hp, if_neg fun hd ↦ h.ne_size hd rfl]
    rfl
  · obtain ⟨f, hf, hkeep⟩ := h.delta?_move (k := k) hp hx
    rw [← h.base, base?, hf, base?]
    cases d.delta? x with
    | none => rfl
    | some y => exact (hkeep y).1

theorem alone_move (k : Nat) (node parent : NodeId) (hj : j < ids.length + 1) :
    (detachMoved d k node parent).parent? (n + j) = none ∧
      (detachMoved d k node parent).children (n + j) = [] := by
  have hrem := removed_detachMoved h.wellFormed k node parent
  rw [hrem.parent?, hrem.children]
  by_cases hlast : j = ids.length
  · rw [hlast, ← h.size, children_of_size_le (Nat.le_refl _), parent?_of_size_le (Nat.le_refl _),
      ite_self]
    exact ⟨rfl, rfl⟩
  · obtain ⟨hpar, hch⟩ := h.alone j (by omega)
    rw [hpar, hch, ite_self]
    exact ⟨rfl, rfl⟩

theorem only_move (hp : d.parent? node = some parent)
    (hx : (detachMoved d k node parent).moveId? x ≠ none) :
    x ∈ ids ++ [node] ∨ ∃ j < ids.length + 1, x = n + j := by
  by_cases hxs : x = d.size
  · exact .inr ⟨ids.length, Nat.lt_succ_self _, hxs.trans h.size⟩
  · by_cases hxn : x = node
    · exact .inl (List.mem_append_right ids (hxn ▸ List.mem_cons_self))
    · rw [(h.mark_move hp hxs hxn).2] at hx
      refine (h.only x hx).imp (List.mem_append_left [node]) ?_
      rintro ⟨j, hj, rfl⟩
      exact ⟨j, Nat.lt_succ_of_lt hj, rfl⟩

theorem numbered_move (hp : d.parent? node = some parent) :
    Numbered n first (ids ++ [node]) (detachMoved d (ids.length + 1) node parent) := by
  have hlt := h.lt_of_parent? hp
  have hlength : (ids ++ [node]).length = ids.length + 1 := List.length_append
  refine ⟨h.root_lt, fun x hx ↦ ?_, ?_, h.base?_move hp, fun j x hx ↦ ?_, fun j x hx ↦ ?_,
    fun j hj ↦ h.alone_move _ _ _ (hlength ▸ hj), fun x hx ↦ hlength ▸ h.only_move hp hx⟩
  · rcases List.mem_append.1 hx with hx | hx
    · exact h.lt x hx
    · exact List.mem_singleton.1 hx ▸ hlt
  · rw [size_detachMoved, hlength, h.size, Nat.add_assoc]
  · rcases getElem?_snoc.1 hx with hx | ⟨rfl, rfl⟩
    · have hm := List.mem_of_getElem? hx
      obtain ⟨hmark, hid⟩ := h.mark_move (k := ids.length + 1) hp (h.ne_size (h.lt x hm))
        fun he ↦ h.not_mem_of_parent? hp (he ▸ hm)
      rw [hmark, hid]
      exact h.moved j x hx
    · exact h.mark_move_self hp
  · rcases getElem?_snoc.1 hx with hx | ⟨rfl, rfl⟩
    · have hj := (List.getElem?_eq_some_iff.1 hx).1
      obtain ⟨hs, hn⟩ := h.standIn_ne hp hj
      obtain ⟨hmark, hid⟩ := h.mark_move (k := ids.length + 1) hp hs hn
      have hsize := h.size
      rw [hmark, hid, (removed_detachMoved h.wellFormed _ node parent).content _ (by omega)]
      exact h.standIn j x hx
    · rw [mark, moveId?, ← h.size, h.delta?_standIn hp, content_detachMoved]
      obtain ⟨y, hy, hy'⟩ := h.remembered x hlt
      rw [hy]
      exact ⟨rfl, rfl, hy'.same_revert⟩

theorem unmarked_move (hp : d.parent? node = some parent) (x : NodeId) :
    ((detachMoved d k node parent).mark x).isDeletion = false := by
  by_cases hxs : x = d.size
  · rw [hxs, mark, h.delta?_standIn hp]
    rfl
  · by_cases hxn : x = node
    · rw [hxn, (h.mark_move_self hp).1]
      rfl
    · rw [(h.mark_move hp hxs hxn).1]
      exact h.unmarked x

theorem move (hp : d.parent? node = some parent) :
    Moving n first (ids ++ [node]) (detachMoved d (ids.length + 1) node parent) where
  toUnderway := h.toUnderway.move hp _
  toNumbered := h.numbered_move hp
  toCustody := h.toCustody.move h.toUnderway hp _
  size := by
    rw [size_detachMoved, h.size, List.length_append, List.length_singleton, Nat.add_assoc]
  nodup := List.nodup_append.2 ⟨h.nodup, List.nodup_singleton node, fun x hx y hy he ↦
    h.not_mem_of_parent? hp (List.mem_singleton.1 hy ▸ he ▸ hx)⟩
  unmarked := h.unmarked_move hp
  remembered x hx := by
    obtain ⟨y, hy, -, hrec⟩ := h.remembered_move (k := ids.length + 1) hp hx
    exact ⟨y, hy, hrec⟩

end Moving

structure FieldsOnly (first : NodeId → Content) (x : NodeId) (y : Delta) (c : Content) :
    Prop where
  base : y.base = some x
  moveId : y.moveId = none
  placeholders : y.placeholders = []
  settled : y.Settled
  remembers : y.updates.Remembers (first x) c

theorem noted_updates (w : t.WellFormed) (steps : List Step) :
    Noted t.live.length (FieldsOnly (pristine t).content)
      (steps.foldl applyUpdate (pristine t)) := by
  have hstart : Noted t.live.length (FieldsOnly (pristine t).content) (pristine t) := by
    intro x hx
    obtain ⟨i, hi⟩ := (pristine_spec w).2.2 x hx
    exact ⟨_, hi, rfl, rfl, rfl, rfl, .nil _⟩
  refine hstart.foldl steps fun x y c s _ e _ h ↦ ?_
  obtain ⟨m, hm⟩ := y.record_eq e.1 ⟨c.field e.1, e.2.new⟩
  exact {
    base := by
      rw [hm]
      exact h.base
    moveId := by
      rw [hm]
      exact h.moveId
    placeholders := by
      rw [hm]
      exact h.placeholders
    settled := h.settled.record _ _
    remembers := h.remembers.record e.1 e.2.new }

section Noted

variable (h : Noted n (FieldsOnly first) d) (hd : d.size = n)
include h hd

theorem delta?_of_noted (x : NodeId) : (n ≤ x ∧ d.delta? x = none) ∨
    x < n ∧ ∃ y, d.delta? x = some y ∧ FieldsOnly first x y (d.content x) := by
  rcases Nat.lt_or_ge x n with hx | hx
  · exact .inr ⟨hx, h x hx⟩
  · rw [Tree.delta?, overlay_of_size_le (hd ▸ hx)]
    exact .inl ⟨hx, rfl⟩

theorem moveId?_of_noted (x : NodeId) : d.moveId? x = none := by
  rw [moveId?]
  rcases delta?_of_noted h hd x with ⟨-, hy⟩ | ⟨-, y, hy, hfields⟩
  · rw [hy]
    rfl
  · rw [hy]
    exact hfields.moveId

theorem mark_of_noted (x : NodeId) : d.mark x = .unchanged ∨ d.mark x = .updated := by
  rw [mark]
  rcases delta?_of_noted h hd x with ⟨-, hy⟩ | ⟨-, y, hy, hfields⟩
  · rw [hy]
    exact .inl rfl
  · rw [hy, Option.map_some, Option.getD_some, hfields.settled]
    split
    · exact .inr rfl
    · exact .inl rfl

theorem numbered_of_noted (hroot : root < n) : Numbered n first [] d where
  root_lt := hroot
  lt := List.forall_mem_nil _
  size_le := Nat.le_of_eq hd.symm
  base x := by
    rw [base?]
    rcases delta?_of_noted h hd x with ⟨hx, hy⟩ | ⟨hx, y, hy, hfields⟩
    · rw [hy, if_neg (Nat.not_lt_of_le hx)]
      rfl
    · rw [hy, if_pos hx]
      exact hfields.base
  moved _ _ hx := absurd hx (by simp)
  standIn _ _ hx := absurd hx (by simp)
  alone _ hj := absurd hj (Nat.not_lt_zero _)
  only x hx := absurd (moveId?_of_noted h hd x) hx

theorem custody_of_noted : Custody [] d := by
  refine .of_none (fun x ↦ ?_) fun x hx ↦ ?_
  · rw [placeholders]
    rcases delta?_of_noted h hd x with ⟨-, hy⟩ | ⟨-, y, hy, hfields⟩
    · rw [hy]
      rfl
    · rw [hy]
      exact hfields.placeholders
  · rcases mark_of_noted h hd x with hm | hm <;> rw [hm] at hx <;> cases hx

end Noted

theorem moving_pristine (w : t.WellFormed) (steps : List Step) :
    Moving t.live.length (pristine t).content [] (steps.foldl applyUpdate (pristine t)) := by
  have h := noted_updates w steps
  have hshape := (@revised_foldl False steps (pristine t) False.elim).shape
  generalize steps.foldl applyUpdate (pristine t) = d at h hshape
  have hd : d.size = t.live.length := hshape.size.trans (size_pristine w)
  have wd := hshape.wellFormed (wellFormed_pristine w)
  have hunderway : Underway [] d := {
    wellFormed := wd
    recorded x hx := by
      obtain ⟨y, hy, -⟩ := h x (hd ▸ hx)
      exact hy ▸ Option.some_ne_none y
    waiting := List.forall_mem_nil _
    held x hx := by
      refine ⟨root, List.mem_cons_self, wd.reaches_of_above (wd.mem_live.1 ?_)⟩
      rw [hshape.live, (pristine_spec w).1.live, toDelta, w.live_rebuild, List.mem_range]
      exact hd ▸ hx }
  refine ⟨hunderway, numbered_of_noted h hd (w.place_root ▸ place_lt w.root_mem_live),
    custody_of_noted h hd, hd, List.nodup_nil, fun x ↦ ?_, fun x hx ↦ ?_⟩
  · rcases mark_of_noted h hd x with hm | hm <;> rw [hm] <;> rfl
  · obtain ⟨y, hy, hfields⟩ := h x hx
    exact ⟨y, hy, hfields.remembers⟩

end FlowMerge.Script
