import FlowMerge.Merge.Basic
import FlowMerge.Proofs.Script.RoundTrip

namespace FlowMerge.Merge

open FlowMerge.Tree

variable {t : Tree} {p : Provenance} {n x q : NodeId} {up : NodeId → Option NodeId}

/-- The tree `t` records what was done to a base of `n` nodes, in which `up` leads to parents. -/
structure Branch (n : Nat) (up : NodeId → Option NodeId) (t : Tree) : Prop where
  wellFormed : t.WellFormed
  base? : ∀ x, base? t x = if x < n then some x else none
  recorded : ∀ x ∈ t.live, ∃ y, t.delta? x = some y
  inserted : ∀ x ∈ t.live, n ≤ x → t.mark x = .inserted
  known : ∀ x ∈ t.live, x < n → (t.mark x).isInsertion = false
  unmoved : ∀ x ∈ t.live, x < n → t.mark x ≠ .movedHere → t.parent? x = up x

theorem Branch.recorded_root (h : Branch n up t) : t.delta? root ≠ none := by
  obtain ⟨y, hy⟩ := h.recorded root h.wellFormed.root_mem_live
  rw [hy]
  exact Option.some_ne_none y

theorem Branch.lt_of_mark (h : Branch n up t) (hx : x ∈ t.live) (hm : t.mark x ≠ .inserted) :
    x < n := Nat.lt_of_not_le fun hle ↦ hm (h.inserted x hx hle)

theorem Branch.lt_of_movedHere (h : Branch n up t) (hx : x ∈ t.live) (hm : t.mark x = .movedHere) :
    x < n := by
  refine h.lt_of_mark hx ?_
  rw [hm]
  exact nofun

theorem Branch.isInsertion_iff (h : Branch n up t) (hx : x ∈ t.live) :
    (t.mark x).isInsertion = true ↔ n ≤ x := by
  constructor
  · intro hm
    by_contra hlt
    rw [h.known x hx (Nat.lt_of_not_le hlt)] at hm
    cases hm
  · intro hle
    rw [h.inserted x hx hle]
    rfl

theorem delta?_mapInfo (a : Overlay) (f : MergeInfo → MergeInfo) :
    (a.mapInfo f).delta? = a.delta? := by cases a <;> rfl

theorem node_ascribed (t : Tree) (p : Provenance) (hx : x < t.size) :
    (ascribed t p).node x = { t.node x with
      overlay := (mergeOverlay (t.live.idxOf? x) (t.overlay x)).mapInfo fun i ↦
        { i with provenance := p } } := by
  have hn : t.nodes[x]? = some (t.node x) := by
    rw [node, Array.getD_eq_getD_getElem?, Array.getElem?_eq_getElem hx, Option.getD_some]
  rw [node, ascribed, toMerge, Array.getD_eq_getD_getElem?, Array.getElem?_map,
    Array.getElem?_mapIdx, hn]
  rfl

theorem size_ascribed (t : Tree) (p : Provenance) : (ascribed t p).size = t.size := by
  simp only [size, ascribed, toMerge, Array.size_map, Array.size_mapIdx]

theorem node_ascribed_of_size_le (t : Tree) (p : Provenance) (hx : t.size ≤ x) :
    (ascribed t p).node x = t.node x := by
  rw [node_of_size_le hx, node_of_size_le (by rw [size_ascribed]; exact hx)]

theorem sameShape_ascribed (t : Tree) (p : Provenance) : SameShape (ascribed t p) t := by
  have hn (x : NodeId) : ((ascribed t p).node x).children = (t.node x).children ∧
      ((ascribed t p).node x).parent = (t.node x).parent ∧
        ((ascribed t p).node x).position = (t.node x).position := by
    by_cases hx : x < t.size
    · rw [node_ascribed t p hx]
      exact ⟨rfl, rfl, rfl⟩
    · rw [node_ascribed_of_size_le t p (Nat.le_of_not_lt hx)]
      exact ⟨rfl, rfl, rfl⟩
  exact ⟨size_ascribed t p, fun x ↦ (hn x).1, fun x ↦ (hn x).2.1, fun x ↦ (hn x).2.2⟩

theorem content_ascribed (t : Tree) (p : Provenance) (x : NodeId) :
    (ascribed t p).content x = t.content x := by
  by_cases hx : x < t.size
  · rw [content, node_ascribed t p hx]
    rfl
  · rw [content, node_ascribed_of_size_le t p (Nat.le_of_not_lt hx)]
    rfl

theorem delta?_ascribed (t : Tree) (p : Provenance) {y : Delta} (h : t.delta? x = some y) :
    (ascribed t p).delta? x = some y := by
  have hx := lt_size_of_delta? h
  rw [delta?, overlay, node_ascribed t p hx, delta?_mapInfo]
  rw [delta?] at h
  cases ho : t.overlay x with
  | plain =>
    rw [ho] at h
    cases h
  | changed d =>
    rw [ho] at h
    exact h
  | merged d i =>
    rw [ho] at h
    exact h

theorem base?_eq_notes (t : Tree) (x : NodeId) : base? t x = (t.notes x).bind Prod.fst := by
  rw [base?, notes]
  cases t.delta? x <;> rfl

theorem base?_ascribed (t : Tree) (p : Provenance) (h : x ∈ t.live → t.delta? x ≠ none) :
    base? (ascribed t p) x = base? t x := by
  cases hd : t.delta? x with
  | some y => rw [base?, delta?_ascribed t p hd, base?, hd]
  | none =>
    have hl : x ∉ t.live := fun hl ↦ h hl hd
    by_cases hx : x < t.size
    · rw [base?, delta?, overlay, node_ascribed t p hx, delta?_mapInfo, base?, hd]
      rw [delta?] at hd
      cases ho : t.overlay x with
      | plain =>
        rw [List.idxOf?_eq_none_iff.2 hl]
        rfl
      | changed d =>
        rw [ho] at hd
        cases hd
      | merged d i =>
        rw [ho] at hd
        cases hd
    · rw [base?, delta?, overlay, node_ascribed_of_size_le t p (Nat.le_of_not_lt hx)]
      rfl

theorem mark_ascribed (t : Tree) (p : Provenance) {y : Delta} (h : t.delta? x = some y) :
    (ascribed t p).mark x = t.mark x := by
  rw [mark, delta?_ascribed t p h, mark, h]

theorem Branch.ascribed (h : Branch n up t) (p : Provenance) : Branch n up (ascribed t p) := by
  have hs := sameShape_ascribed t p
  have hmark {x : NodeId} (hx : x ∈ t.live) : (Merge.ascribed t p).mark x = t.mark x := by
    obtain ⟨y, hy⟩ := h.recorded x hx
    exact Merge.mark_ascribed t p hy
  exact {
    wellFormed := hs.wellFormed h.wellFormed
    base? x := by
      rw [base?_ascribed t p fun hx ↦ ?_, h.base?]
      obtain ⟨y, hy⟩ := h.recorded x hx
      rw [hy]
      exact nofun
    recorded x hx := by
      rw [hs.live] at hx
      obtain ⟨y, hy⟩ := h.recorded x hx
      exact ⟨y, delta?_ascribed t p hy⟩
    inserted x hx hn := by
      rw [hs.live] at hx
      rw [hmark hx, h.inserted x hx hn]
    known x hx hn := by
      rw [hs.live] at hx
      rw [hmark hx, h.known x hx hn]
    unmoved x hx hn hm := by
      rw [hs.live] at hx
      rw [hmark hx] at hm
      rw [hs.parent?, h.unmoved x hx hn hm] }

theorem Branch.base?_ascribed (h : Branch n up t) (p : Provenance) (x : NodeId) :
    Merge.base? (Merge.ascribed t p) x = Merge.base? t x := by
  rw [(h.ascribed p).base?, h.base?]

theorem Branch.mark_ascribed (h : Branch n up t) (p : Provenance) (hx : x ∈ t.live) :
    (Merge.ascribed t p).mark x = t.mark x := by
  obtain ⟨y, hy⟩ := h.recorded x hx
  exact Merge.mark_ascribed t p hy

theorem branch_of_patched {old new d : Tree} {m : Matching} {f : NodeId → NodeId}
    (h : Script.Patched old new m f d) (wo : old.WellFormed) (wn : new.WellFormed)
    (hm : Script.Clean old new m) :
    Branch old.live.length (Script.pristine old).parent? d where
  wellFormed := h.wellFormed
  base? x := by
    rw [base?_eq_notes]
    split
    · next hx =>
      obtain ⟨us, hus⟩ := h.notes x hx
      rw [hus]
      rfl
    · next hx => exact h.fresh x (Nat.le_of_not_lt hx)
  recorded x hx := by
    by_cases hlt : x < old.live.length
    · obtain ⟨us, hus⟩ := h.notes x hlt
      obtain ⟨y, hy, -⟩ := Option.map_eq_some_iff.1 hus
      exact ⟨y, hy⟩
    · exact ⟨_, h.delta?_of_le wn hm hx (Nat.le_of_not_lt hlt)⟩
  inserted x hx hle := by
    rw [mark, h.delta?_of_le wn hm hx hle]
    rfl
  known x hx hlt := by
    obtain ⟨n, o, -, hno, rfl, -⟩ := h.exists_of_lt wn hx hlt
    exact (h.mark_of_matched hm hno).1
  unmoved x hx hlt hmark := by
    obtain ⟨n, o, hn, hno, rfl, -⟩ := h.exists_of_lt wn hx hlt
    have hs : Script.stays old new m n = true := by
      rw [← (h.mark_of_matched hm hno).2, bne_iff_ne]
      exact hmark
    have ho := (hm.live n o hno).2
    -- the parents of a node that stays belong together
    by_cases hr : n = root
    · have hor := (hm.root_iff hno).1 hr
      rw [hr, h.embeds.root, h.wellFormed.root_top]
      exact (Script.wellFormed_pristine wo).root_top.symm
    · obtain ⟨p, hp, -⟩ := wn.exists_parent_of_live hn hr
      obtain ⟨po, hpo, hpar⟩ := Script.parents_of_stays wo hs hno hp
      rw [h.embeds.map_parent wn h.wellFormed hn hp, h.matched p po hpo, h.matched n o hno,
        Script.parent?_pristine wo ho, hpar]
      rfl

theorem branch_derive {old new : Tree} {m : Matching} (wo : old.WellFormed)
    (wn : new.WellFormed) (h : m.OneToOne) :
    ∃ d, Script.patch old (Script.derive old new m) = .ok d ∧
      Branch old.live.length (Script.pristine old).parent? d := by
  obtain ⟨d, f, hd, hp⟩ := Script.patched_derive wo wn h
  exact ⟨d, hd, branch_of_patched hp wo wn (Script.clean_clean wo wn h)⟩

end FlowMerge.Merge
