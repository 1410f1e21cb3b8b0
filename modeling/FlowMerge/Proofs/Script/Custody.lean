import FlowMerge.Proofs.Script.Underway

namespace FlowMerge.Script

open FlowMerge.Tree

variable {d d' : Tree} {node parent p q q' x z : NodeId} {out : List NodeId} {i k : Nat}

/-- While the nodes in `out` are under way, each node that is gone is kept by one other. A stand-in
holds nothing. -/
structure Custody (out : List NodeId) (d : Tree) : Prop where
  detached : ∀ q, ∀ p ∈ d.placeholders q, d.parent? p = none ∧ p ≠ root ∧ p < d.size ∧ p ∉ out
  gone : ∀ q, ∀ p ∈ d.placeholders q, d.mark p = .deleted ∨ d.mark p = .movedAway
  unique : ∀ q q' p, p ∈ d.placeholders q → p ∈ d.placeholders q' → q = q'
  distinct : ∀ q, (d.placeholders q).Nodup
  bare : ∀ p, d.mark p = .movedAway → d.children p = [] ∧ d.placeholders p = []
  kept : ∀ p, d.mark p = .movedAway → ∃ q, p ∈ d.placeholders q

namespace Custody

theorem of_none (hp : ∀ q, d.placeholders q = []) (hm : ∀ x, d.mark x ≠ .movedAway) :
    Custody out d where
  detached q _ h := absurd h (hp q ▸ List.not_mem_nil)
  gone q _ h := absurd h (hp q ▸ List.not_mem_nil)
  unique q _ _ h := absurd h (hp q ▸ List.not_mem_nil)
  distinct q := hp q ▸ List.nodup_nil
  bare p h := absurd h (hm p)
  kept p h := absurd h (hm p)

theorem unique_of_append {s : NodeId} (hc : Custody out d) (hs : ∀ q, s ∉ d.placeholders q)
    (h : ∀ q, d'.placeholders q = if q = parent then d.placeholders q ++ [s]
      else d.placeholders q) :
    (∀ q p, p ∈ d'.placeholders q ↔ p ∈ d.placeholders q ∨ (p = s ∧ q = parent)) ∧
      (∀ q q' p, p ∈ d'.placeholders q → p ∈ d'.placeholders q' → q = q') ∧
      ∀ q, (d'.placeholders q).Nodup := by
  have hmem (q p : NodeId) :
      p ∈ d'.placeholders q ↔ p ∈ d.placeholders q ∨ (p = s ∧ q = parent) := by
    rw [h]
    split
    · next hq => simp [hq]
    · next hq => simp [hq]
  refine ⟨hmem, fun q q' p hp hp' ↦ ?_, fun q ↦ ?_⟩
  · rcases (hmem q p).1 hp with hp | ⟨hps, hq⟩ <;> rcases (hmem q' p).1 hp' with hp' | ⟨hps', hq'⟩
    · exact hc.unique q q' p hp hp'
    · exact absurd (hps' ▸ hp) (hs q)
    · exact absurd (hps ▸ hp') (hs q')
    · rw [hq, hq']
  · rw [h]
    split
    · refine List.nodup_append.2 ⟨hc.distinct q, List.nodup_singleton s, fun p hp y hy he ↦ ?_⟩
      exact hs q (List.mem_singleton.1 hy ▸ he ▸ hp)
    · exact hc.distinct q

theorem not_mem_placeholders (hc : Custody out d) (hp : d.parent? node = some parent)
    (q : NodeId) : node ∉ d.placeholders q := by
  intro hm
  rw [(hc.detached q node hm).1] at hp
  cases hp

theorem ne_of_parent (hc : Custody out d) (w : d.WellFormed) (hp : d.parent? node = some parent)
    (hx : d.mark x = .movedAway) : x ≠ parent := by
  rintro rfl
  exact List.not_mem_nil ((hc.bare x hx).1 ▸ w.mem_children.2 hp)

theorem keep {s : NodeId} {out' : List NodeId} (hc : Custody out d)
    (hs : ∀ q, s ∉ d.placeholders q)
    (hkept : ∀ q, d'.placeholders q = if q = parent then d.placeholders q ++ [s]
      else d.placeholders q)
    (htop : d'.parent? s = none ∧ s ≠ root ∧ s < d'.size ∧ s ∉ out')
    (hmark : d'.mark s = .deleted ∨ d'.mark s = .movedAway)
    (hold : ∀ q, ∀ p ∈ d.placeholders q, (d'.parent? p = none ∧ p < d'.size ∧ p ∉ out') ∧
      (d'.mark p = .deleted ∨ d'.mark p = d.mark p))
    (hbare : ∀ p, d'.mark p = .movedAway → d'.children p = [] ∧ d'.placeholders p = [] ∧
      (p = s ∨ d.mark p = .movedAway)) : Custody out' d' := by
  obtain ⟨hmem, hunique, hdistinct⟩ := hc.unique_of_append hs hkept
  exact {
    detached q p hp := by
      rcases (hmem q p).1 hp with hp | ⟨rfl, -⟩
      · obtain ⟨htop', hlt, hout⟩ := (hold q p hp).1
        exact ⟨htop', (hc.detached q p hp).2.1, hlt, hout⟩
      · exact htop
    gone q p hp := by
      rcases (hmem q p).1 hp with hp | ⟨rfl, -⟩
      · rcases (hold q p hp).2 with hm | hm
        · exact .inl hm
        · rw [hm]
          exact hc.gone q p hp
      · exact hmark
    unique := hunique
    distinct := hdistinct
    bare p hm := ⟨(hbare p hm).1, (hbare p hm).2.1⟩
    kept p hm := by
      rcases (hbare p hm).2.2 with rfl | hm
      · exact ⟨parent, (hmem _ _).2 (.inr ⟨rfl, rfl⟩)⟩
      · obtain ⟨q, hq⟩ := hc.kept p hm
        exact ⟨q, (hmem q p).2 (.inl hq)⟩ }

theorem sprout (hc : Custody out d) (hs : Sprouted d d') : Custody (d.size :: out) d' := by
  have hplaceholders (q : NodeId) : d'.placeholders q = d.placeholders q := by
    rcases hs.delta?_cases q with hd | ⟨hle, hd⟩
    · exact placeholders_eq_of_delta? hd
    · rw [placeholders_of_size_le hle, placeholders, hd]
      rfl
  have hmark {x : NodeId} (hm : d'.mark x = .movedAway) : d.mark x = .movedAway := by
    rcases hs.delta?_cases x with hd | ⟨-, hd⟩
    · exact mark_eq_of_delta? hd ▸ hm
    · rw [mark, hd] at hm
      cases hm
  exact {
    detached q p hq := by
      obtain ⟨htop, hr, hlt, hout⟩ := hc.detached q p (hplaceholders q ▸ hq)
      rw [(hs.others p hlt).2, List.mem_cons]
      exact ⟨htop, hr, Nat.lt_trans hlt hs.lt, fun ho ↦ ho.elim (Nat.ne_of_lt hlt) hout⟩
    gone q p hq := by
      rw [hplaceholders] at hq
      rw [mark_eq_of_delta? (hs.delta? (hc.detached q p hq).2.2.1)]
      exact hc.gone q p hq
    unique q q' p := by
      rw [hplaceholders, hplaceholders]
      exact hc.unique q q' p
    distinct q := by
      rw [hplaceholders]
      exact hc.distinct q
    bare p hm := by
      have hm := hmark hm
      have hlt : p < d.size := lt_size_of_mark (by simp [hm])
      rw [(hs.others p hlt).1, hplaceholders]
      exact hc.bare p hm
    kept p hm := by
      obtain ⟨q, hq⟩ := hc.kept p (hmark hm)
      exact ⟨q, by rwa [hplaceholders]⟩ }

variable (hc : Custody out d) (h : Underway out d)
include hc h

theorem move (hp : d.parent? node = some parent) (k : Nat) :
    Custody (out ++ [node]) (detachMoved d k node parent) := by
  have w := h.wellFormed
  have hrem := removed_detachMoved w k node parent
  have hmark := h.mark_move (k := k) hp
  have hplaceholders :=
    placeholders_detachMoved (k := k) w hp (h.recorded parent (w.parent_lt hp))
  have hparent {p : NodeId} : (detachMoved d k node parent).parent? p =
      if p = node then none else d.parent? p := by
    simpa using hrem.parent? p
  refine hc.keep (s := d.size) (fun q hm ↦ Nat.lt_irrefl _ (hc.detached q _ hm).2.2.1)
    hplaceholders ?_ (.inr (by rw [hmark, if_pos rfl])) (fun q p hq ↦ ?_) fun p hm ↦ ?_
  · -- the stand-in is new
    have hne : d.size ≠ node := Nat.ne_of_gt (lt_size_of_parent? hp)
    rw [hparent, if_neg hne, parent?_of_size_le (Nat.le_refl _), size_detachMoved, List.mem_append,
      List.mem_singleton]
    exact ⟨rfl, Nat.ne_of_gt w.root_lt, Nat.lt_succ_self _, fun ho ↦
      ho.elim (fun ho ↦ Nat.lt_irrefl _ (h.waiting _ ho).2.2) hne⟩
  · obtain ⟨htop, -, hlt, hout⟩ := hc.detached q p hq
    have hne : p ≠ node := by
      rintro rfl
      exact hc.not_mem_placeholders hp q hq
    rw [hparent, htop, ite_self, size_detachMoved, List.mem_append, List.mem_singleton, hmark,
      if_neg (Nat.ne_of_lt hlt), if_neg hne]
    exact ⟨⟨rfl, Nat.lt_succ_of_lt hlt, fun ho ↦ ho.elim hout hne⟩, .inr rfl⟩
  · rw [hmark] at hm
    rw [hrem.children, hplaceholders]
    split at hm
    · next hps =>
      rw [hps, children_of_size_le (Nat.le_refl _), if_neg (Nat.ne_of_gt (w.parent_lt hp)),
        placeholders_of_size_le (Nat.le_refl _)]
      exact ⟨rfl, rfl, .inl rfl⟩
    · split at hm
      · cases hm
      · obtain ⟨hch, hpl⟩ := hc.bare p hm
        rw [hch, if_neg (hc.ne_of_parent w hp hm), hpl]
        exact ⟨rfl, rfl, .inr hm⟩

theorem delete (hp : d.parent? node = some parent) : Custody out (deleteAt d node parent) := by
  have w := h.wellFormed
  have hnode := lt_size_of_parent? hp
  have hrem : Removed [node] d (deleteAt d node parent) := removed_deletion w hnode parent
  have hmark := h.mark_delete hp
  have hplaceholders := placeholders_deleteAt w hp (h.recorded parent (w.parent_lt hp))
  have hparent {p : NodeId} : (deleteAt d node parent).parent? p =
      if p = node then none else d.parent? p := by
    simpa using hrem.parent? p
  refine hc.keep (hc.not_mem_placeholders hp) hplaceholders ?_ (.inl ?_) (fun q p hq ↦ ?_)
    fun p hm ↦ ?_
  · rw [hparent, if_pos rfl, size_deleteAt]
    refine ⟨rfl, w.child_ne_root hp, hnode, fun ho ↦ ?_⟩
    rw [(h.waiting node ho).1] at hp
    cases hp
  · rw [hmark, if_pos ((w.mem_preorder hnode).2 .refl)]
  · obtain ⟨htop, -, hlt, hout⟩ := hc.detached q p hq
    rw [hparent, htop, ite_self, size_deleteAt, hmark]
    refine ⟨⟨rfl, hlt, hout⟩, ?_⟩
    split
    · exact .inl rfl
    · exact .inr rfl
  · rw [hmark] at hm
    split at hm
    · cases hm
    · obtain ⟨hch, hpl⟩ := hc.bare p hm
      rw [hrem.children, hch, hplaceholders, if_neg (hc.ne_of_parent w hp hm), hpl]
      exact ⟨rfl, rfl, .inr hm⟩

end Custody

theorem Custody.attach (hc : Custody (z :: out) d) (h : Attachable out d p i z) :
    Custody out (d.insertChild p i z) := by
  have w := h.underway.wellFormed
  have hp := w.live_lt h.live
  have hlt := (h.underway.waiting z List.mem_cons_self).2.2
  have hdata := sameData_insertChild d p i z
  exact {
    detached q x hx := by
      obtain ⟨htop, hr, hxd, hout⟩ := hc.detached q x (hdata.placeholders q ▸ hx)
      rw [List.mem_cons, not_or] at hout
      rw [parent?_insertChild hp hlt, if_neg hout.1, size_insertChild]
      exact ⟨htop, hr, hxd, hout.2⟩
    gone q x hx := by
      rw [hdata.mark]
      exact hc.gone q x (hdata.placeholders q ▸ hx)
    unique q q' x := by
      rw [hdata.placeholders, hdata.placeholders]
      exact hc.unique q q' x
    distinct q := by
      rw [hdata.placeholders]
      exact hc.distinct q
    bare x hm := by
      rw [hdata.mark] at hm
      obtain ⟨hch, hpl⟩ := hc.bare x hm
      -- a stand-in is not live
      have hne : x ≠ p := by
        rintro rfl
        obtain ⟨q, hq⟩ := hc.kept x hm
        obtain ⟨htop, hr, -⟩ := hc.detached q x hq
        exact hr (above_of_top htop (w.mem_live.1 h.live)).symm
      rw [children_insertChild hp hlt, if_neg hne, hdata.placeholders]
      exact ⟨hch, hpl⟩
    kept x hm := by
      rw [hdata.mark] at hm
      obtain ⟨q, hq⟩ := hc.kept x hm
      exact ⟨q, by rwa [hdata.placeholders]⟩ }

end FlowMerge.Script
