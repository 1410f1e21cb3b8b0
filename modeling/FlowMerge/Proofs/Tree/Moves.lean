import FlowMerge.Proofs.Tree.Walks

namespace FlowMerge.Tree

variable {t : Tree} {p c x a b : NodeId} {i : Nat}

namespace WellFormed

/-- Detaching a node takes it out of every line that passes through it from above. -/
theorem above_detach (w : t.WellFormed) :
    (t.detach c).Above a b ↔ t.Above a b ∧ (t.Above c b → t.Above c a) := by
  induction b using w.up_induction with
  | h b ih =>
    rw [above_iff (t := t.detach c), w.parent?_detach, above_iff (t := t) (a := a) (c := b)]
    by_cases hb : b = c
    · subst hb
      simp only [if_true, reduceCtorEq, false_and, exists_false, or_false]
      constructor
      · rintro rfl
        exact ⟨.inl rfl, id⟩
      · rintro ⟨rfl | ⟨p, hp, ha⟩, h⟩
        · rfl
        · exact absurd ((h .refl).trans ha) (w.not_above_of_parent hp)
    · rw [if_neg hb]
      cases hp : t.parent? b with
      | none =>
        simp only [reduceCtorEq, false_and, exists_false, or_false]
        constructor
        · rintro rfl
          exact ⟨rfl, id⟩
        · exact And.left
      | some p =>
        -- `b` is not the node that was detached, so that it is below it just if its parent is
        have hcb : t.Above c b ↔ t.Above c p := by
          rw [above_iff, hp]
          constructor
          · rintro (rfl | ⟨q, hq, hc⟩)
            · exact absurd rfl hb
            · exact Option.some_inj.1 hq ▸ hc
          · exact fun hc ↦ .inr ⟨p, rfl, hc⟩
        simp only [Option.some_inj, exists_eq_left', ih p hp, hcb]
        constructor
        · rintro (rfl | ⟨h, h'⟩)
          · exact ⟨.inl rfl, hcb.2⟩
          · exact ⟨.inr h, h'⟩
        · rintro ⟨rfl | h, h'⟩
          · exact .inl rfl
          · exact .inr ⟨h, h'⟩

theorem mem_live_detach (w : t.WellFormed) (hc : c ≠ root) :
    x ∈ (t.detach c).live ↔ x ∈ t.live ∧ ¬ t.Above c x := by
  rw [(w.detach c).mem_live, w.above_detach, w.mem_live]
  refine and_congr_right fun _ ↦ ⟨fun h hcx ↦ hc ?_, fun h hcx ↦ absurd hcx h⟩
  exact above_of_top w.root_top (h hcx)

theorem above_insertChild (hp : p < t.size) (hc : c < t.size) (top : t.parent? c = none) :
    (t.insertChild p i c).Above a b ↔ t.Above a b ∨ (t.Above a p ∧ t.Above c b) := by
  have hmono {d e : NodeId} (h : t.Above d e) : (t.insertChild p i c).Above d e := by
    refine Relation.ReflTransGen.mono (fun q x hq ↦ ?_) _ _ h
    rw [IsParent, parent?_insertChild hp hc, if_neg, hq]
    rintro rfl
    rw [IsParent, top] at hq
    cases hq
  have hedge : (t.insertChild p i c).IsParent p c := by
    rw [IsParent, parent?_insertChild hp hc, if_pos rfl]
  constructor
  · intro h
    induction h with
    | refl => exact .inl .refl
    | @tail q d _ hq ih =>
      rw [IsParent, parent?_insertChild hp hc] at hq
      split at hq
      · next hd =>
        obtain rfl := Option.some_inj.1 hq
        exact .inr ⟨ih.elim id And.left, hd ▸ .refl⟩
      · exact ih.imp (·.tail hq) (And.imp_right (·.tail hq))
  · rintro (h | ⟨h, h'⟩)
    · exact hmono h
    · exact ((hmono h).tail hedge).trans (hmono h')

theorem not_above_of_live (w : t.WellFormed) (hp : p ∈ t.live) (hr : c ≠ root)
    (top : t.parent? c = none) : ¬ t.Above c p := by
  intro h
  rcases above_total h (w.mem_live.1 hp) with h | h
  · exact hr (above_of_top w.root_top h)
  · exact hr (above_of_top top h).symm

theorem mem_live_insertChild (w : t.WellFormed) (hp : p ∈ t.live) (hc : c < t.size)
    (hr : c ≠ root) (top : t.parent? c = none) (hi : i ≤ (t.children p).length) :
    x ∈ (t.insertChild p i c).live ↔ x ∈ t.live ∨ t.Above c x := by
  rw [(w.insertChild (w.live_lt hp) hc hr top (w.not_above_of_live hp hr top) hi).mem_live,
    above_insertChild (w.live_lt hp) hc top, w.mem_live]
  simp only [w.mem_live.1 hp, true_and]

/-- A live node that moves below another live one stays live with all others. -/
theorem mem_live_move (w : t.WellFormed) (hc : c ∈ t.live) (hr : c ≠ root) (hp : p ∈ t.live)
    (hcp : ¬ t.Above c p) (hi : i ≤ ((t.detach c).children p).length) :
    x ∈ ((t.detach c).insertChild p i c).live ↔ x ∈ t.live := by
  have htop : (t.detach c).parent? c = none := by rw [w.parent?_detach, if_pos rfl]
  rw [(w.detach c).mem_live_insertChild ((w.mem_live_detach hr).2 ⟨hp, hcp⟩)
    (by rw [size_detach]; exact w.live_lt hc) hr htop hi, w.mem_live_detach hr, w.above_detach]
  constructor
  · rintro (h | ⟨h, -⟩)
    · exact h.1
    · exact w.mem_live.2 ((w.mem_live.1 hc).trans h)
  · intro h
    by_cases hcx : t.Above c x
    · exact .inr ⟨hcx, fun _ ↦ .refl⟩
    · exact .inl ⟨h, hcx⟩

end WellFormed

end FlowMerge.Tree
