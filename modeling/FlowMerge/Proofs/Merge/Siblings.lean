import FlowMerge.Proofs.Merge.Edited
import FlowMerge.Proofs.Merge.Targets

namespace FlowMerge.Merge

open FlowMerge.Tree

variable {source u u' : Tree} {ok : NodeId → Bool} {g k : NodeId → Option NodeId}
  {m : Merge} {a b p q s t ps tp : NodeId} {i : Nat}

/-- Among the children of `q` those that stand for source nodes along `g` are the children of `p`
that are `ok`, in their order. -/
def Lined (source : Tree) (ok : NodeId → Bool) (g : NodeId → Option NodeId) (u : Tree)
    (p q : NodeId) : Prop :=
  (u.children q).filterMap g = (source.children p).filter ok

theorem Lined.exists_child (h : Lined source ok g u p q) (hs : s ∈ source.children p)
    (hok : ok s = true) : ∃ t ∈ u.children q, g t = some s := by
  have hmem : s ∈ (u.children q).filterMap g := h ▸ List.mem_filter.2 ⟨hs, hok⟩
  exact List.mem_filterMap.1 hmem

theorem filterMap_leave (l : List NodeId) (ha : g a = none) :
    (l.filter (· != a)).filterMap g = l.filterMap g := by
  rw [List.filterMap_filter]
  refine List.filterMap_congr fun x _ ↦ ?_
  by_cases hx : x = a
  · rw [hx, ha]
    exact ite_self none
  · rw [if_pos (bne_iff_ne.2 hx)]

theorem getLast?_take_targetIndex (hm : m.source = source) (w : m.target.WellFormed)
    (ws : source.WellFormed) (hs : source.parent? s = some ps)
    (hearlier : ∀ b, source.parent? b = some ps → source.position b < source.position s →
      ∃ t, m.matching.old? b = some t ∧ m.target.parent? t = some tp ∧ g t = some b) :
    (((m.target.children tp).take (m.targetIndex s tp)).filterMap g).getLast? =
      ((source.children ps).take (source.position s)).getLast? := by
  subst hm
  have hlt {b : NodeId} (hb : b ∈ (m.source.children ps).take (m.source.position s)) :
      m.source.parent? b = some ps ∧ m.source.position b < m.source.position s := by
    obtain ⟨j, hj, rfl⟩ := List.mem_take_iff_getElem.1 hb
    obtain ⟨hp, hpos⟩ := (ws.linked ps _ j).1 (List.getElem?_eq_getElem (by omega))
    exact ⟨hp, by omega⟩
  unfold targetIndex
  rw [hs]
  dsimp only
  generalize (m.source.children ps).take (m.source.position s) = pre at hlt
  rcases List.eq_nil_or_concat' pre with rfl | ⟨pre, b, rfl⟩
  · rfl
  · obtain ⟨hb, hpos⟩ := hlt (List.mem_append_right pre List.mem_cons_self)
    obtain ⟨t, hbt, htp, hgt⟩ := hearlier b hb hpos
    have hcounterpart : m.counterpart? b = some t := hbt
    rw [List.reverse_concat, List.filterMap_cons_some hcounterpart,
      List.find?_cons_of_pos (by rw [htp]; exact beq_self_eq_true _)]
    dsimp only
    rw [List.take_add_one, w.getElem?_position htp, List.filterMap_append, Option.toList_some,
      List.filterMap_cons_some hgt, List.filterMap_nil, List.getLast?_concat,
      List.getLast?_concat]

/-- Siblings stay in line when one more takes its place, right after what stands for its nearest
earlier sibling. -/
theorem Lined.insert (ws : source.WellFormed) (h : Lined source ok g u p q)
    (hchildren : ∀ x, u'.children x = if x = tp then
      ((u.children tp).filter (· != a)).insertIdx i a else (u.children x).filter (· != a))
    (hs : source.parent? s = some ps) (hok : ok s = false)
    (hearlier : ∀ b, source.parent? b = some ps → source.position b < source.position s →
      ok b = true)
    (hka : k a = some s) (hga : g a = none) (hkg : ∀ x ≠ a, k x = g x)
    (hi : i ≤ ((u.children tp).filter (· != a)).length)
    (hlast : ((((u.children tp).filter (· != a)).take i).filterMap g).getLast? =
      ((source.children ps).take (source.position s)).getLast?) (hpq : q = tp ↔ p = ps) :
    Lined source (fun x ↦ ok x || x == s) k u' p q := by
  have hrest (l : List NodeId) : ∀ x ∈ l.filter (· != a), k x = g x := fun x hx ↦
    hkg x (bne_iff_ne.1 (List.mem_filter.1 hx).2)
  have hleave := filterMap_leave (g := g) (u.children q) hga
  rw [Lined] at h ⊢
  rw [hchildren]
  by_cases hq : q = tp
  · obtain rfl := hpq.1 hq
    subst hq
    obtain ⟨hbefore, hafter⟩ := filter_split (q := ok) (ws.nodup_children p)
      (ws.getElem?_position hs) (fun j hj b hb ↦ by
        obtain ⟨hbp, rfl⟩ := (ws.linked p b j).1 hb
        exact hearlier b hbp hj) hok
    rw [h, hbefore] at hleave
    have hnodup : ((source.children p).filter ok).Nodup := (ws.nodup_children p).filter _
    rw [← List.take_append_drop i ((u.children q).filter (· != a)), List.filterMap_append]
      at hleave
    rw [hbefore, ← hleave] at hnodup
    obtain ⟨htake, hdrop⟩ := append_inj_of_getLast? hnodup hleave hlast
    rw [if_pos rfl, filterMap_insertIdx hi hka (hrest _), htake, hdrop, hafter]
  · have hps : p ≠ ps := fun he ↦ hq (hpq.2 he)
    rw [if_neg hq, List.filterMap_congr (hrest _), hleave, h]
    refine List.filter_congr fun c hc ↦ ?_
    have hcs : c ≠ s := by
      rintro rfl
      exact hps (Option.some_inj.1 ((ws.mem_children.1 hc).symm.trans hs))
    rw [beq_false_of_ne hcs, Bool.or_false]

end FlowMerge.Merge
