import FlowMerge.Proofs.Script.Account
import FlowMerge.Proofs.Script.RoundTrip

namespace FlowMerge.Script

open FlowMerge.Tree
open Merge (base?)

variable {old new t d : Tree} {m : Matching} {c : Change} {n x : NodeId}

theorem wellFormed_payload (wn : new.WellFormed) (hc : c ∈ ofMatching old new m) {u : Tree}
    (hu : c.payload = some u) : u.WellFormed := by
  rw [ofMatching_eq wn, List.mem_append, List.mem_flatMap, List.mem_flatMap] at hc
  rcases hc with ⟨n, hn, hc⟩ | ⟨o, -, hc⟩
  · have hnode : (new.nodeCopy n).WellFormed := wellFormed_rootedAt _ _
    rw [additionsAt] at hc
    split at hc
    · rw [List.mem_append, moveOf, updateOf] at hc
      rcases hc with hc | hc
      · split at hc
        · rw [List.mem_singleton.1 hc] at hu
          cases hu
        · cases hc
      · split at hc
        · cases hc
        · rw [List.mem_singleton.1 hc] at hu
          exact Option.some_inj.1 hu ▸ hnode
    · split at hc <;> rw [List.mem_singleton.1 hc] at hu
      · have hlt := wn.live_lt ((new.pruned_sublist _).subset hn)
        obtain ⟨g, -, hg⟩ := grafted_subtreeCopy wn hlt
        exact Option.some_inj.1 hu ▸ hg.wellFormed
      · exact Option.some_inj.1 hu ▸ hnode
  · rw [removalsAt] at hc
    split at hc
    · cases hc
    · split at hc <;> rw [List.mem_singleton.1 hc] at hu <;> cases hu

theorem annotated_foldl (w : t.WellFormed) (ut : t.Unambiguous) (steps : List Step)
    (hlabel : ∀ s ∈ steps, ∀ e ∈ s.1.updates, e.1 = Content.labelKey → e.2.new ≠ none) :
    Annotated t.live.length (pristine t).content (steps.foldl applyUpdate (pristine t)) := by
  have hstart : Annotated t.live.length (pristine t).content (pristine t) := by
    intro x hx
    obtain ⟨o, ho, rfl⟩ := w.exists_place hx
    obtain ⟨i, hi⟩ := (pristine_spec w).2.2 _ (place_lt ho)
    refine ⟨_, hi, rfl, Delta.exact_blank ?_ rfl rfl⟩
    rw [content_pristine w ho]
    exact ut o ho
  exact Noted.foldl hstart steps fun x y c s hs e he ⟨hb, hy⟩ ↦
    ⟨(y.base_record ..).trans hb, hy.record (hlabel s hs e he)⟩

/-- What is recorded on the nodes of the old tree is exact after a derived script. -/
theorem annotated_patch (wo : old.WellFormed) (wn : new.WellFormed) (uo : old.Unambiguous)
    (un : new.Unambiguous) (h : m.OneToOne) (hd : patch old (derive old new m) = .ok d) :
    Annotated old.live.length (pristine old).content d ∧
      ∀ x, base? d x = if x < old.live.length then some x else none := by
  have hm := clean_clean wo wn h
  obtain ⟨hp, hs⟩ := placing_of_patch wo (fun c hc u ↦ wellFormed_payload wn hc) hd
  exact ⟨(annotated_foldl wo uo _ (updates_label wo wn hm uo un)).steady hs, hp.base⟩

/-- What is recorded on the nodes of the old tree leads back to what they were, whatever their
keys. -/
theorem departed_patch (wo : old.WellFormed) (wn : new.WellFormed)
    (hd : patch old (derive old new m) = .ok d) :
    Departed old.live.length (pristine old).content d := by
  have hs := (placing_of_patch wo (fun c hc u ↦ wellFormed_payload wn hc) hd).2
  have hstart : Departed old.live.length (pristine old).content (pristine old) := by
    intro x hx
    obtain ⟨i, hi⟩ := (pristine_spec wo).2.2 x hx
    exact ⟨_, hi, .nil _⟩
  have hfields := Noted.foldl hstart (aimed (pristine old) (derive old new m))
    fun x y c s _ e _ hy ↦ hy.record e.1 e.2.new
  exact Departed.steady hfields hs

end FlowMerge.Script
