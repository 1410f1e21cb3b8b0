import FlowMerge.Proofs.Script.Phases

namespace FlowMerge

open Content

variable {k : String} {v : Option String}

namespace Content

variable {c d : Content}

theorem setField_labelKey_none (c : Content) : c.setField labelKey none = c := by
  rw [setField, if_neg textKey_ne_labelKey.symm, if_pos rfl]

theorem field_setField_of_ne (c : Content) (v : Option String) {k' : String} (h : k' ≠ k) :
    (c.setField k v).field k' = c.field k' := by
  by_cases hn : k = labelKey ∧ v = none
  · rw [hn.1, hn.2, setField_labelKey_none]
  · rw [field_setField c fun hk hv ↦ hn ⟨hk, hv⟩, if_neg h]

end Content

/-- The content `d` came out of `c`, and `us` holds the first value of each field in which they may
differ. -/
structure Updates.Remembers (us : Updates) (c d : Content) : Prop where
  old : ∀ e ∈ us, e.2.old = c.field e.1
  other : ∀ k, k ∉ us.map Prod.fst → d.field k = c.field k
  textAttr : d.attr? textKey = c.attr? textKey
  labelAttr : d.attr? labelKey = c.attr? labelKey

namespace Updates

variable {us : Updates} {c d : Content}

theorem mem_insert {e : String × Update} {u : Update} (h : e ∈ us.insert k u) :
    e = (k, u) ∨ e ∈ us := by
  induction us with
  | nil => exact .inl (List.mem_singleton.1 h)
  | cons x us ih =>
    rw [insert] at h
    split at h
    · exact List.mem_cons.1 h
    · split at h
      · exact (List.mem_cons.1 h).imp_right (List.mem_cons_of_mem x)
      · rcases List.mem_cons.1 h with rfl | h
        · exact .inr List.mem_cons_self
        · exact (ih h).imp_right (List.mem_cons_of_mem x)

theorem keys_insert (us : Updates) (k : String) (u : Update) {k' : String} :
    k' ∈ (us.insert k u).map Prod.fst ↔ k' = k ∨ k' ∈ us.map Prod.fst := by
  induction us with
  | nil => simp [insert]
  | cons x us ih =>
    rw [insert]
    split
    · simp
    · split
      · next hk => simp [hk]
      · rw [List.map_cons, List.mem_cons, ih, List.map_cons, List.mem_cons, or_left_comm]

theorem keys_erase (us : Updates) (k : String) {k' : String} :
    k' ∈ (us.erase k).map Prod.fst ↔ k' ≠ k ∧ k' ∈ us.map Prod.fst := by
  rw [erase, List.mem_map, List.mem_map]
  constructor
  · rintro ⟨e, he, rfl⟩
    obtain ⟨he, hne⟩ := List.mem_filter.1 he
    exact ⟨bne_iff_ne.1 hne, e, he, rfl⟩
  · rintro ⟨hne, e, he, rfl⟩
    exact ⟨e, List.mem_filter.2 ⟨he, bne_iff_ne.2 hne⟩, rfl⟩

namespace Remembers

theorem nil (c : Content) : Remembers [] c c :=
  ⟨fun _ he ↦ absurd he List.not_mem_nil, fun _ _ ↦ rfl, rfl, rfl⟩

variable {y : Delta}

theorem joined_old (h : y.updates.Remembers c d) (k : String) (v : Option String) :
    y.joined k ⟨d.field k, v⟩ = ⟨c.field k, v⟩ := by
  rw [Delta.joined, get?]
  cases hf : y.updates.find? fun e ↦ e.1 == k with
  | some e =>
    have hk : e.1 = k := by simpa using List.find?_some hf
    simp only [Option.map_some, h.old e (List.mem_of_find?_eq_some hf), hk]
  | none =>
    have hnot : k ∉ y.updates.map Prod.fst := by
      intro hm
      obtain ⟨e, he, rfl⟩ := List.mem_map.1 hm
      exact List.find?_eq_none.1 hf e he (beq_self_eq_true e.1)
    simp only [Option.map_none, h.other k hnot]

/-- A further change is recorded with the first value of its field, or forgotten when it leads back
there. -/
theorem record (h : y.updates.Remembers c d) (k : String) (v : Option String) :
    (y.record k ⟨d.field k, v⟩).updates.Remembers c (d.setField k v) := by
  obtain ⟨m, hm⟩ := y.record_eq k ⟨d.field k, v⟩
  have hkeys := comparable_setField d k v
  rw [hm]
  refine ⟨fun e he ↦ ?_, fun k' hk' ↦ ?_, hkeys.text.trans h.textAttr,
    hkeys.label.trans h.labelAttr⟩
  · have herase (he : e ∈ y.updates.erase k) : e.2.old = c.field e.1 :=
      h.old e (List.mem_filter.1 he).1
    dsimp only at he
    rw [Delta.updatesAfter, h.joined_old] at he
    split at he
    · exact herase he
    · rcases mem_insert he with rfl | he
      · rfl
      · exact herase he
  · dsimp only at hk'
    rw [Delta.updatesAfter, h.joined_old] at hk'
    split at hk'
    · next hback =>
      -- the value is the first one again, so that the entry is dropped
      dsimp only at hback
      rw [keys_erase, not_and] at hk'
      by_cases hkk : k' = k
      · subst hkk
        rw [field_setField d, if_pos rfl, hback]
        intro hkl hv
        rw [hkl, hv, field_labelKey] at hback
        cases hback
      · rw [field_setField_of_ne d v hkk]
        exact h.other k' (hk' hkk)
    · rw [keys_insert, keys_erase, not_or, not_and] at hk'
      rw [field_setField_of_ne d v hk'.1]
      exact h.other k' (hk'.2 hk'.1)

theorem same_revert (h : us.Remembers c d) : (Script.revert d us == c) = true := by
  have hfold : Script.revert d us =
      (us.map fun e ↦ (e.1, ⟨e.2.new, e.2.old⟩)).foldl (fun c (e : String × Update) ↦
        c.setField e.1 e.2.new) d := by
    rw [List.foldl_map]
    rfl
  have hback : ∀ e ∈ us.map fun e ↦ (e.1, (⟨e.2.new, e.2.old⟩ : Update)),
      e.2.new = c.field e.1 := by
    intro e he
    obtain ⟨e', he', rfl⟩ := List.mem_map.1 he
    exact h.old e' he'
  obtain ⟨hkeys, hfield⟩ := field_foldl (g := id) (z := d)
    (f := fun c (e : String × Update) ↦ c.setField e.1 e.2.new) (P := fun z ↦ Comparable z c)
    (fun z hz e he ↦ ⟨(comparable_setField z _ _).trans hz, field_setField z he⟩)
    hback ⟨h.textAttr, h.labelAttr⟩
  rw [hfold]
  refine same_of_fields hkeys fun k ↦ (hfield k).trans ?_
  rw [List.map_map]
  split
  · rfl
  · next hk => exact h.other k hk

end Remembers

end Updates

namespace Script

open FlowMerge.Tree

variable {u : Tree} {n : Nat} {P : NodeId → Delta → Content → Prop}

def Noted (n : Nat) (P : NodeId → Delta → Content → Prop) (u : Tree) : Prop :=
  ∀ x < n, ∃ y, u.delta? x = some y ∧ P x y (u.content x)

theorem Noted.updateField (h : Noted n P u) (node : NodeId) (e : String × Update)
    (step : node < n → ∀ y c, P node y c →
      P node (y.record e.1 ⟨c.field e.1, e.2.new⟩) (c.setField e.1 e.2.new)) :
    Noted n P (updateField node u e) := by
  intro x hx
  obtain ⟨y, hy, hP⟩ := h x hx
  rw [delta?_updateField, content_updateField, hy]
  by_cases hn : x = node
  · subst hn
    rw [if_pos rfl, if_pos ⟨rfl, lt_size_of_delta? hy⟩]
    exact ⟨_, rfl, step hx y _ hP⟩
  · rw [if_neg hn, if_neg fun hn' ↦ hn hn'.1]
    exact ⟨y, rfl, hP⟩

theorem Noted.foldl (h : Noted n P u) (steps : List Step)
    (step : ∀ x y c, ∀ s ∈ steps, ∀ e ∈ s.1.updates, P x y c →
      P x (y.record e.1 ⟨c.field e.1, e.2.new⟩) (c.setField e.1 e.2.new)) :
    Noted n P (steps.foldl applyUpdate u) := by
  refine List.foldlRecOn steps applyUpdate h fun u hu s hs ↦ ?_
  by_cases hk : s.1.kind = .update ∧ ∃ node, s.2 = some node
  · obtain ⟨hk, node, hn⟩ := hk
    rw [applyUpdate_of_update hk hn]
    exact List.foldlRecOn s.1.updates _ hu fun u' hu' e he ↦
      hu'.updateField node e fun _ y c ↦ step node y c s hs e he
  · rwa [applyUpdate_of_not hk]

end Script

end FlowMerge
