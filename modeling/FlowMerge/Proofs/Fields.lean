import FlowMerge.Overlay
import Mathlib.Data.List.Perm.Subperm

namespace FlowMerge

variable {α : Type} {k k' : String}

theorem find?_key_eq_some {l : List (String × α)} (hn : (l.map Prod.fst).Nodup) {v : α} :
    (l.find? fun e ↦ e.1 == k).map Prod.snd = some v ↔ (k, v) ∈ l := by
  induction l with
  | nil => simp
  | cons e l ih =>
    rw [List.map_cons, List.nodup_cons] at hn
    rw [List.find?_cons, List.mem_cons]
    by_cases he : e.1 = k
    · simp only [he, beq_self_eq_true, Option.map_some, Option.some_inj]
      constructor
      · rintro rfl
        exact .inl (Prod.ext he.symm rfl)
      · rintro (h | h)
        · rw [← h]
        · exact absurd (List.mem_map.2 ⟨_, h, he.symm⟩) hn.1
    · rw [beq_false_of_ne he]
      simp only [ih hn.2]
      constructor
      · exact .inr
      · rintro (rfl | h)
        · exact absurd rfl he
        · exact h

theorem find?_key_eq_none {l : List (String × α)} :
    (l.find? fun e ↦ e.1 == k).map Prod.snd = none ↔ k ∉ l.map Prod.fst := by
  rw [Option.map_eq_none_iff, List.find?_eq_none, List.mem_map]
  constructor
  · rintro h ⟨e, he, rfl⟩
    exact h e he (beq_self_eq_true e.1)
  · intro h e he hk
    exact h ⟨e, he, beq_iff_eq.1 hk⟩

namespace Attributes

variable {a b : Attributes} {v : String}

theorem get?_eq_some : a.get? k = some v ↔ (k, v) ∈ a.entries := find?_key_eq_some a.distinct

theorem get?_eq_none : a.get? k = none ↔ k ∉ a.names := find?_key_eq_none

theorem get?_insert (a : Attributes) (k v k' : String) :
    (a.insert k v).get? k' = if k' = k then some v else a.get? k' := by
  -- keys are distinct, so that it is enough to say which entries there are
  have hmap (x : String) (h : (k', x) ∈ (a.insert k v).entries) :
      if k' = k then x = v else (k', x) ∈ a.entries := by
    rw [insert] at h
    split at h
    · obtain ⟨e, he, hx⟩ := List.mem_map.1 h
      rw [put] at hx
      split at hx
      · cases hx; simp
      · next hne => cases hx; rw [if_neg hne]; exact he
    · next hk =>
      rcases List.mem_append.1 h with hm | hm
      · rw [if_neg]
        · exact hm
        · rintro rfl
          exact hk (List.mem_map_of_mem (f := Prod.fst) hm)
      · cases List.mem_singleton.1 hm
        simp
  have hmem (x : String) (h : if k' = k then x = v else (k', x) ∈ a.entries) :
      (k', x) ∈ (a.insert k v).entries := by
    rw [insert]
    split
    · next hk =>
      split at h
      · next he =>
        subst he h
        obtain ⟨e, he, hek⟩ := List.mem_map.1 hk
        exact List.mem_map.2 ⟨e, he, by rw [put, if_pos hek]⟩
      · next hne => exact List.mem_map.2 ⟨_, h, by rw [put, if_neg hne]⟩
    · split at h
      · next he => subst he h; exact List.mem_append_right _ (List.mem_singleton.2 rfl)
      · exact List.mem_append_left _ h
  refine Option.ext fun x ↦ ?_
  rw [get?_eq_some]
  refine ⟨fun h ↦ ?_, fun h ↦ hmem x ?_⟩
  · have := hmap x h
    split at this
    · next he => rw [if_pos he, this]
    · next he => rw [if_neg he, get?_eq_some]; exact this
  · split at h
    · next he => rw [if_pos he]; exact (Option.some_inj.1 h).symm
    · next he => rw [if_neg he]; exact get?_eq_some.1 h

theorem get?_erase (a : Attributes) (k k' : String) :
    (a.erase k).get? k' = if k' = k then none else a.get? k' := by
  refine Option.ext fun x ↦ ?_
  rw [get?_eq_some, erase, List.mem_filter, bne_iff_ne]
  split
  · next h => simp [h]
  · next h => rw [get?_eq_some]; simp [h]

theorem length_names (a : Attributes) : a.names.length = a.entries.length := List.length_map _

theorem same_iff : (a == b) = true ↔ ∀ k, a.get? k = b.get? k := by
  show a.same b = true ↔ _
  rw [same, Bool.and_eq_true, beq_iff_eq, List.all_eq_true]
  have hsub (c d : Attributes) (h : ∀ k v, c.get? k = some v → d.get? k = some v) :
      c.names ⊆ d.names := by
    intro k hk
    obtain ⟨e, he, rfl⟩ := List.mem_map.1 hk
    exact List.mem_map.2 ⟨_, get?_eq_some.1 (h _ _ (get?_eq_some.2 he)), rfl⟩
  constructor
  · rintro ⟨hlen, hall⟩
    have hle (k v : String) (h : a.get? k = some v) : b.get? k = some v :=
      beq_iff_eq.1 (hall _ (get?_eq_some.1 h))
    have hperm : a.names.Perm b.names := by
      refine (a.distinct.subperm (hsub a b hle)).perm_of_length_le ?_
      rw [length_names, ← hlen]
      exact Nat.le_of_eq (length_names a).symm
    intro k
    cases h : a.get? k with
    | some v => exact (hle k v h).symm
    | none =>
      rw [get?_eq_none] at h
      exact (get?_eq_none.2 fun hb ↦ h (hperm.mem_iff.2 hb)).symm
  · intro h
    refine ⟨?_, fun e he ↦ ?_⟩
    · have h₁ := (a.distinct.subperm (hsub a b fun k v hv ↦ (h k).symm.trans hv)).length_le
      have h₂ := (b.distinct.subperm (hsub b a fun k v hv ↦ (h k).trans hv)).length_le
      rw [length_names] at h₁ h₂
      rw [List.length_map] at h₁ h₂
      omega
    · rw [beq_iff_eq, ← h]
      exact get?_eq_some.2 he

end Attributes

namespace Content

variable {c d e : Content} {v : Option String}

theorem same_iff : (c == d) = true ↔
    c.label = d.label ∧ (∀ k, c.attr? k = d.attr? k) ∧ c.text = d.text := by
  have h : (c == d) = (c.label == d.label && (c.attributes == d.attributes && c.text == d.text)) :=
    rfl
  rw [h, Bool.and_eq_true, Bool.and_eq_true, Attributes.same_iff, beq_iff_eq, beq_iff_eq]
  rfl

theorem same_refl (c : Content) : (c == c) = true := same_iff.2 ⟨rfl, fun _ ↦ rfl, rfl⟩

theorem same_symm (h : (c == d) = true) : (d == c) = true := by
  rw [same_iff] at h ⊢
  exact ⟨h.1.symm, fun k ↦ (h.2.1 k).symm, h.2.2.symm⟩

theorem same_trans (h : (c == d) = true) (h' : (d == e) = true) : (c == e) = true := by
  rw [same_iff] at h h' ⊢
  exact ⟨h.1.trans h'.1, fun k ↦ (h.2.1 k).trans (h'.2.1 k), h.2.2.trans h'.2.2⟩

structure Unambiguous (c : Content) : Prop where
  text : c.attr? textKey = none
  label : c.attr? labelKey = none

instance (c : Content) : Decidable c.Unambiguous :=
  decidable_of_iff (c.attr? textKey = none ∧ c.attr? labelKey = none)
    ⟨fun h ↦ ⟨h.1, h.2⟩, fun h ↦ ⟨h.text, h.label⟩⟩

theorem unambiguous_of_same (h : (c == d) = true) (hd : d.Unambiguous) : c.Unambiguous := by
  obtain ⟨-, ha, -⟩ := same_iff.1 h
  exact ⟨(ha textKey).trans hd.text, (ha labelKey).trans hd.label⟩

/-- Two contents hold the same in the attributes that take the key of the text or of the label. -/
structure Comparable (c d : Content) : Prop where
  text : c.attr? textKey = d.attr? textKey
  label : c.attr? labelKey = d.attr? labelKey

theorem Unambiguous.comparable (hc : c.Unambiguous) (hd : d.Unambiguous) : Comparable c d :=
  ⟨hc.text.trans hd.text.symm, hc.label.trans hd.label.symm⟩

theorem Comparable.refl (c : Content) : Comparable c c := ⟨rfl, rfl⟩

theorem Comparable.trans (h : Comparable c d) (h' : Comparable d e) : Comparable c e :=
  ⟨h.text.trans h'.text, h.label.trans h'.label⟩

theorem comparable_of_same (h : (c == d) = true) : Comparable c d :=
  ⟨(same_iff.1 h).2.1 textKey, (same_iff.1 h).2.1 labelKey⟩

theorem textKey_ne_labelKey : textKey ≠ labelKey := by decide

theorem field_textKey (c : Content) : c.field textKey = c.text := if_pos rfl

theorem field_labelKey (c : Content) : c.field labelKey = some c.label := by
  rw [field, if_neg textKey_ne_labelKey.symm, if_pos rfl]

theorem ne_none_of_eq_field {v : Option String} (hv : v = d.field k) (hk : k = labelKey) :
    v ≠ none := by
  rw [hv, hk, field_labelKey]
  exact Option.some_ne_none _

theorem field_of_ne (c : Content) (ht : k ≠ textKey) (hl : k ≠ labelKey) :
    c.field k = c.attr? k := by
  rw [field, if_neg ht, if_neg hl]

/-- Contents with equal fields are the same, if they can be compared by their fields. -/
theorem same_of_fields (hcd : Comparable c d) (h : ∀ k, c.field k = d.field k) :
    (c == d) = true := by
  refine same_iff.2 ⟨?_, fun k ↦ ?_, ?_⟩
  · apply Option.some_inj.1
    rw [← field_labelKey, h, field_labelKey]
  · by_cases hkt : k = textKey
    · rw [hkt, hcd.text]
    · by_cases hkl : k = labelKey
      · rw [hkl, hcd.label]
      · rw [← field_of_ne c hkt hkl, ← field_of_ne d hkt hkl, h]
  · rw [← field_textKey, h, field_textKey]

theorem attr?_setField_of_ne (c : Content) (v : Option String) (ht : k ≠ textKey)
    (hl : k ≠ labelKey) (k' : String) :
    (c.setField k v).attr? k' = if k' = k then v else c.attr? k' := by
  simp only [setField, if_neg ht, if_neg hl]
  cases v with
  | none => exact Attributes.get?_erase ..
  | some v => exact Attributes.get?_insert ..

theorem attr?_setField_textKey (c : Content) (v : Option String) (k' : String) :
    (c.setField textKey v).attr? k' = c.attr? k' := by
  simp only [setField, if_pos]
  rfl

theorem attr?_setField_labelKey (c : Content) (v : Option String) (k' : String) :
    (c.setField labelKey v).attr? k' = c.attr? k' := by
  simp only [setField, if_neg textKey_ne_labelKey.symm, if_pos]
  cases v <;> rfl

/-- No field change touches an attribute that takes the key of the text or of the label. -/
theorem comparable_setField (c : Content) (k : String) (v : Option String) :
    Comparable (c.setField k v) c := by
  by_cases ht : k = textKey
  · rw [ht]
    exact ⟨attr?_setField_textKey c v textKey, attr?_setField_textKey c v labelKey⟩
  · by_cases hl : k = labelKey
    · rw [hl]
      exact ⟨attr?_setField_labelKey c v textKey, attr?_setField_labelKey c v labelKey⟩
    · exact ⟨(attr?_setField_of_ne c v ht hl textKey).trans (if_neg (Ne.symm ht)),
        (attr?_setField_of_ne c v ht hl labelKey).trans (if_neg (Ne.symm hl))⟩

theorem Unambiguous.setField (h : c.Unambiguous) (k : String) (v : Option String) :
    (c.setField k v).Unambiguous :=
  ⟨(comparable_setField c k v).text.trans h.text, (comparable_setField c k v).label.trans h.label⟩

theorem field_setField (c : Content) (hv : k = labelKey → v ≠ none) (k' : String) :
    (c.setField k v).field k' = if k' = k then v else c.field k' := by
  by_cases ht : k = textKey
  · subst ht
    by_cases hk : k' = textKey
    · simp only [hk, field_textKey, setField, if_pos]
    · rw [if_neg hk, field, if_neg hk, field, if_neg hk, attr?_setField_textKey]
      simp only [setField, if_pos]
  · by_cases hl : k = labelKey
    · subst hl
      obtain ⟨l, rfl⟩ := Option.ne_none_iff_exists'.1 (hv rfl)
      have hs : c.setField labelKey (some l) = { c with label := l } := by
        simp only [setField, if_neg ht, if_pos]
      by_cases hk : k' = labelKey
      · rw [hk, if_pos rfl, field_labelKey, hs]
      · rw [if_neg hk, field, field, if_neg hk, if_neg hk, hs]
        rfl
    · by_cases hk : k' = k
      · rw [hk, if_pos rfl, field_of_ne _ ht hl, attr?_setField_of_ne c v ht hl, if_pos rfl]
      · have htext : (c.setField k v).text = c.text := by
          simp only [setField, if_neg ht, if_neg hl]
          cases v <;> rfl
        have hlabel : (c.setField k v).label = c.label := by
          simp only [setField, if_neg ht, if_neg hl]
          cases v <;> rfl
        rw [if_neg hk, field, field, attr?_setField_of_ne c v ht hl, if_neg hk, htext, hlabel]

end Content

namespace Delta

def Settled (d : Delta) : Prop := d.mark = if d.isUpdate then .updated else .unchanged

theorem settled_eq (d : Delta) : ∃ m, d.settled = { d with mark := m } := by
  rw [settled]
  split
  · exact ⟨_, rfl⟩
  · split
    · exact ⟨_, rfl⟩
    · exact ⟨_, rfl⟩

theorem settled_settled {d : Delta} (h : d.mark = .unchanged ∨ d.mark = .updated) :
    d.settled.Settled := by
  rw [settled, Settled]
  split
  · next hu => exact (if_pos hu.2).symm
  · next hu =>
    split
    · next hn => exact (if_neg hn.2).symm
    · next hn =>
      rcases h with h | h
      · rw [if_neg fun hu' ↦ hu ⟨h, hu'⟩, h]
      · rw [if_pos (by_contra fun hn' ↦ hn ⟨h, hn'⟩), h]

def updatesAfter (d : Delta) (k : String) (u : Update) : Updates :=
  if (d.joined k u).old = (d.joined k u).new then d.updates.erase k
  else (d.updates.erase k).insert k (d.joined k u)

theorem record_eq (d : Delta) (k : String) (u : Update) :
    ∃ m, d.record k u = { d with mark := m, updates := d.updatesAfter k u } :=
  settled_eq { d with updates := d.updatesAfter k u }

theorem base_record (d : Delta) (k : String) (u : Update) : (d.record k u).base = d.base := by
  obtain ⟨m, h⟩ := d.record_eq k u
  rw [h]

theorem Settled.record {d : Delta} (h : d.Settled) (k : String) (u : Update) :
    (d.record k u).Settled := by
  refine settled_settled (d := { d with updates := d.updatesAfter k u }) ?_
  rw [Settled] at h
  split at h
  · exact .inr h
  · exact .inl h

end Delta

namespace Updates

theorem insert_perm {u : Update} {us : Updates} (h : k ∉ us.map Prod.fst) :
    (insert k u us).Perm ((k, u) :: us) := by
  induction us with
  | nil => exact .refl _
  | cons e us ih =>
    rw [List.map_cons, List.mem_cons, not_or] at h
    rw [insert]
    split
    · exact .refl _
    · rw [if_neg h.1]
      exact ((ih h.2).cons e).trans (.swap ..)

theorem ofList_perm {es : List (String × Update)} (h : (es.map Prod.fst).Nodup) :
    (ofList es).Perm es := by
  suffices hs : ∀ us : Updates, ((us ++ es).map Prod.fst).Nodup →
      (es.foldl (fun u e ↦ insert e.1 e.2 u) us).Perm (us ++ es) from hs [] h
  clear h
  induction es with
  | nil =>
    intro us _
    rw [List.append_nil]
    exact .refl _
  | cons e es ih =>
    intro us h
    have hmid : (us ++ e :: es).Perm (e :: us ++ es) := List.perm_middle
    have hn := (hmid.map Prod.fst).nodup_iff.1 h
    have hins : (insert e.1 e.2 us).Perm (e :: us) := by
      refine insert_perm fun hm ↦ ?_
      rw [List.cons_append, List.map_cons, List.nodup_cons, List.map_append] at hn
      exact hn.1 (List.mem_append_left _ hm)
    have happ := hins.append_right es
    exact (ih _ ((happ.map Prod.fst).nodup_iff.2 hn)).trans (happ.trans hmid.symm)

def Records (us : Updates) (c d : Content) : Prop :=
  ∀ k u, (k, u) ∈ us ↔ u = ⟨c.field k, d.field k⟩ ∧ c.field k ≠ d.field k

theorem isSome_get? {us : Updates} : (us.get? k).isSome = true ↔ k ∈ us.map Prod.fst := by
  rw [← not_iff_not, Bool.not_eq_true, Option.isSome_eq_false_iff, Option.isNone_iff_eq_none]
  exact find?_key_eq_none

namespace Records

variable {us : Updates} {c d : Content}

theorem new_eq (h : us.Records c d) : ∀ e ∈ us, e.2.new = d.field e.1 :=
  fun e he ↦ congrArg Update.new ((h e.1 e.2).1 he).1

theorem mem_keys (h : us.Records c d) : k ∈ us.map Prod.fst ↔ c.field k ≠ d.field k := by
  constructor
  · intro hk
    obtain ⟨e, he, rfl⟩ := List.mem_map.1 hk
    exact ((h e.1 e.2).1 he).2
  · intro hne
    exact List.mem_map_of_mem (f := Prod.fst) ((h k _).2 ⟨rfl, hne⟩)

end Records

end Updates

namespace Content

variable {c d x : Content} {v : Option String}

theorem mem_lostFields {u : Update} : (k, u) ∈ lostFields c d ↔
    u = ⟨c.attr? k, d.attr? k⟩ ∧ c.attr? k ≠ d.attr? k ∧ c.attr? k ≠ none := by
  have he (w : String) : (k, w) ∈ c.attributes.entries ↔ c.attr? k = some w :=
    Attributes.get?_eq_some.symm
  rw [lostFields, List.mem_filterMap]
  constructor
  · rintro ⟨⟨k', w⟩, hm, h⟩
    split at h
    · cases h
    · next hne =>
      cases h
      rw [he] at hm
      exact ⟨by rw [hm], by rw [hm]; exact Ne.symm hne, by rw [hm]; exact nofun⟩
  · rintro ⟨rfl, hne, hsome⟩
    obtain ⟨w, hw⟩ := Option.ne_none_iff_exists'.1 hsome
    refine ⟨(k, w), (he w).2 hw, ?_⟩
    rw [if_neg (by rw [← hw]; exact Ne.symm hne), hw]

theorem mem_gainedFields {u : Update} : (k, u) ∈ gainedFields c d ↔
    u = ⟨c.attr? k, d.attr? k⟩ ∧ c.attr? k ≠ d.attr? k ∧ c.attr? k = none := by
  have he (w : String) : (k, w) ∈ d.attributes.entries ↔ d.attr? k = some w :=
    Attributes.get?_eq_some.symm
  have hc (k' : String) : c.attributes.contains k' = true ↔ c.attr? k' ≠ none := by
    rw [Attributes.contains, Option.isSome_iff_ne_none, attr?]
  rw [gainedFields, List.mem_filterMap]
  constructor
  · rintro ⟨⟨k', w⟩, hm, h⟩
    split at h
    · cases h
    · next hne =>
      cases h
      rw [hc, not_not] at hne
      rw [he] at hm
      rw [hm, hne]
      exact ⟨rfl, nofun, rfl⟩
  · rintro ⟨rfl, hne, hnone⟩
    rw [hnone] at hne ⊢
    obtain ⟨w, hw⟩ := Option.ne_none_iff_exists'.1 (Ne.symm hne)
    refine ⟨(k, w), (he w).2 hw, ?_⟩
    rw [if_neg (by rw [hc, hnone]; exact fun h ↦ h rfl), hw]

def rawDiff (c d : Content) : List (String × Update) :=
  lostFields c d ++ gainedFields c d ++
    (if c.text = d.text then [] else [(textKey, ⟨c.text, d.text⟩)]) ++
    (if c.label = d.label then [] else [(labelKey, ⟨some c.label, some d.label⟩)])

theorem diffFields_eq (c d : Content) : diffFields c d = .ofList (rawDiff c d) := rfl

theorem mem_rawDiff (h : Comparable c d) {u : Update} :
    (k, u) ∈ rawDiff c d ↔ u = ⟨c.field k, d.field k⟩ ∧ c.field k ≠ d.field k := by
  have ha : (k, u) ∈ lostFields c d ++ gainedFields c d ↔
      u = ⟨c.attr? k, d.attr? k⟩ ∧ c.attr? k ≠ d.attr? k := by
    rw [List.mem_append, mem_lostFields, mem_gainedFields, ← and_or_left, ← and_or_left]
    simp only [ne_or_eq, and_true]
  have hx {y : String × Update} {P : Prop} [Decidable P] :
      (k, u) ∈ (if P then [] else [y]) ↔ ¬ P ∧ (k, u) = y := by
    split <;> simp_all
  rw [rawDiff, List.mem_append, List.mem_append, ha, hx, hx, Prod.mk.injEq, Prod.mk.injEq]
  by_cases ht : k = textKey
  · subst ht
    simp [h.text, textKey_ne_labelKey, field_textKey, and_comm]
  · by_cases hl : k = labelKey
    · subst hl
      simp [h.label, ht, field_labelKey, and_comm]
    · simp [ht, hl, field_of_ne]

theorem keys_filterMap_sublist {f : String × String → Option (String × Update)}
    (hf : ∀ e y, f e = some y → y.1 = e.1) (es : List (String × String)) :
    ((es.filterMap f).map Prod.fst).Sublist (es.map Prod.fst) := by
  induction es with
  | nil => exact .slnil
  | cons e es ih =>
    cases h : f e with
    | none =>
      rw [List.filterMap_cons_none h]
      exact ih.cons _
    | some y =>
      rw [List.filterMap_cons_some h, List.map_cons, List.map_cons, hf e y h]
      exact ih.cons_cons _

theorem nodup_keys_attributes :
    ((lostFields c d ++ gainedFields c d).map Prod.fst).Nodup := by
  rw [List.map_append, List.nodup_append]
  refine ⟨?_, ?_, fun k hk k' hk' he ↦ ?_⟩
  · refine c.attributes.distinct.sublist (keys_filterMap_sublist (fun e y h ↦ ?_) _)
    split at h <;> cases h
    rfl
  · refine d.attributes.distinct.sublist (keys_filterMap_sublist (fun e y h ↦ ?_) _)
    split at h <;> cases h
    rfl
  · -- an attribute is lost if it was there before, and gained if it was not
    obtain ⟨e, he₁, rfl⟩ := List.mem_map.1 hk
    obtain ⟨e', he₂, rfl⟩ := List.mem_map.1 hk'
    have h₁ := (mem_lostFields.1 he₁).2.2
    rw [he] at h₁
    exact h₁ (mem_gainedFields.1 he₂).2.2

theorem Comparable.attribute_ne (h : Comparable c d) {e : String × Update}
    (he : e ∈ lostFields c d ++ gainedFields c d) : e.1 ≠ textKey ∧ e.1 ≠ labelKey := by
  have hne : c.attr? e.1 ≠ d.attr? e.1 := by
    rcases List.mem_append.1 he with he | he
    · exact (mem_lostFields.1 he).2.1
    · exact (mem_gainedFields.1 he).2.1
  constructor <;> intro hk <;> rw [hk] at hne
  · exact hne h.text
  · exact hne h.label

theorem nodup_keys_rawDiff (h : Comparable c d) : ((rawDiff c d).map Prod.fst).Nodup := by
  have hone {P : Prop} [Decidable P] {y : String × Update} :
      ((if P then [] else [y]).map Prod.fst).Nodup := by
    split <;> simp
  rw [rawDiff, List.map_append, List.nodup_append, List.map_append, List.nodup_append]
  refine ⟨⟨nodup_keys_attributes, hone, ?_⟩, hone, ?_⟩
  · intro k hk k' hk' he
    obtain ⟨e, hm, rfl⟩ := List.mem_map.1 hk
    split at hk'
    · cases hk'
    · exact (h.attribute_ne hm).1 (he.trans (List.mem_singleton.1 hk'))
  · intro k hk k' hk' he
    rw [← List.map_append] at hk
    obtain ⟨e, hm, rfl⟩ := List.mem_map.1 hk
    split at hk'
    · cases hk'
    · have hl := he.trans (List.mem_singleton.1 hk')
      rcases List.mem_append.1 hm with hm | hm
      · exact (h.attribute_ne hm).2 hl
      · split at hm
        · cases hm
        · obtain rfl := List.mem_singleton.1 hm
          exact textKey_ne_labelKey hl

/-- The difference of two contents records all their differences and nothing else. -/
theorem Comparable.records (h : Comparable c d) : (diffFields c d).Records c d := fun k u ↦ by
  rw [diffFields_eq, (Updates.ofList_perm (nodup_keys_rawDiff h)).mem_iff, mem_rawDiff h]

theorem records_diffFields (hc : c.Unambiguous) (hd : d.Unambiguous) :
    (diffFields c d).Records c d := (hc.comparable hd).records

theorem records_nil (c : Content) : Updates.Records [] c c :=
  fun _ _ ↦ ⟨fun h ↦ absurd h List.not_mem_nil, fun h ↦ absurd rfl h.2⟩

/-- The difference of two contents is empty just if they are the same, whatever their keys. -/
theorem diffFields_eq_nil_iff : diffFields c d = [] ↔ (c == d) = true := by
  have hinsert (e : String × Update) (us : Updates) : Updates.insert e.1 e.2 us ≠ [] := by
    cases us with
    | nil => exact List.cons_ne_nil _ _
    | cons u us =>
      rw [Updates.insert]
      split_ifs <;> exact List.cons_ne_nil _ _
  -- sorting the changes by key leaves none of them out
  have hnil : diffFields c d = [] ↔ rawDiff c d = [] := by
    rw [diffFields_eq, Updates.ofList]
    cases rawDiff c d with
    | nil => exact iff_of_true rfl rfl
    | cons e es =>
      refine iff_of_false ?_ (List.cons_ne_nil _ _)
      exact List.foldlRecOn es (fun (us : Updates) e ↦ Updates.insert e.1 e.2 us)
        (motive := fun us : Updates ↦ us ≠ []) (hinsert e []) fun us _ e _ ↦ hinsert e us
  rw [hnil, same_iff, rawDiff, List.append_eq_nil_iff, List.append_eq_nil_iff,
    List.append_eq_nil_iff]
  constructor
  · rintro ⟨⟨⟨hlost, hgained⟩, htext⟩, hlabel⟩
    refine ⟨by_contra fun hne ↦ ?_, fun k ↦ by_contra fun hne ↦ ?_, by_contra fun hne ↦ ?_⟩
    · rw [if_neg hne] at hlabel
      cases hlabel
    · by_cases hk : c.attr? k = none
      · exact List.not_mem_nil (hgained ▸ mem_gainedFields.2 ⟨rfl, hne, hk⟩)
      · exact List.not_mem_nil (hlost ▸ mem_lostFields.2 ⟨rfl, hne, hk⟩)
    · rw [if_neg hne] at htext
      cases htext
  · rintro ⟨hlabel, hattr, htext⟩
    refine ⟨⟨⟨List.eq_nil_iff_forall_not_mem.2 fun e he ↦ ?_,
      List.eq_nil_iff_forall_not_mem.2 fun e he ↦ ?_⟩, if_pos htext⟩, if_pos hlabel⟩
    · exact (mem_lostFields.1 he).2.1 (hattr _)
    · exact (mem_gainedFields.1 he).2.1 (hattr _)

theorem diffFields_self (c : Content) : diffFields c c = [] :=
  diffFields_eq_nil_iff.2 (same_refl c)

section Writing

variable {σ : Type} {g : σ → Content} {f : σ → String × Update → σ} {P : σ → Prop} {z : σ}
  {us : Updates}

theorem field_foldl (hf : ∀ z, P z → ∀ e : String × Update, (e.1 = labelKey → e.2.new ≠ none) →
      P (f z e) ∧ ∀ k, (g (f z e)).field k = if k = e.1 then e.2.new else (g z).field k)
    (h : ∀ e ∈ us, e.2.new = d.field e.1) (hz : P z) :
    P (us.foldl f z) ∧ ∀ k, (g (us.foldl f z)).field k =
      if k ∈ us.map Prod.fst then d.field k else (g z).field k := by
  induction us generalizing z with
  | nil => exact ⟨hz, fun _ ↦ rfl⟩
  | cons e us ih =>
    have he := h e List.mem_cons_self
    obtain ⟨hz', hfield⟩ := hf z hz e (ne_none_of_eq_field he)
    obtain ⟨hzs, hfields⟩ := ih (fun e' he' ↦ h e' (List.mem_cons_of_mem _ he')) hz'
    refine ⟨hzs, fun k ↦ ?_⟩
    rw [List.foldl_cons, hfields, hfield, List.map_cons]
    by_cases hk : k ∈ us.map Prod.fst
    · rw [if_pos hk, if_pos (List.mem_cons_of_mem _ hk)]
    · rw [if_neg hk]
      by_cases hke : k = e.1
      · rw [if_pos hke, if_pos (List.mem_cons.2 (.inl hke)), hke, he]
      · rw [if_neg hke, if_neg]
        exact fun hm ↦ (List.mem_cons.1 hm).elim hke hk

theorem same_foldl (hf : ∀ z, P z → ∀ e : String × Update, (e.1 = labelKey → e.2.new ≠ none) →
      P (f z e) ∧ ∀ k, (g (f z e)).field k = if k = e.1 then e.2.new else (g z).field k)
    (hu : ∀ z, P z → Comparable (g z) d) (hz : P z) (h : us.Records (g z) d) :
    (g (us.foldl f z) == d) = true := by
  obtain ⟨hzs, hfields⟩ := field_foldl hf h.new_eq hz
  refine same_of_fields (hu _ hzs) fun k ↦ ?_
  rw [hfields]
  split
  · rfl
  · next hk =>
    by_contra hne
    exact hk (h.mem_keys.2 hne)

theorem same_of_records (hcd : Comparable c d) (h : us.Records c d) :
    (us.foldl (fun c e ↦ c.setField e.1 e.2.new) c == d) = true :=
  same_foldl (g := id) (P := fun z ↦ Comparable z d)
    (fun c hc e he ↦ ⟨(comparable_setField c e.1 e.2.new).trans hc, field_setField c he⟩)
    (fun _ hz ↦ hz) hcd h

/-- In whatever order the difference of two contents is written into the first, the second comes out
just if they hold the same in the attributes that take the key of the text or of the label. There is
no difference just if the contents are the same. -/
theorem same_foldl_diffFields_iff (c d : Content) (us : Updates) (h : us.Perm (diffFields c d)) :
    ((us.foldl (fun c e ↦ c.setField e.1 e.2.new) c == d) = true ↔
      c.attr? textKey = d.attr? textKey ∧ c.attr? labelKey = d.attr? labelKey) ∧
    (diffFields c d = [] ↔ (c == d) = true) := by
  refine ⟨⟨fun hsame ↦ ?_, fun ⟨ht, hl⟩ ↦ ?_⟩, diffFields_eq_nil_iff⟩
  · have hwritten : Comparable c (us.foldl (fun c e ↦ c.setField e.1 e.2.new) c) :=
      List.foldlRecOn us _ (Comparable.refl c) fun x hx e _ ↦
        hx.trans ⟨(comparable_setField x e.1 e.2.new).text.symm,
          (comparable_setField x e.1 e.2.new).label.symm⟩
    have hcd := hwritten.trans (comparable_of_same hsame)
    exact ⟨hcd.text, hcd.label⟩
  · have hcd : Comparable c d := ⟨ht, hl⟩
    exact same_of_records hcd fun k u ↦ h.mem_iff.trans (hcd.records k u)

/-- Another endpoint and a text, written from the last to the first. -/
theorem same_foldl_diffFields_call :
    let c : Content := { label := "call", attributes := .ofList [("endpoint", "x")] }
    let d : Content := { label := "call", attributes := .ofList [("endpoint", "y")], text := "t" }
    (diffFields c d).length = 2 ∧
      ((diffFields c d).reverse.foldl (fun c e ↦ c.setField e.1 e.2.new) c == d) = true :=
  ⟨by decide +kernel, (same_foldl_diffFields_iff _ _ _ (List.reverse_perm _)).1.2
    ⟨by decide +kernel, by decide +kernel⟩⟩

def callWithText (v : String) : Content := { label := "call", attributes := .ofList [("text", v)] }

/-- The attribute keeps its value. -/
theorem not_same_callWithText :
    ¬ ∀ us : Updates, us.Perm (diffFields (callWithText "x") (callWithText "y")) →
      (us.foldl (fun c e ↦ c.setField e.1 e.2.new) (callWithText "x") ==
        callWithText "y") = true := by
  intro h
  exact absurd (h _ (.refl _)) (by decide +kernel)

end Writing

theorem records_record {y : Delta} (h : y.updates.Records c x) (hv : k = labelKey → v ≠ none) :
    (y.record k ⟨x.field k, v⟩).updates.Records c (x.setField k v) := by
  -- what was recorded before says what the field held at first
  have hjoined : y.joined k ⟨x.field k, v⟩ = ⟨c.field k, v⟩ := by
    rw [Delta.joined, Updates.get?]
    cases hf : y.updates.find? fun e ↦ e.1 == k with
    | some e =>
      have hk : e.1 = k := by simpa using List.find?_some hf
      have he := ((h e.1 e.2).1 (List.mem_of_find?_eq_some hf)).1
      rw [hk] at he
      simp only [Option.map_some, he]
    | none =>
      have hsame : c.field k = x.field k := by
        by_contra hne
        refine List.find?_eq_none.1 hf _ ((h k _).2 ⟨rfl, hne⟩) (beq_self_eq_true k)
      simp only [Option.map_none, hsame]
  have hrest (k' : String) (u : Update) : (k', u) ∈ y.updates.erase k ↔
      k' ≠ k ∧ u = ⟨c.field k', x.field k'⟩ ∧ c.field k' ≠ x.field k' := by
    rw [Updates.erase, List.mem_filter, bne_iff_ne, h, and_comm]
  have hupdates : (y.record k ⟨x.field k, v⟩).updates =
      if c.field k = v then y.updates.erase k
      else (y.updates.erase k).insert k ⟨c.field k, v⟩ := by
    obtain ⟨m, hm⟩ := y.record_eq k ⟨x.field k, v⟩
    rw [hm, Delta.updatesAfter, hjoined]
  intro k' u
  rw [hupdates, field_setField x hv]
  by_cases hk : k' = k
  · subst hk
    rw [if_pos rfl]
    split
    · next hs => simp [hrest, hs]
    · next hs =>
      have hnew : k' ∉ (y.updates.erase k').map Prod.fst := by
        intro hm
        obtain ⟨e, he, hke⟩ := List.mem_map.1 hm
        exact ((hrest e.1 e.2).1 he).1 hke
      rw [(Updates.insert_perm hnew).mem_iff, List.mem_cons, hrest]
      simp [hs]
  · rw [if_neg hk]
    split
    · simp [hrest, hk]
    · have hnew : k ∉ (y.updates.erase k).map Prod.fst := by
        intro hm
        obtain ⟨e, he, hke⟩ := List.mem_map.1 hm
        exact ((hrest e.1 e.2).1 he).1 hke
      rw [(Updates.insert_perm hnew).mem_iff, List.mem_cons, hrest]
      simp [hk]

end Content

end FlowMerge
