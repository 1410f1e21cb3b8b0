import FlowMerge.Proofs.Script.Reverting
import Mathlib.Data.String.Basic

namespace FlowMerge

variable {k : String} {u : Update} {us vs : Updates} {c d : Content} {y : Delta}

namespace Updates

def Sorted (us : Updates) : Prop := us.Pairwise fun e f ↦ e.1 < f.1

theorem Sorted.insert (h : us.Sorted) (k : String) (u : Update) : (us.insert k u).Sorted := by
  induction us with
  | nil => exact List.pairwise_singleton _ _
  | cons e us ih =>
    obtain ⟨hall, hs⟩ := List.pairwise_cons.1 h
    rw [Updates.insert]
    split
    · next hk =>
      refine List.pairwise_cons.2 ⟨fun f hf ↦ ?_, h⟩
      rcases List.mem_cons.1 hf with rfl | hf
      · exact hk
      · exact lt_trans hk (hall f hf)
    · next hk =>
      split
      · next he => exact List.pairwise_cons.2 ⟨fun f hf ↦ he ▸ hall f hf, hs⟩
      · next he =>
        refine List.pairwise_cons.2 ⟨fun f hf ↦ ?_, ih hs⟩
        rcases mem_insert hf with rfl | hf
        · exact lt_of_le_of_ne (not_lt.1 hk) (Ne.symm he)
        · exact hall f hf

theorem Sorted.erase (h : us.Sorted) (k : String) : (us.erase k).Sorted :=
  List.Pairwise.filter _ h

theorem sorted_ofList (es : List (String × Update)) : (ofList es).Sorted :=
  List.foldlRecOn es _ List.Pairwise.nil fun _ h e _ ↦ h.insert e.1 e.2

theorem Sorted.nodup (h : us.Sorted) : us.Nodup :=
  List.Pairwise.imp (fun hlt ↦ ne_of_apply_ne Prod.fst (ne_of_lt hlt)) h

theorem Records.eq_of_sorted (h : us.Records c d) (h' : vs.Records c d) (hs : us.Sorted)
    (hs' : vs.Sorted) : us = vs := by
  refine List.Perm.eq_of_pairwise (fun e f _ _ hef hfe ↦ absurd hef (lt_asymm hfe)) hs hs' ?_
  rw [List.perm_ext_iff_of_nodup hs.nodup hs'.nodup]
  exact fun e ↦ (h e.1 e.2).trans (h' e.1 e.2).symm

/-- The content `d` came out of `c`, and `us` remembers how, without changes that lead nowhere. -/
structure Departs (us : Updates) (c d : Content) : Prop extends us.Remembers c d where
  changed : ∀ e ∈ us, e.2.old ≠ e.2.new

namespace Departs

theorem nil (c : Content) : Departs [] c c := ⟨.nil c, fun _ he ↦ absurd he List.not_mem_nil⟩

variable (h : y.updates.Departs c d) (k : String) (v : Option String)
include h

theorem updatesAfter_eq : y.updatesAfter k ⟨d.field k, v⟩ =
    if c.field k = v then y.updates.erase k else (y.updates.erase k).insert k ⟨c.field k, v⟩ := by
  rw [Delta.updatesAfter, h.joined_old]

theorem record : (y.record k ⟨d.field k, v⟩).updates.Departs c (d.setField k v) := by
  refine ⟨h.toRemembers.record k v, fun e he ↦ ?_⟩
  obtain ⟨m, hm⟩ := y.record_eq k ⟨d.field k, v⟩
  rw [hm, h.updatesAfter_eq] at he
  split at he
  · exact h.changed e (List.mem_filter.1 he).1
  · next hne =>
    rcases mem_insert he with rfl | he
    · exact hne
    · exact h.changed e (List.mem_filter.1 he).1

theorem record_ne_nil (hv : c.field k ≠ v) : (y.record k ⟨d.field k, v⟩).updates ≠ [] := by
  obtain ⟨m, hm⟩ := y.record_eq k ⟨d.field k, v⟩
  have hk : k ∈ ((y.updates.erase k).insert k ⟨c.field k, v⟩).map Prod.fst :=
    (keys_insert ..).2 (.inl rfl)
  rw [hm, h.updatesAfter_eq, if_neg hv]
  exact fun hnil ↦ List.ne_nil_of_mem hk (congrArg (List.map Prod.fst) hnil)

end Departs

end Updates

namespace Delta

/-- What is recorded on a node tells exactly how its content came from `c` to `d`. -/
structure Exact (c d : Content) (y : Delta) : Prop where
  records : y.updates.Records c d
  sorted : y.updates.Sorted
  unambiguous : d.Unambiguous
  unchanged : y.mark = .unchanged → y.updates = []
  updated : y.mark = .updated → y.updates ≠ []

theorem Exact.updates_eq (h : Exact c d y) (hc : c.Unambiguous) :
    y.updates = c.diffFields d :=
  h.records.eq_of_sorted (Content.records_diffFields hc h.unambiguous) h.sorted
    (Updates.sorted_ofList _)

theorem isUpdate_iff : y.isUpdate = true ↔ y.updates ≠ [] := by
  rw [isUpdate, Bool.not_eq_true', ← Bool.not_eq_true, List.isEmpty_iff]

theorem exact_settled (hr : y.updates.Records c d) (hs : y.updates.Sorted)
    (hu : d.Unambiguous) : Exact c d y.settled := by
  rw [settled]
  split
  · next h =>
    refine ⟨hr, hs, hu, fun hm ↦ ?_, fun _ ↦ isUpdate_iff.1 h.2⟩
    cases hm
  · next hn =>
    split
    · next h =>
      refine ⟨hr, hs, hu, fun _ ↦ by_contra fun he ↦ h.2 (isUpdate_iff.2 he), fun hm ↦ ?_⟩
      cases hm
    · next hn' =>
      refine ⟨hr, hs, hu, fun hm ↦ by_contra fun he ↦ hn ⟨hm, isUpdate_iff.2 he⟩,
        fun hm he ↦ hn' ⟨hm, fun hi ↦ isUpdate_iff.1 hi he⟩⟩

theorem sorted_updatesAfter (h : y.updates.Sorted) (k : String) (u : Update) :
    (y.updatesAfter k u).Sorted := by
  rw [updatesAfter]
  split
  · exact h.erase k
  · exact (h.erase k).insert k _

theorem Exact.record (h : Exact c d y) {v : Option String}
    (hv : k = Content.labelKey → v ≠ none) :
    Exact c (d.setField k v) (y.record k ⟨d.field k, v⟩) := by
  have hr := Content.records_record h.records hv
  obtain ⟨m, hm⟩ := y.record_eq k ⟨d.field k, v⟩
  have hs := sorted_updatesAfter h.sorted k ⟨d.field k, v⟩
  refine exact_settled (y := { y with updates := y.updatesAfter k ⟨d.field k, v⟩ }) ?_ hs
    (h.unambiguous.setField k v)
  rwa [hm] at hr

theorem exact_blank (hc : c.Unambiguous) (hm : y.mark = .unchanged) (hu : y.updates = []) :
    Exact c c y where
  records := by
    rw [hu]
    exact Content.records_nil c
  sorted := by
    rw [hu]
    exact List.Pairwise.nil
  unambiguous := hc
  unchanged _ := hu
  updated hm' := by
    rw [hm] at hm'
    cases hm'

theorem Exact.of_mark {z : Delta} (h : Exact c d y) (hu : z.updates = y.updates)
    (hm : z.mark = y.mark ∨ z.mark = .movedHere ∨ z.mark = .deleted) : Exact c d z := by
  refine ⟨hu ▸ h.records, hu ▸ h.sorted, h.unambiguous, fun hz ↦ ?_, fun hz ↦ ?_⟩
  · rw [hz] at hm
    rcases hm with hm | hm | hm
    · rw [hu, h.unchanged hm.symm]
    · cases hm
    · cases hm
  · rw [hz] at hm
    rcases hm with hm | hm | hm
    · rw [hu]
      exact h.updated hm.symm
    · cases hm
    · cases hm

end Delta

namespace Tree

variable {t t' t'' : Tree} {x n : NodeId}

structure Steady (t t' : Tree) : Prop where
  size_le : t.size ≤ t'.size
  content : ∀ x < t.size, t'.content x = t.content x
  delta : ∀ x < t.size, ∀ y, t.delta? x = some y → ∃ z, t'.delta? x = some z ∧
    z.base = y.base ∧ z.updates = y.updates ∧
      (z.mark = y.mark ∨ z.mark = .movedHere ∨ z.mark = .deleted)

namespace Steady

theorem refl (t : Tree) : Steady t t :=
  ⟨Nat.le_refl _, fun _ _ ↦ rfl, fun _ _ y hy ↦ ⟨y, hy, rfl, rfl, .inl rfl⟩⟩

theorem trans (h : Steady t t') (h' : Steady t' t'') : Steady t t'' := by
  refine ⟨Nat.le_trans h.size_le h'.size_le, fun x hx ↦ ?_, fun x hx y hy ↦ ?_⟩
  · exact (h'.content x (Nat.lt_of_lt_of_le hx h.size_le)).trans (h.content x hx)
  · obtain ⟨z, hz, hb, hu, hm⟩ := h.delta x hx y hy
    obtain ⟨z', hz', hb', hu', hm'⟩ := h'.delta x (Nat.lt_of_lt_of_le hx h.size_le) z hz
    refine ⟨z', hz', hb'.trans hb, hu'.trans hu, ?_⟩
    rcases hm' with hm' | hm'
    · rwa [hm']
    · exact .inr hm'

/-- Deltas may change in what is neither base nor field changes, and marks may tell of moves and
deletions. -/
theorem of_map (hsize : t.size ≤ t'.size) (hcontent : ∀ x < t.size, t'.content x = t.content x)
    (hdelta : ∀ x < t.size, ∃ f : Delta → Delta, t'.delta? x = (t.delta? x).map f ∧
      ∀ y, (f y).base = y.base ∧ (f y).updates = y.updates ∧
        ((f y).mark = y.mark ∨ (f y).mark = .movedHere ∨ (f y).mark = .deleted)) :
    Steady t t' := by
  refine ⟨hsize, hcontent, fun x hx y hy ↦ ?_⟩
  obtain ⟨f, hf, hkeep⟩ := hdelta x hx
  exact ⟨f y, by rw [hf, hy]; rfl, hkeep y⟩

theorem of_data (hsize : t.size ≤ t'.size) (hcontent : ∀ x < t.size, t'.content x = t.content x)
    (hdelta : ∀ x < t.size, t'.delta? x = t.delta? x) : Steady t t' :=
  of_map hsize hcontent fun x hx ↦
    ⟨(fun y ↦ y), (hdelta x hx).trans Option.map_id_apply.symm, fun _ ↦ ⟨rfl, rfl, .inl rfl⟩⟩

theorem of_alike (h : Alike t' t) : Steady t t' :=
  of_data (Nat.le_of_eq h.size.symm) (fun x _ ↦ h.content x) fun x _ ↦ h.delta? x

theorem modifyDelta (t : Tree) (id : NodeId) {f : Delta → Delta}
    (hf : ∀ y, (f y).base = y.base ∧ (f y).updates = y.updates ∧
      ((f y).mark = y.mark ∨ (f y).mark = .movedHere ∨ (f y).mark = .deleted)) :
    Steady t (t.modifyDelta id f) := by
  refine of_map (Nat.le_of_eq (sameShape_modifyDelta t id f).size.symm)
    (fun x _ ↦ content_modifyDelta t id f x) fun x _ ↦ ?_
  rw [delta?_modifyDelta]
  split
  · exact ⟨f, rfl, hf⟩
  · exact ⟨(fun y ↦ y), Option.map_id_apply.symm, fun _ ↦ ⟨rfl, rfl, .inl rfl⟩⟩

theorem addPlaceholder (t : Tree) (p c : NodeId) : Steady t (t.addPlaceholder p c) :=
  modifyDelta t p fun _ ↦ ⟨rfl, rfl, .inl rfl⟩

theorem markDeleted (t : Tree) (x : NodeId) : Steady t (t.markSubtree x .deleted) :=
  List.foldlRecOn _ _ (refl t) fun t' h y _ ↦
    h.trans (modifyDelta t' y fun _ ↦ ⟨rfl, rfl, .inr (.inr rfl)⟩)

theorem detach (t : Tree) (x : NodeId) : Steady t (t.detach x) :=
  have hdata := sameData_detach t x
  of_data (Nat.le_of_eq (size_detach t x).symm) (fun y _ ↦ hdata.content y)
    fun y _ ↦ hdata.delta? y

theorem insertChild (t : Tree) (p : NodeId) (i : Nat) (c : NodeId) :
    Steady t (t.insertChild p i c) :=
  have hdata := sameData_insertChild t p i c
  of_data (Nat.le_of_eq (size_insertChild t p i c).symm) (fun y _ ↦ hdata.content y)
    fun y _ ↦ hdata.delta? y

theorem alloc (t : Tree) (c : Content) (a : Overlay) : Steady t (t.alloc c a).1 := by
  refine of_data (by rw [size_alloc]; exact Nat.le_succ _) (fun x hx ↦ ?_) fun x hx ↦ ?_
  · rw [content_alloc, if_neg (Nat.ne_of_lt hx)]
  · rw [delta?_alloc, if_neg (Nat.ne_of_lt hx)]

end Steady

/-- The first `n` nodes come from a base in which they have the contents `first`, and what is
recorded on them is exact. -/
def Annotated (n : Nat) (first : NodeId → Content) (t : Tree) : Prop :=
  Script.Noted n (fun x y c ↦ y.base = some x ∧ y.Exact (first x) c) t

namespace Annotated

variable {first : NodeId → Content} (h : Annotated n first t)
include h

theorem updateField (node : NodeId) (e : String × Update)
    (hlabel : node < n → e.1 = Content.labelKey → e.2.new ≠ none) :
    Annotated n first (Script.updateField node t e) :=
  Script.Noted.updateField h node e fun hn y _ ⟨hb, hy⟩ ↦
    ⟨(y.base_record ..).trans hb, hy.record (hlabel hn)⟩

theorem steady (hs : Steady t t') : Annotated n first t' := by
  intro x hx
  obtain ⟨y, hy, hb, he⟩ := h x hx
  have hxt := lt_size_of_delta? hy
  obtain ⟨z, hz, hb', hu, hm⟩ := hs.delta x hxt y hy
  refine ⟨z, hz, hb'.trans hb, ?_⟩
  rw [hs.content x hxt]
  exact he.of_mark hu hm

end Annotated

def Departed (n : Nat) (first : NodeId → Content) (t : Tree) : Prop :=
  Script.Noted n (fun x y c ↦ y.updates.Departs (first x) c) t

theorem Departed.steady {first : NodeId → Content} (h : Departed n first t) (hs : Steady t t') :
    Departed n first t' := by
  intro x hx
  obtain ⟨y, hy, hd⟩ := h x hx
  have hxt := lt_size_of_delta? hy
  obtain ⟨z, hz, -, hu, -⟩ := hs.delta x hxt y hy
  refine ⟨z, hz, ?_⟩
  show z.updates.Departs (first x) (t'.content x)
  rwa [hu, hs.content x hxt]

end Tree

end FlowMerge
