import FlowMerge.Proofs.Matching.Costs
import FlowMerge.Proofs.Sequence
import Mathlib.Data.List.Forall2
import Mathlib.Data.List.Perm.Subperm

namespace FlowMerge.Matching

open Score

section Lists

variable {α β : Type}

theorem filterMap_sublist_filterMap {f g : α → Option β} (h : ∀ a b, f a = some b → g a = some b)
    (l : List α) : (l.filterMap f).Sublist (l.filterMap g) := by
  induction l with
  | nil => exact .refl _
  | cons a l ih =>
    cases hf : f a with
    | some b => simpa [List.filterMap_cons, hf, h a b hf] using ih
    | none =>
      cases hg : g a with
      | none => simpa [List.filterMap_cons, hf, hg] using ih
      | some b => simpa [List.filterMap_cons, hf, hg] using ih.cons b

theorem filterMap_getElem?_range_of_le {l : List α} {k : Nat} (hk : l.length ≤ k) :
    (List.range k).filterMap (l[·]?) = l := by
  induction k, hk using Nat.le_induction with
  | base => exact Sequence.filterMap_getElem?_range l
  | succ k hk ih => simp [List.range_succ, ih, hk]

theorem exists_perm_of_map_perm {f : α → β} {l : List α} {u : List β} (h : (l.map f).Perm u) :
    ∃ v : List α, v.Perm l ∧ v.map f = u := by
  have hmap : List.Forall₂ (fun b a ↦ f a = b) (l.map f) l := by
    rw [List.forall₂_map_left_iff]
    exact List.forall₂_same.2 fun _ _ ↦ rfl
  obtain ⟨v, huv, hv⟩ := List.perm_comp_forall₂ h.symm hmap
  refine ⟨v, hv, ?_⟩
  rw [← List.forall₂_eq_eq_eq, List.forall₂_map_left_iff]
  exact huv.flip

theorem nodup_of_subperm {l u : List α} (h : l.Subperm u) (hu : u.Nodup) : l.Nodup := by
  obtain ⟨v, hv, hsub⟩ := h
  exact hv.nodup_iff.1 (hu.sublist hsub)

theorem exists_perm_append_of_subperm {l u : List α} (h : l.Subperm u) :
    ∃ r : List α, (l ++ r).Perm u := by
  obtain ⟨v, hv, hsub⟩ := List.subperm_iff.1 h
  obtain ⟨r, hr⟩ := hsub.exists_perm_append
  exact ⟨r, hr.symm.trans hv⟩

theorem zipIdx_eq_zip_range (l : List α) : l.zipIdx = l.zip (List.range l.length) := by
  rw [List.zipIdx_eq_zip_range', List.range_eq_range']

theorem sum_getD_one (h : α → Option β) (f : β → Rat) (l : List α) :
    (l.map fun x ↦ ((h x).map f).getD 1).sum =
      ((l.filterMap h).map f).sum + (l.length - (l.filterMap h).length) := by
  induction l with
  | nil => simp
  | cons x l ih =>
    cases hx : h x with
    | none =>
      simp only [List.map_cons, List.sum_cons, ih, hx, Option.map_none, Option.getD_none,
        List.filterMap_cons, List.length_cons, Nat.cast_add, Nat.cast_one]
      ring
    | some b =>
      simp only [List.map_cons, List.sum_cons, ih, hx, Option.map_some, Option.getD_some,
        List.filterMap_cons, List.length_cons, Nat.cast_add, Nat.cast_one]
      ring

end Lists

section Assigns

variable {α β : Type} {olds : List α} {news : List β} {columns : List Nat} {k : Nat}

/-- Whether pairs take one member of each of two lists, none of them twice, and use up the shorter
of the lists. -/
structure Assigns (olds : List α) (news : List β) (pairs : List (α × β)) : Prop where
  firsts : (pairs.map Prod.fst).Subperm olds
  seconds : (pairs.map Prod.snd).Subperm news
  length : pairs.length = min olds.length news.length

def couple? (olds : List α) (news : List β) (place : Nat × Nat) : Option (α × β) :=
  olds[place.2]?.bind fun o ↦ news[place.1]?.map fun n ↦ (o, n)

def couples (olds : List α) (news : List β) (columns : List Nat) : List (α × β) :=
  columns.zipIdx.filterMap (couple? olds news)

theorem couple?_eq_some {place : Nat × Nat} {o : α} {n : β} :
    couple? olds news place = some (o, n) ↔
      olds[place.2]? = some o ∧ news[place.1]? = some n := by
  simp only [couple?, Option.bind_eq_some_iff, Option.map_eq_some_iff, Prod.mk.injEq]
  grind

theorem fst_couple? {place : Nat × Nat} {o : α}
    (h : (couple? olds news place).map Prod.fst = some o) : olds[place.2]? = some o := by
  obtain ⟨p, hp, rfl⟩ := Option.map_eq_some_iff.1 h
  exact (couple?_eq_some.1 hp).1

theorem snd_couple? {place : Nat × Nat} {n : β}
    (h : (couple? olds news place).map Prod.snd = some n) : news[place.1]? = some n := by
  obtain ⟨p, hp, rfl⟩ := Option.map_eq_some_iff.1 h
  exact (couple?_eq_some.1 hp).2

theorem filterMap_rows (hperm : columns.Perm (List.range k)) (hk : olds.length ≤ k) :
    columns.zipIdx.filterMap (fun place ↦ olds[place.2]?) = olds := by
  have hrows : columns.zipIdx.map Prod.snd = List.range k := by
    rw [List.zipIdx_map_snd, hperm.length_eq, List.length_range, List.range_eq_range']
  have h := filterMap_getElem?_range_of_le hk
  rwa [← hrows, List.filterMap_map] at h

theorem filterMap_columns (hperm : columns.Perm (List.range k)) (hk : news.length ≤ k) :
    (columns.zipIdx.filterMap fun place ↦ news[place.1]?).Perm news := by
  have hcolumns : columns.zipIdx.filterMap (fun place ↦ news[place.1]?) =
      columns.filterMap (news[·]?) := by
    conv_rhs => rw [← List.zipIdx_map_fst 0 columns, List.filterMap_map]
    rfl
  have h := hperm.filterMap (news[·]?)
  rwa [filterMap_getElem?_range_of_le hk, ← hcolumns] at h

/-- Rows and columns that are paired make an assignment of what they stand for. -/
theorem assigns_couples (hperm : columns.Perm (List.range (max olds.length news.length))) :
    Assigns olds news (couples olds news columns) := by
  have hrows := filterMap_rows hperm (le_max_left olds.length news.length)
  have hcolumns := filterMap_columns hperm (le_max_right olds.length news.length)
  have hfst : ((couples olds news columns).map Prod.fst).Sublist olds := by
    rw [couples, List.map_filterMap]
    conv_rhs => rw [← hrows]
    exact filterMap_sublist_filterMap (fun _ _ ↦ fst_couple?) _
  have hsnd : ((couples olds news columns).map Prod.snd).Sublist
      (columns.zipIdx.filterMap fun place ↦ news[place.1]?) := by
    rw [couples, List.map_filterMap]
    exact filterMap_sublist_filterMap (fun _ _ ↦ snd_couple?) _
  have hplace : ∀ place ∈ columns.zipIdx,
      place.1 < max olds.length news.length ∧ place.2 < max olds.length news.length := by
    intro place hplace
    obtain ⟨j, i⟩ := place
    obtain ⟨hi, rfl⟩ := List.getElem?_eq_some_iff.1 (List.mk_mem_zipIdx_iff_getElem?.1 hplace)
    have hj := List.mem_range.1 (hperm.subset (List.getElem_mem hi))
    rw [hperm.length_eq, List.length_range] at hi
    exact ⟨hj, hi⟩
  refine ⟨hfst.subperm, hsnd.subperm.trans hcolumns.subperm, ?_⟩
  -- the rows or the columns have no empty places, and so none of them is left out
  rcases le_total olds.length news.length with hle | hle
  · have hall : (couples olds news columns).map Prod.fst = olds := by
      rw [couples, List.map_filterMap]
      conv_rhs => rw [← hrows]
      refine List.filterMap_congr fun place hp ↦ ?_
      have hlt := (hplace place hp).1
      rw [max_eq_right hle] at hlt
      cases ho : olds[place.2]? <;> simp [couple?, ho, hlt]
    rw [min_eq_left hle, ← List.length_map Prod.fst, hall]
  · have hall : (couples olds news columns).map Prod.snd =
        columns.zipIdx.filterMap fun place ↦ news[place.1]? := by
      rw [couples, List.map_filterMap]
      refine List.filterMap_congr fun place hp ↦ ?_
      have hlt := (hplace place hp).2
      rw [max_eq_left hle] at hlt
      cases hn : news[place.1]? <;> simp [couple?, hn, hlt]
    rw [min_eq_right hle, ← List.length_map Prod.snd, hall, hcolumns.length_eq]

/-- The rows of pairs can be sorted, so that each row has the column it is paired with. -/
theorem exists_columns {rows cols : List Nat} (hrows : rows.Perm (List.range k))
    (hcols : cols.Perm (List.range k)) :
    ∃ columns : List Nat, columns.Perm (List.range k) ∧ (cols.zip rows).Perm columns.zipIdx := by
  have hlen : cols.length = rows.length := hcols.length_eq.trans hrows.length_eq.symm
  have hsnd : ((cols.zip rows).map Prod.snd).Perm (List.range k) := by
    rwa [List.map_snd_zip hlen.ge]
  obtain ⟨places, hplaces, hsorted⟩ := exists_perm_of_map_perm hsnd
  have hcolumns : (places.map Prod.fst).Perm (List.range k) := by
    refine (hplaces.map Prod.fst).trans ?_
    rwa [List.map_fst_zip hlen.le]
  refine ⟨places.map Prod.fst, hcolumns, ?_⟩
  have hlength : (places.map Prod.fst).length = k := by
    rw [hcolumns.length_eq, List.length_range]
  have hzip : (places.map Prod.fst).zipIdx = places := by
    rw [zipIdx_eq_zip_range, hlength, ← hsorted, ← List.zip_of_prod rfl rfl]
  rw [hzip]
  exact hplaces.symm

variable [BEq α] [LawfulBEq α] [BEq β] [LawfulBEq β]

theorem subperm_idxOf {l u : List α} (h : l.Subperm u) (hu : u.Nodup) (hk : u.length ≤ k) :
    (l.map u.idxOf).Subperm (List.range k) := by
  apply List.subperm_of_subset
  · refine (nodup_of_subperm h hu).map_on fun a ha b hb he ↦ ?_
    exact (List.idxOf_inj (h.subset ha)).1 he
  · intro i hi
    obtain ⟨a, ha, rfl⟩ := List.mem_map.1 hi
    exact List.mem_range.2 ((List.idxOf_lt_length_iff.2 (h.subset ha)).trans_le hk)

/-- Every assignment is made by pairing rows and columns. -/
theorem Assigns.exists_couples {pairs : List (α × β)} (h : Assigns olds news pairs)
    (holds : olds.Nodup) (hnews : news.Nodup) :
    ∃ columns : List Nat, columns.Perm (List.range (max olds.length news.length)) ∧
      pairs.Perm (couples olds news columns) := by
  obtain ⟨emptyRows, hrows⟩ := exists_perm_append_of_subperm
    (subperm_idxOf h.firsts holds (le_max_left olds.length news.length))
  obtain ⟨emptyColumns, hcols⟩ := exists_perm_append_of_subperm
    (subperm_idxOf h.seconds hnews (le_max_right olds.length news.length))
  obtain ⟨columns, hcolumns, hzip⟩ := exists_columns hrows hcols
  refine ⟨columns, hcolumns, ?_⟩
  have hmake : ((pairs.map Prod.snd).map news.idxOf).zip ((pairs.map Prod.fst).map olds.idxOf) =
      pairs.map fun p ↦ (news.idxOf p.2, olds.idxOf p.1) := by
    rw [List.map_map, List.map_map, List.zip_map']
    rfl
  have hpairs : (pairs.map fun p ↦ (news.idxOf p.2, olds.idxOf p.1)).filterMap
      (couple? olds news) = pairs := by
    rw [List.filterMap_map]
    refine (List.filterMap_congr fun p hp ↦ ?_).trans List.filterMap_some
    have ho := h.firsts.subset (List.mem_map_of_mem (f := Prod.fst) hp)
    have hn := h.seconds.subset (List.mem_map_of_mem (f := Prod.snd) hp)
    exact couple?_eq_some.2 ⟨List.getElem?_idxOf ho, List.getElem?_idxOf hn⟩
  have hall := hzip.filterMap (couple? olds news)
  rw [List.zip_append (by simp), hmake, List.filterMap_append, hpairs] at hall
  -- both sides have as many pairs as the shorter list, and so the empty places make none
  have hnone : (emptyColumns.zip emptyRows).filterMap (couple? olds news) = [] := by
    have hlen := hall.length_eq
    have hlen' := (assigns_couples hcolumns).length
    rw [List.length_append, h.length, ← hlen', couples] at hlen
    exact List.eq_nil_of_length_eq_zero (by omega)
  rwa [hnone, List.append_nil] at hall

end Assigns

section Totals

variable {cost : NodeId → NodeId → Rat} {olds news : List NodeId} {columns : List Nat}
  {m : CostMatrix Rat}

def totalCost (cost : NodeId → NodeId → Rat) (pairs : List (NodeId × NodeId)) : Rat :=
  (pairs.map fun p ↦ cost p.1 p.2).sum

def Cheapest (cost : NodeId → NodeId → Rat) (olds news : List NodeId)
    (pairs : List (NodeId × NodeId)) : Prop :=
  Assigns olds news pairs ∧
    ∀ others, Assigns olds news others → totalCost cost pairs ≤ totalCost cost others

def totals (m : CostMatrix Rat) : Set Rat :=
  {c | ∃ columns : List Nat, columns.Perm (List.range m.length) ∧ Assignment.total m columns = c}

theorem isLeast_total_solve (h : Assignment.solve m = some columns) :
    IsLeast (totals m) (Assignment.total m columns) := by
  refine ⟨⟨columns, Assignment.perm_solve h, rfl⟩, ?_⟩
  rintro c ⟨other, hperm, rfl⟩
  exact Assignment.total_solve_le h hperm

theorem entry_table_eq {i j : Nat} (hi : i < max olds.length news.length)
    (hj : j < max olds.length news.length) : (table cost olds news).entry i j =
      ((couple? olds news (j, i)).map fun p ↦ cost p.1 p.2).getD 1 := by
  rw [entry_table, if_pos ⟨hi, hj⟩]
  cases ho : olds[i]? with
  | some o =>
    cases hn : news[j]? with
    | some n =>
      simp only [couple?, ho, hn, Option.bind_some, Option.map_some, Option.getD_some]
      rfl
    | none => simp [couple?, ho, hn, cell, one, ratio]
  | none =>
    cases hn : news[j]? with
    | some n => simp [couple?, ho, hn, cell, one, ratio]
    | none =>
      have hle := List.getElem?_eq_none_iff.1 ho
      have hle' := List.getElem?_eq_none_iff.1 hn
      omega

/-- All assignments leave the same number of places to be padded. -/
theorem total_table (hperm : columns.Perm (List.range (max olds.length news.length))) :
    Assignment.total (table cost olds news) columns = totalCost cost (couples olds news columns) +
      (max olds.length news.length - min olds.length news.length : Nat) := by
  have hentries : Assignment.total (table cost olds news) columns =
      (columns.zipIdx.map fun place ↦
        ((couple? olds news place).map fun p ↦ cost p.1 p.2).getD 1).sum := by
    rw [Assignment.total, Assignment.sum_eq]
    refine congrArg List.sum (List.map_congr_left fun place hplace ↦ ?_)
    obtain ⟨j, i⟩ := place
    obtain ⟨hi, rfl⟩ := List.getElem?_eq_some_iff.1 (List.mk_mem_zipIdx_iff_getElem?.1 hplace)
    have hj := List.mem_range.1 (hperm.subset (List.getElem_mem hi))
    rw [hperm.length_eq, List.length_range] at hi
    exact entry_table_eq hi hj
  have hcouples : (couples olds news columns).length = min olds.length news.length :=
    (assigns_couples hperm).length
  have hle := min_le_max (a := olds.length) (b := news.length)
  rw [hentries, sum_getD_one, List.length_zipIdx, hperm.length_eq, List.length_range,
    Nat.cast_sub hle, ← hcouples]
  rfl

theorem cheapest_couples (holds : olds.Nodup) (hnews : news.Nodup)
    (hsolve : Assignment.solve (table cost olds news) = some columns) :
    Cheapest cost olds news (couples olds news columns) := by
  have hperm := Assignment.perm_solve hsolve
  rw [length_table] at hperm
  refine ⟨assigns_couples hperm, fun others hothers ↦ ?_⟩
  obtain ⟨other, hother, hcouples⟩ := hothers.exists_couples holds hnews
  have hle : Assignment.total (table cost olds news) columns ≤
      Assignment.total (table cost olds news) other := by
    apply Assignment.total_solve_le hsolve
    rwa [length_table]
  rw [total_table hperm, total_table hother] at hle
  have hsame : totalCost cost others = totalCost cost (couples olds news other) :=
    (hcouples.map _).sum_eq
  rw [hsame]
  exact le_of_add_le_add_right hle

end Totals

end FlowMerge.Matching
