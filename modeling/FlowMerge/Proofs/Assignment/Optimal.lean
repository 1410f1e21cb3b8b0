import FlowMerge.Proofs.Assignment.Placement
import FlowMerge.Proofs.Lists
import Mathlib.Algebra.BigOperators.Group.List.Basic
import Mathlib.Algebra.Order.BigOperators.Group.List
import Mathlib.Data.List.GetD

namespace FlowMerge.Assignment

open Score

variable {n : Nat} {cost : Nat → Nat → Rat} {s : State Rat} {m : CostMatrix Rat}

theorem exists_of_solve {columns : List Nat} (h : solve m = some columns) :
    ∃ s, fill m.length m.entry m.length = some s ∧ Placed m.length m.entry m.length s ∧
      Places m.length m.entry m.length s ∧
      columns = (List.range m.length).map (columnOf s.owner m.length) := by
  rw [solve_eq, Option.map_eq_some_iff] at h
  obtain ⟨s, hfill, rfl⟩ := h
  obtain ⟨hs, hplaces⟩ := placed_of_fill le_rfl hfill
  exact ⟨s, hfill, hs, hplaces, rfl⟩

theorem columnOf_spec {owner : Array Nat} (h : Seated n (owner.getD · 0) {k | k ≤ n ∧ k ≠ 0})
    {i : Nat} (hi : i < n) :
    columnOf owner n i < n ∧ owner.getD (columnOf owner n i + 1) 0 = i + 1 := by
  obtain ⟨j, ⟨hj, hj0⟩, hrow⟩ := h.onto (i + 1) (Nat.succ_pos i) hi
  obtain ⟨j, rfl⟩ := Nat.exists_eq_succ_of_ne_zero hj0
  rw [columnOf]
  cases hfind : (List.range n).find? fun j ↦ owner.getD (j + 1) 0 == i + 1 with
  | none =>
    have := List.find?_eq_none.1 hfind j (List.mem_range.2 hj)
    exact absurd (beq_iff_eq.2 hrow) this
  | some k =>
    exact ⟨List.mem_range.1 (List.mem_of_find?_eq_some hfind),
      beq_iff_eq.1 (List.find?_some (p := fun j ↦ owner.getD (j + 1) 0 == i + 1) hfind)⟩

theorem perm_columns {owner : Array Nat} (h : Seated n (owner.getD · 0) {k | k ≤ n ∧ k ≠ 0}) :
    ((List.range n).map (columnOf owner n)).Perm (List.range n) := by
  have hnodup : ((List.range n).map (columnOf owner n)).Nodup := by
    refine List.Nodup.map_on (fun i hi j hj he ↦ ?_) List.nodup_range
    have hrow := (columnOf_spec h (List.mem_range.1 hi)).2
    rw [he, (columnOf_spec h (List.mem_range.1 hj)).2] at hrow
    omega
  have hsub : (List.range n).map (columnOf owner n) ⊆ List.range n := by
    intro j hj
    obtain ⟨i, hi, rfl⟩ := List.mem_map.1 hj
    exact List.mem_range.2 (columnOf_spec h (List.mem_range.1 hi)).1
  refine (List.subperm_of_subset hnodup hsub).perm_of_length_le ?_
  rw [List.length_map]

theorem perm_solve {columns : List Nat} (h : solve m = some columns) :
    columns.Perm (List.range m.length) := by
  obtain ⟨s, -, hs, -, rfl⟩ := exists_of_solve h
  exact perm_columns hs.seated

theorem sum_eq (l : List Rat) : Score.sum l = l.sum := by
  rw [Score.sum, zero_eq, List.sum_eq_foldl]

theorem total_eq (m : CostMatrix Rat) (s : State Rat) {columns : List Nat}
    (hperm : columns.Perm (List.range n)) : total m columns =
      ((List.range n).map fun i ↦ s.rowPriceAt (i + 1)).sum +
        ((List.range n).map fun j ↦ s.columnPriceAt (j + 1)).sum +
          (columns.zipIdx.map fun (j, i) ↦ s.surplus m.entry (i + 1) (j + 1)).sum := by
  have hindex : columns.zipIdx.map Prod.snd = List.range n := by
    rw [List.zipIdx_map_snd, hperm.length_eq, List.length_range, List.range_eq_range']
  have hentry (x : Nat × Nat) : m.entry x.2 x.1 = s.rowPriceAt (x.2 + 1) +
      s.columnPriceAt (x.1 + 1) + s.surplus m.entry (x.2 + 1) (x.1 + 1) := by
    rw [State.surplus, Nat.add_sub_cancel, Nat.add_sub_cancel]
    ring
  have hrows : ((List.range n).map fun i ↦ s.rowPriceAt (i + 1)) =
      columns.zipIdx.map fun x ↦ s.rowPriceAt (x.2 + 1) := by
    rw [← hindex, List.map_map]
    rfl
  have hcolumns : (columns.zipIdx.map fun x ↦ s.columnPriceAt (x.1 + 1)).sum =
      ((List.range n).map fun j ↦ s.columnPriceAt (j + 1)).sum := by
    rw [← (hperm.map fun j ↦ s.columnPriceAt (j + 1)).sum_eq]
    conv => rhs; rw [← List.zipIdx_map_fst 0 columns, List.map_map]
    rfl
  rw [total, sum_eq, hrows, ← hcolumns, ← List.sum_map_add, ← List.sum_map_add]
  exact congrArg List.sum (List.map_congr_left fun x _ ↦ hentry x)

/-- No assignment has a lower total than one whose entries cost nothing above prices that no entry
is below. -/
theorem total_solve_le {columns other : List Nat} (h : solve m = some columns)
    (hperm : other.Perm (List.range m.length)) : total m columns ≤ total m other := by
  obtain ⟨s, -, hs, -, rfl⟩ := exists_of_solve h
  rw [total_eq m s (perm_columns hs.seated), total_eq m s hperm]
  refine add_le_add_right ?_ _
  trans 0
  · -- a row and its own column fit without a rest
    refine le_of_eq (List.sum_eq_zero fun x hx ↦ ?_)
    obtain ⟨⟨j, i⟩, hji, rfl⟩ := List.mem_map.1 hx
    rw [List.mem_zipIdx_iff_getElem?, List.getElem?_map, Option.map_eq_some_iff] at hji
    dsimp only at hji
    obtain ⟨k, hk, rfl⟩ := hji
    obtain ⟨hi, rfl⟩ := List.getElem?_eq_some_iff.1 hk
    rw [List.length_range] at hi
    rw [List.getElem_range]
    obtain ⟨hlt, hrow⟩ := columnOf_spec hs.seated hi
    dsimp only at hlt hrow ⊢
    rw [← hrow]
    exact hs.tight _ hlt (Nat.succ_pos _) (ne_of_eq_of_ne hrow (Nat.succ_ne_zero i))
  · -- and no entry is below the prices
    refine List.sum_nonneg fun x hx ↦ ?_
    obtain ⟨⟨j, i⟩, hji, rfl⟩ := List.mem_map.1 hx
    rw [List.mem_zipIdx_iff_getElem?] at hji
    dsimp only at hji
    obtain ⟨hi, rfl⟩ := List.getElem?_eq_some_iff.1 hji
    have hj := List.mem_range.1 (hperm.subset (List.getElem_mem hi))
    dsimp only at hi ⊢
    rw [hperm.length_eq, List.length_range] at hi
    exact hs.feasible _ (Nat.succ_pos _) hi _ hj (Nat.succ_pos _)

section Diagonal

variable {r k l : Nat} {s' : State Rat} {q q' : Search Rat} {owner : Array Nat}

/-- While a search for row `r` is on where the prices are zero and each placed row has its own
column: no column after that of the row is looked at, and the way back from it is direct. -/
structure Calm (r : Nat) (owner : Array Nat) (s : State Rat) (q : Search Rat) : Prop where
  owner : s.owner = owner
  rowPriceAt : s.rowPriceAt = fun _ ↦ 0
  columnPriceAt : s.columnPriceAt = fun _ ↦ 0
  column_le : q.column ≤ r
  free : q.reached r = false
  seen : q.column ≠ 0 → q.slackAt r = some 0 ∧ q.before r = 0

theorem Calm.excess_nonneg (h : Calm r owner s q) (hcost : ∀ i j, 0 ≤ cost i j) (i j : Nat) :
    0 ≤ s.excess cost i j := by
  rw [State.excess, State.surplus, h.rowPriceAt, h.columnPriceAt, sub_zero, sub_zero]
  exact hcost _ _

theorem Calm.step {amount : Rat} (h : Calm r owner s q) (hq : Searching n cost r s q)
    (hrow : s.row q.column ≠ 0) (hcost : ∀ i j, 0 ≤ cost i j) (hdiag : cost (r - 1) (r - 1) = 0)
    (hfree : owner.getD r 0 = 0) (hadv : Advanced n cost s q amount s' q') :
    Calm r owner s' q' := by
  have hne : r ≠ q.column := by
    rintro rfl
    rw [State.row, h.owner] at hrow
    exact hrow hfree
  have hunreached : q.visit.reached r = false := by
    refine Bool.eq_false_iff.2 fun hr ↦ ?_
    rcases hq.reached_visit.1 hr with hr | hr
    · exact hne hr
    · simp [h.free] at hr
  obtain ⟨x, hx, hle, hfirst, hcostx, hmin⟩ := hadv.seen r hq.pos hq.le hunreached
  have hvia := hadv.origin r hq.le hq.pos hunreached _ hx
  have hamount : 0 ≤ amount := Searching.excess_column hadv ▸ h.excess_nonneg hcost _ _
  -- the entry of row `r` at column `r` costs nothing from column zero
  have hboth : x ≤ 0 ∧ q'.before r = 0 := by
    by_cases hc : q.column = 0
    · have hzero : s.excess cost q.column r = 0 := by
        rw [State.excess, State.surplus, h.rowPriceAt, h.columnPriceAt, hc, hq.top, hdiag,
          sub_zero, sub_zero]
      refine ⟨hzero ▸ hmin _ (hq.reached_visit.2 (.inl rfl)), ?_⟩
      rcases hq.reached_visit.1 hvia with he | hr
      · exact he.trans hc
      · simp [hq.first hc] at hr
    · obtain ⟨hslack, hbefore⟩ := h.seen hc
      have hreached := hq.origin r hq.le hq.pos h.free 0 hslack
      obtain ⟨hzero, -⟩ := hq.seen r hq.le hq.pos h.free 0 hslack
      refine ⟨hzero ▸ hmin _ (hq.reached_visit.2 (.inr hreached)), ?_⟩
      exact (hadv.unseen r hq.pos hq.le hunreached 0 hslack (h.excess_nonneg hcost _ _)).trans
        hbefore
  have hx0 : x = 0 := by linarith [hboth.1]
  have hamount0 : amount = 0 := by linarith [hboth.1]
  obtain ⟨hrows, hcolumns⟩ := hadv.unmoved hamount0
  refine ⟨hadv.owner.trans h.owner, hrows.trans h.rowPriceAt, hcolumns.trans h.columnPriceAt, ?_,
    (hadv.reached r).trans hunreached, fun _ ↦ ⟨?_, hboth.2⟩⟩
  · by_contra hlt
    have := hfirst (not_le.1 hlt)
    linarith [hboth.1]
  · rw [hx, hx0, hamount0, sub_zero]

structure Identical (r : Nat) (s : State Rat) : Prop where
  rowPriceAt : s.rowPriceAt = fun _ ↦ 0
  columnPriceAt : s.columnPriceAt = fun _ ↦ 0
  row : ∀ j, 0 < j → j ≤ r → s.row j = j

theorem identical_start : Identical 0 (start n : State Rat) := by
  have hprice (i : Nat) : price (Array.replicate (n + 1) (zero : Rat)) i = 0 := by
    rw [price, getD_replicate, zero_eq, ite_self]
  exact ⟨funext hprice, funext hprice, fun j hj hj0 ↦ by omega⟩

theorem Identical.row_succ (h : Identical r s) (hs : Placed n cost r s) (hr : r < n) :
    s.row (r + 1) = 0 := by
  by_contra hrow
  have hle : s.row (r + 1) ≤ r := hs.seated.le (r + 1) ⟨hr, Nat.succ_ne_zero r⟩
  have hsame := h.row _ (Nat.pos_of_ne_zero hrow) hle
  have heq : r + 1 = s.row (r + 1) := hs.seated.inj (r + 1) ⟨hr, Nat.succ_ne_zero r⟩ _
    ⟨hle.trans hs.le, hrow⟩ hsame.symm hrow
  omega

theorem Identical.place (h : Identical r s) (hs : Placed n cost r s) (hr : r < n)
    (hcost : ∀ i j, 0 ≤ cost i j) (hdiag : cost r r = 0) :
    ∃ s', place n cost s (r + 1) = some s' ∧ Identical (r + 1) s' := by
  obtain ⟨k, l, s', q, owner, hsearch, hshift, hplace, hnext⟩ := hs.exists_place hr
  have hwait := hs.row_waiting
  have hstart := hs.searching hr
  have hfree : State.row { s with owner := s.owner.setIfInBounds 0 (r + 1) } (r + 1) = 0 := by
    rw [hwait, if_neg (Nat.succ_ne_zero r), h.row_succ hs hr]
  have hcalm : Calm (r + 1) (s.owner.setIfInBounds 0 (r + 1))
      { s with owner := s.owner.setIfInBounds 0 (r + 1) } (.fresh n) := by
    exact ⟨rfl, h.rowPriceAt, h.columnPriceAt, Nat.zero_le _, Search.reached_fresh n _,
      fun hc ↦ absurd rfl hc⟩
  obtain ⟨hend, hfound, hcalm'⟩ := hsearch.keeps_prices hstart hstart.row_zero_ne hcalm
    fun s q amount s' q' hq hrow hcalm hadv ↦ hcalm.step hq hrow hcost hdiag hfree hadv
  have hrows (j : Nat) : s'.row j = if j = 0 then r + 1 else s.row j := by
    rw [← hwait, State.row, hcalm'.owner, State.row]
  -- all columns up to `r` have rows, so that the search ends right after them
  have hcolumn : q.column = r + 1 := by
    have hc := hend.column_ne_zero hfound
    by_contra hne
    have hlt : q.column ≤ r := Nat.le_of_lt_succ (lt_of_le_of_ne hcalm'.column_le hne)
    rw [hrows, if_neg hc, h.row _ (Nat.pos_of_ne_zero hc) hlt] at hfound
    exact hc hfound
  -- from there the way back is a single step
  have howner : owner = s'.owner.setIfInBounds (r + 1) (r + 1) := by
    have hbefore : q.previous.getD (r + 1) 0 = 0 := (hcalm'.seen (hend.column_ne_zero hfound)).2
    have h0 : s'.owner.getD 0 0 = r + 1 := (hrows 0).trans (if_pos rfl)
    rw [hcolumn] at hshift
    cases hshift with
    | last _ => rw [h0]
    | next hne _ => exact absurd hbefore hne
  refine ⟨_, hplace, hcalm'.rowPriceAt, hcalm'.columnPriceAt, fun j hj hjr ↦ ?_⟩
  rw [State.row, howner, getD_setIfInBounds (by rw [hend.state.owner]; omega)]
  split
  · next he => exact he.symm
  · next hne =>
    change s'.row j = j
    rw [hrows, if_neg hj.ne', h.row j hj (by omega)]

theorem identical_of_fill (hr : r ≤ n) (hcost : ∀ i j, 0 ≤ cost i j)
    (hdiag : ∀ i < n, cost i i = 0) (h : fill n cost r = some s) : Identical r s := by
  induction r generalizing s with
  | zero =>
    obtain rfl : start n = s := Option.some_inj.1 h
    exact identical_start
  | succ r ih =>
    rw [fill_succ, Option.bind_eq_some_iff] at h
    obtain ⟨s₀, hfill, hplace⟩ := h
    have hr' := Nat.le_of_succ_le hr
    obtain ⟨s', hplace', hs'⟩ := (ih hr' hfill).place (placed_of_fill hr' hfill).1 hr hcost
      (hdiag r hr)
    rw [hplace, Option.some_inj] at hplace'
    exact hplace' ▸ hs'

end Diagonal

/-- Where no cost is negative and each row has a column of its own that costs nothing, it gets
that column. -/
theorem solve_eq_range (hcost : ∀ i j, 0 ≤ m.entry i j) (hdiag : ∀ i < m.length, m.entry i i = 0) :
    solve m = some (List.range m.length) := by
  obtain ⟨columns, hsolve⟩ := exists_solve m
  obtain ⟨s, hfill, hs, -, rfl⟩ := exists_of_solve hsolve
  have h := identical_of_fill le_rfl hcost hdiag hfill
  rw [hsolve, Option.some_inj]
  refine (List.map_congr_left fun i hi ↦ ?_).trans (List.map_id _)
  have hi := List.mem_range.1 hi
  obtain ⟨hlt, hrow⟩ := columnOf_spec hs.seated hi
  have hown := h.row (i + 1) (Nat.succ_pos i) hi
  have hsame := hs.seated.inj _ ⟨hlt, Nat.succ_ne_zero _⟩ _ ⟨hi, Nat.succ_ne_zero i⟩
    (hrow.trans hown.symm) (ne_of_eq_of_ne hrow (Nat.succ_ne_zero i))
  exact Nat.succ_inj.1 hsame

theorem entry_eq_zero (hm : m.isSquare = true) {i j : Nat} (h : m.length ≤ i ∨ m.length ≤ j) :
    m.entry i j = 0 := by
  rw [CostMatrix.entry, zero_eq]
  rcases h with hi | hj
  · rw [List.getD_eq_default _ _ hi, List.getD_nil]
  · by_cases hi : i < m.length
    · have hrow := beq_iff_eq.1 (List.all_eq_true.1 hm m[i] (List.getElem_mem hi))
      rw [List.getD_eq_getElem _ _ hi, List.getD_eq_default _ _ (hrow.trans_le hj)]
    · rw [List.getD_eq_default _ _ (not_lt.1 hi), List.getD_nil]

/-- Every square matrix has an assignment: all searches and all ways back come to an end, the
columns are permuted and no other permutation has a lower total. -/
theorem least_total (m : CostMatrix Rat) (hm : m.isSquare = true) :
    ∃ columns, solve? m = some columns ∧
      (∃ s, Places m.length m.entry m.length s ∧
        columns = (List.range m.length).map (columnOf s.owner m.length)) ∧
      columns.Perm (List.range m.length) ∧
      (∀ other, other.Perm (List.range m.length) → total m columns ≤ total m other) ∧
      ((∀ i < m.length, ∀ j < m.length, 0 ≤ m.entry i j) → (∀ i < m.length, m.entry i i = 0) →
        columns = List.range m.length) := by
  obtain ⟨columns, hsolve⟩ := exists_solve m
  obtain ⟨s, -, hs, hplaces, rfl⟩ := exists_of_solve hsolve
  refine ⟨_, (if_pos hm).trans hsolve, ⟨s, hplaces, rfl⟩, perm_columns hs.seated,
    fun other hother ↦ total_solve_le hsolve hother, fun hcost hdiag ↦ ?_⟩
  rw [solve_eq_range (fun i j ↦ ?_) hdiag, Option.some_inj] at hsolve
  · exact hsolve.symm
  · by_cases hij : i < m.length ∧ j < m.length
    · exact hcost i hij.1 j hij.2
    · exact (entry_eq_zero hm (by omega)).ge

theorem least_total_ties :
    let m : CostMatrix Rat := [[0, 0, 1], [0, 0, 0], [2, 0, 0]]
    m.isSquare = true ∧ (∀ i < m.length, ∀ j < m.length, 0 ≤ m.entry i j) ∧
      (∀ i < m.length, m.entry i i = 0) ∧ solve? m = some [0, 1, 2] ∧
        total m [0, 1, 2] ≤ total m [1, 0, 2] := by
  intro m
  have hcost : ∀ i < m.length, ∀ j < m.length, 0 ≤ m.entry i j := by decide
  have hdiag : ∀ i < m.length, m.entry i i = 0 := by decide
  obtain ⟨columns, hsolve, -, -, hleast, hown⟩ := least_total m rfl
  obtain rfl : columns = [0, 1, 2] := hown hcost hdiag
  exact ⟨rfl, hcost, hdiag, hsolve, hleast [1, 0, 2] (by decide)⟩

end FlowMerge.Assignment
