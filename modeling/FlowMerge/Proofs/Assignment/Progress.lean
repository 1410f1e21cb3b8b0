import FlowMerge.Proofs.Assignment.Rounds
import FlowMerge.Proofs.Lists
import Mathlib.Order.Interval.Finset.Nat
import Mathlib.Tactic.Push

namespace FlowMerge.Assignment

open Score

variable {α : Type} {n r : Nat} {s s' : State α} {q q' : Search α} {j k : Nat}

structure Seated (r : Nat) (row : Nat → Nat) (seats : Set Nat) : Prop where
  le : ∀ j ∈ seats, row j ≤ r
  inj : ∀ i ∈ seats, ∀ j ∈ seats, row i = row j → row i ≠ 0 → i = j
  onto : ∀ i, 0 < i → i ≤ r → ∃ j ∈ seats, row j = i

theorem Seated.exists_free {row : Nat → Nat} (h : Seated r row {j | j ≤ n}) (hr : r ≤ n) :
    ∃ j ≤ n, row j = 0 := by
  by_contra hnone
  push Not at hnone
  have hmaps : ∀ j ∈ Finset.range (n + 1), row j ∈ Finset.Icc 1 r := by
    intro j hj
    have hjn := Nat.le_of_lt_succ (Finset.mem_range.1 hj)
    exact Finset.mem_Icc.2 ⟨Nat.pos_of_ne_zero (hnone j hjn), h.le j hjn⟩
  have hinj : Set.InjOn row (Finset.range (n + 1)) := by
    intro i hi j hj he
    have hin := Nat.le_of_lt_succ (Finset.mem_range.1 hi)
    exact h.inj i hin j (Nat.le_of_lt_succ (Finset.mem_range.1 hj)) he (hnone i hin)
  have hcard := Finset.card_le_card_of_injOn row hmaps hinj
  rw [Finset.card_range, Nat.card_Icc] at hcard
  omega

/-- The columns on the way back from a column to column zero. All of them are reached. -/
inductive Trail (q : Search α) : Nat → List Nat → Prop
  | zero : Trail q 0 []
  | step {j : Nat} {path : List Nat} : j ≠ 0 → q.reached (q.before j) = true →
      Trail q (q.before j) path → Trail q j (q.before j :: path)

namespace Trail

variable {path : List Nat}

theorem congr (h : Trail q j path) (hreached : ∀ k, q.reached k = true → q'.reached k = true)
    (hbefore : ∀ k, q.reached k = true ∨ k = j → q'.before k = q.before k) : Trail q' j path := by
  induction h with
  | zero => exact .zero
  | @step j path hj hr _ ih =>
    have he := hbefore j (.inr rfl)
    rw [← he]
    refine .step hj (he ▸ hreached _ hr) (he ▸ ih fun k hk ↦ hbefore k ?_)
    rcases hk with hk | rfl
    · exact .inl hk
    · exact .inl hr

theorem reached_before (h : Trail q j path) (hj : j ≠ 0) : q.reached (q.before j) = true := by
  cases h with
  | zero => exact absurd rfl hj
  | step _ hr _ => exact hr

theorem unique {path' : List Nat} (h : Trail q j path) (h' : Trail q j path') : path = path' := by
  induction h generalizing path' with
  | zero =>
    cases h' with
    | zero => rfl
    | step hj _ _ => exact absurd rfl hj
  | step hj _ _ ih =>
    cases h' with
    | zero => exact absurd rfl hj
    | step _ _ h' => rw [ih h']

theorem exists_shorter (h : Trail q j path) (hk : k ∈ path) :
    ∃ path', Trail q k path' ∧ path'.length < path.length := by
  induction h with
  | zero => cases hk
  | @step j path _ _ h ih =>
    rcases List.mem_cons.1 hk with rfl | hk
    · exact ⟨path, h, Nat.lt_succ_self _⟩
    · obtain ⟨path', h', hlt⟩ := ih hk
      exact ⟨path', h', Nat.lt_succ_of_lt hlt⟩

theorem nodup (h : Trail q j path) : (j :: path).Nodup := by
  induction h with
  | zero => exact List.nodup_singleton 0
  | @step j path hj hr h ih =>
    refine List.nodup_cons.2 ⟨fun hmem ↦ ?_, ih⟩
    -- a column on its own way back would have a shorter way back
    have hown : Trail q j (q.before j :: path) := .step hj hr h
    obtain ⟨path', h', hlt⟩ := hown.exists_shorter hmem
    rw [h'.unique hown] at hlt
    exact Nat.lt_irrefl _ hlt

theorem reached_of_mem (h : Trail q j path) (hk : k ∈ path) : q.reached k = true := by
  induction h with
  | zero => cases hk
  | step _ hr _ ih =>
    rcases List.mem_cons.1 hk with rfl | hk
    · exact hr
    · exact ih hk

theorem before_mem (h : Trail q j path) (hk : k ∈ j :: path) (hk0 : k ≠ 0) :
    q.before k ∈ path := by
  induction h with
  | zero =>
    rw [List.mem_singleton] at hk
    exact absurd hk hk0
  | step _ _ _ ih =>
    rcases List.mem_cons.1 hk with rfl | hk
    · exact List.mem_cons_self
    · exact List.mem_cons_of_mem _ (ih hk)

end Trail

/-- A search for a column for row `r`, between two rounds. The column at hand is about to be
reached; at first it is column zero, where the row waits. -/
structure Exploring (n r : Nat) (s : State α) (q : Search α) : Prop where
  state : s.Sized n
  search : q.Sized n
  le : r ≤ n
  pos : 0 < r
  top : s.row 0 = r
  seated : Seated r s.row {j | j ≤ n}
  column_le : q.column ≤ n
  column_free : q.reached q.column = false
  row_reached : ∀ j, q.reached j = true → s.row j ≠ 0
  trail : ∀ j, q.reached j = true ∨ j = q.column → ∃ path, Trail q j path
  origin : ∀ j ≤ n, 0 < j → q.reached j = false → ∀ x, q.slackAt j = some x →
    q.reached (q.before j) = true

theorem Exploring.row_zero_ne (h : Exploring n r s q) : s.row 0 ≠ 0 := h.top.trans_ne h.pos.ne'

theorem Search.reached_fresh (n j : Nat) : (Search.fresh n : Search α).reached j = false := by
  rw [Search.reached, Search.fresh, getD_replicate, ite_self]

theorem Search.slackAt_fresh (n j : Nat) : (Search.fresh n : Search α).slackAt j = none := by
  rw [Search.slackAt, Search.fresh, getD_replicate, ite_self]

theorem Search.Sized.le_of_reached (h : q.Sized n) (hj : q.reached j = true) : j ≤ n := by
  by_contra hlt
  rw [reached, Array.getD_eq_getD_getElem?, Array.getElem?_eq_none (by rw [h.visited]; omega)] at hj
  cases hj

structure Explored (n : Nat) (s : State α) (q : Search α) (s' : State α) (q' : Search α) :
    Prop where
  owner : s'.owner = s.owner
  state : s'.Sized n
  search : q'.Sized n
  reached : ∀ j, q'.reached j = q.visit.reached j
  before : ∀ j, q.visit.reached j = true → q'.before j = q.before j
  column_pos : 0 < q'.column
  column_le : q'.column ≤ n
  column_free : q.visit.reached q'.column = false
  column_from : q.visit.reached (q'.before q'.column) = true
  origin : ∀ j ≤ n, 0 < j → q.visit.reached j = false → ∀ x, q'.slackAt j = some x →
    q.visit.reached (q'.before j) = true

theorem Explored.row_eq (h : Explored n s q s' q') : s'.row = s.row := by
  funext j
  rw [State.row, h.owner, State.row]

namespace Exploring

variable (h : Exploring n r s q)
include h

theorem reached_visit : q.visit.reached j = true ↔ j = q.column ∨ q.reached j = true := by
  rw [Search.reached, Search.visit,
    getD_setIfInBounds (by rw [h.search.visited]; exact Nat.lt_succ_of_le h.column_le)]
  by_cases hj : j = q.column <;> simp [hj, Search.reached]

theorem sized_visit : q.visit.Sized n :=
  ⟨h.search.slack, h.search.previous, by
    rw [Search.visit, Array.size_setIfInBounds, h.search.visited]⟩

theorem row_ne_of_visit (hrow : s.row q.column ≠ 0) (hj : q.visit.reached j = true) :
    s.row j ≠ 0 := by
  rcases h.reached_visit.1 hj with rfl | hj
  · exact hrow
  · exact h.row_reached j hj

theorem exists_trail (hexp : Explored n s q s' q') (hj : q.visit.reached j = true) :
    ∃ path, Trail q' j path := by
  obtain ⟨path, hpath⟩ := h.trail j (h.reached_visit.1 hj).symm
  refine ⟨path, hpath.congr (fun k hk ↦ ?_) fun k hk ↦ hexp.before k ?_⟩
  · exact (hexp.reached k).trans (h.reached_visit.2 (.inr hk))
  · rcases hk with hk | rfl
    · exact h.reached_visit.2 (.inr hk)
    · exact hj

theorem explore (hrow : s.row q.column ≠ 0) (hexp : Explored n s q s' q') :
    Exploring n r s' q' := by
  have hrow' := hexp.row_eq
  exact {
    state := hexp.state
    search := hexp.search
    le := h.le
    pos := h.pos
    top := hrow' ▸ h.top
    seated := hrow' ▸ h.seated
    column_le := hexp.column_le
    column_free := (hexp.reached _).trans hexp.column_free
    row_reached j hj := hrow' ▸ h.row_ne_of_visit hrow ((hexp.reached j).symm.trans hj)
    trail j hj := by
      rcases hj with hj | rfl
      · exact h.exists_trail hexp ((hexp.reached j).symm.trans hj)
      · obtain ⟨path, hpath⟩ := h.exists_trail hexp hexp.column_from
        exact ⟨_, .step hexp.column_pos.ne' ((hexp.reached _).trans hexp.column_from) hpath⟩
    origin j hj hj0 hjr x hx := (hexp.reached _).trans
      (hexp.origin j hj hj0 ((hexp.reached j).symm.trans hjr) x hx) }

end Exploring

def Search.left (n : Nat) (q : Search α) : Nat :=
  ((Finset.range (n + 1)).filter fun j ↦ q.reached j = false).card

theorem Search.left_le (n : Nat) (q : Search α) : q.left n ≤ n + 1 :=
  (Finset.card_filter_le _ _).trans_eq (Finset.card_range _)

theorem Exploring.left_lt (h : Exploring n r s q) (hexp : Explored n s q s' q') :
    q'.left n < q.left n := by
  have hmem : q.column ∈ Finset.range (n + 1) := Finset.mem_range.2 (Nat.lt_succ_of_le h.column_le)
  have hat : q'.reached q.column = true := (hexp.reached _).trans (h.reached_visit.2 (.inl rfl))
  refine Finset.card_lt_card ((Finset.ssubset_iff_of_subset fun j hj ↦ ?_).2
    ⟨q.column, Finset.mem_filter.2 ⟨hmem, h.column_free⟩, by simp [hat]⟩)
  rw [Finset.mem_filter, hexp.reached, Bool.eq_false_iff] at hj
  exact Finset.mem_filter.2 ⟨hj.1, Bool.eq_false_iff.2 fun hr ↦ hj.2 (h.reached_visit.2 (.inr hr))⟩

/-- Owners of the columns without column `j`, where each fits in its own column. -/
structure Fitted (n r : Nat) (fits : Nat → Nat → Prop) (owner : Array Nat) (j : Nat) : Prop where
  size : owner.size = n + 1
  seated : Seated r (owner.getD · 0) {k | k ≤ n ∧ k ≠ j}
  fits : ∀ k ≤ n, 0 < k → k ≠ j → owner.getD k 0 ≠ 0 → fits (owner.getD k 0) k

section WayBack

variable {fits : Nat → Nat → Prop} {owner : Array Nat}

theorem Fitted.handed_on (h : Fitted n r fits owner j) (hj : j ≤ n) (hk : k ≤ n) (hkj : k ≠ j)
    (hfit : fits (owner.getD k 0) j) :
    Fitted n r fits (owner.setIfInBounds j (owner.getD k 0)) k := by
  have hsize : j < owner.size := by rw [h.size]; omega
  have hget (i : Nat) : (owner.setIfInBounds j (owner.getD k 0)).getD i 0 =
      if i = j then owner.getD k 0 else owner.getD i 0 := getD_setIfInBounds hsize
  refine ⟨by rw [Array.size_setIfInBounds, h.size], ⟨fun i hi ↦ ?_, ?_, fun i hi hir ↦ ?_⟩,
    fun i hi hi0 hik hrow ↦ ?_⟩
  · rw [hget]
    split
    · exact h.seated.le k ⟨hk, hkj⟩
    · next hij => exact h.seated.le i ⟨hi.1, hij⟩
  · intro a ha b hb he ha0
    rw [hget] at he ha0
    rw [hget] at he
    -- column `k` no longer counts, and `j` has its row
    split_ifs at he ha0 with haj hbj hbj
    · rw [haj, hbj]
    · exact absurd (h.seated.inj k ⟨hk, hkj⟩ b ⟨hb.1, hbj⟩ he ha0) hb.2.symm
    · exact absurd (h.seated.inj a ⟨ha.1, haj⟩ k ⟨hk, hkj⟩ he ha0) ha.2
    · exact h.seated.inj a ⟨ha.1, haj⟩ b ⟨hb.1, hbj⟩ he ha0
  · obtain ⟨m, hm, rfl⟩ := h.seated.onto i hi hir
    by_cases hmk : m = k
    · refine ⟨j, ⟨hj, hkj.symm⟩, ?_⟩
      rw [hget, if_pos rfl, hmk]
    · refine ⟨m, ⟨hm.1, hmk⟩, ?_⟩
      rw [hget, if_neg hm.2]
  · rw [hget] at hrow ⊢
    split_ifs at hrow ⊢ with hij
    · exact hij ▸ hfit
    · exact h.fits i hi hi0 hij hrow

theorem Trail.exists_shifts {path : List Nat} (h : Trail q j path) (hj : j ≠ 0)
    (hnodup : (j :: path).Nodup) (hle : ∀ k ∈ j :: path, k ≤ n)
    (hedge : ∀ k ∈ j :: path, k ≠ 0 → fits (owner.getD (q.before k) 0) k)
    (hfit : Fitted n r fits owner j) :
    ∃ owner', Shifts q.previous path.length owner j owner' ∧ Fitted n r fits owner' 0 := by
  induction h generalizing owner with
  | zero => exact absurd rfl hj
  | @step j path hj' hr htrail ih =>
    obtain ⟨hnot, hnodup'⟩ := List.nodup_cons.1 hnodup
    have hkj : q.before j ≠ j := fun he ↦ hnot (List.mem_cons.2 (.inl he.symm))
    have hstep := hfit.handed_on (hle j List.mem_cons_self)
      (hle (q.before j) (List.mem_cons_of_mem _ List.mem_cons_self)) hkj
      (hedge j List.mem_cons_self hj)
    -- the columns further back have the owners that they had
    have hedge' : ∀ k ∈ q.before j :: path, k ≠ 0 →
        fits ((owner.setIfInBounds j (owner.getD (q.before j) 0)).getD (q.before k) 0) k := by
      intro k hk hk0
      have hne : q.before k ≠ j := fun he ↦
        hnot (List.mem_cons_of_mem _ (he ▸ htrail.before_mem hk hk0))
      have hsize : j < owner.size := by
        rw [hfit.size]
        exact Nat.lt_succ_of_le (hle j List.mem_cons_self)
      rw [getD_setIfInBounds hsize, if_neg hne]
      exact hedge k (List.mem_cons_of_mem _ hk) hk0
    by_cases hk : q.before j = 0
    · have hpath : path = [] := by
        rw [hk] at htrail
        cases htrail with
        | zero => rfl
        | step h0 _ _ => exact absurd rfl h0
      rw [hpath]
      rw [hk] at hstep
      exact ⟨_, .last hk, hstep⟩
    · obtain ⟨owner', hshift, hdone⟩ := ih hk hnodup'
        (fun k hk ↦ hle k (List.mem_cons_of_mem _ hk)) hedge' hstep
      exact ⟨owner', .next hk hshift, hdone⟩

theorem Exploring.column_ne_zero (h : Exploring n r s q) (hfound : s.row q.column = 0) :
    q.column ≠ 0 := fun h0 ↦ h.row_zero_ne (h0 ▸ hfound)

/-- From the end of a search the way back comes to column zero, and gives every row a column. -/
theorem Exploring.exists_way_back (h : Exploring n r s q) (hfound : s.row q.column = 0)
    (fits : Nat → Nat → Prop)
    (hfits : ∀ k ≤ n, 0 < k → s.row k ≠ 0 → fits (s.row k) k)
    (hedge : ∀ k, q.reached k = true ∨ k = q.column → k ≠ 0 → fits (s.row (q.before k)) k) :
    ∃ l owner, l ≤ n ∧ Shifts q.previous l s.owner q.column owner ∧
      Fitted n r fits owner 0 := by
  have hfitted : Fitted n r fits s.owner q.column := by
    refine ⟨h.state.owner, ⟨fun k hk ↦ h.seated.le k hk.1,
      fun a ha b hb ↦ h.seated.inj a ha.1 b hb.1, fun i hi hir ↦ ?_⟩,
      fun k hk hk0 _ hkr ↦ hfits k hk hk0 hkr⟩
    obtain ⟨k, hk, rfl⟩ := h.seated.onto i hi hir
    exact ⟨k, ⟨hk, fun hkc ↦ hi.ne' (hkc ▸ hfound)⟩, rfl⟩
  obtain ⟨path, htrail⟩ := h.trail q.column (.inr rfl)
  have hon : ∀ i ∈ q.column :: path, q.reached i = true ∨ i = q.column := by
    intro i hi
    rcases List.mem_cons.1 hi with rfl | hi
    · exact .inr rfl
    · exact .inl (htrail.reached_of_mem hi)
  have hle : ∀ i ∈ q.column :: path, i ≤ n := by
    intro i hi
    rcases hon i hi with hi | rfl
    · exact h.search.le_of_reached hi
    · exact h.column_le
  have hlength : path.length ≤ n := by
    have hsub := List.subperm_of_subset htrail.nodup fun i hi ↦
      List.mem_range.2 (Nat.lt_succ_of_le (hle i hi))
    have hlength := hsub.length_le
    rw [List.length_cons, List.length_range] at hlength
    omega
  obtain ⟨owner, hshift, hdone⟩ := htrail.exists_shifts (h.column_ne_zero hfound) htrail.nodup hle
    (fun i hi ↦ hedge i (hon i hi)) hfitted
  exact ⟨path.length, owner, hlength, hshift, hdone⟩

end WayBack

structure Arranged (n r : Nat) (s : State α) : Prop where
  le : r ≤ n
  state : s.Sized n
  seated : Seated r s.row {k | k ≤ n ∧ k ≠ 0}

namespace Arranged

variable (h : Arranged n r s)
include h

theorem row_waiting (j : Nat) :
    State.row { s with owner := s.owner.setIfInBounds 0 (r + 1) } j =
      if j = 0 then r + 1 else s.row j :=
  getD_setIfInBounds (by rw [h.state.owner]; exact Nat.succ_pos n)

theorem seated_waiting :
    Seated (r + 1) (State.row { s with owner := s.owner.setIfInBounds 0 (r + 1) })
      {j | j ≤ n} := by
  have hrow := h.row_waiting
  have hle {k : Nat} (hk : k ≤ n) (hk0 : k ≠ 0) : s.row k ≤ r := h.seated.le k ⟨hk, hk0⟩
  refine ⟨fun j hj ↦ ?_, fun i hi j hj he hi0 ↦ ?_, fun i hi hir ↦ ?_⟩
  · rw [hrow]
    split
    · exact le_rfl
    · next hj0 => exact (hle hj hj0).trans (Nat.le_succ r)
  · rw [hrow] at he hi0
    rw [hrow] at he
    split_ifs at he hi0 with hiz hjz hjz
    · rw [hiz, hjz]
    · have := hle hj hjz
      omega
    · have := hle hi hiz
      omega
    · exact h.seated.inj i ⟨hi, hiz⟩ j ⟨hj, hjz⟩ he hi0
  · by_cases hir' : i = r + 1
    · exact ⟨0, Nat.zero_le n, (hrow 0).trans ((if_pos rfl).trans hir'.symm)⟩
    · obtain ⟨j, ⟨hj, hj0⟩, he⟩ := h.seated.onto i hi (by omega)
      exact ⟨j, hj, (hrow j).trans ((if_neg hj0).trans he)⟩

theorem exploring (hr : r < n) :
    Exploring n (r + 1) { s with owner := s.owner.setIfInBounds 0 (r + 1) } (.fresh n) := by
  exact {
    state := ⟨h.state.rowPrice, h.state.columnPrice, by
      rw [Array.size_setIfInBounds, h.state.owner]⟩
    search := ⟨Array.size_replicate, Array.size_replicate, Array.size_replicate⟩
    le := hr
    pos := Nat.succ_pos r
    top := (h.row_waiting 0).trans (if_pos rfl)
    seated := h.seated_waiting
    column_le := Nat.zero_le n
    column_free := Search.reached_fresh n 0
    row_reached j hj := absurd hj (by simp [Search.reached_fresh])
    trail j hj := by
      rcases hj with hj | rfl
      · simp [Search.reached_fresh] at hj
      · exact ⟨[], .zero⟩
    origin j _ _ _ x hx := absurd (hx.symm.trans (Search.slackAt_fresh n j))
      (Option.some_ne_none x) }

end Arranged

section Score

variable [Score α] {cost : Nat → Nat → α}

theorem Repriced.state_sized {amount : α} (h : Repriced amount s q k s' q') (hs : s.Sized n) :
    s'.Sized n where
  rowPrice := h.rowPrice_size.trans hs.rowPrice
  columnPrice := h.columnPrice_size.trans hs.columnPrice
  owner := by rw [h.owner, hs.owner]

theorem Repriced.search_sized {amount : α} (h : Repriced amount s q k s' q') (hq : q.Sized n) :
    q'.Sized n where
  slack := h.slack_size.trans hq.slack
  previous := by rw [h.previous, hq.previous]
  visited := by rw [h.visited, hq.visited]

namespace Exploring

variable (h : Exploring n r s q) {q₁ : Search α} {least : Option α} {best : Nat}
include h

theorem origin_of_scanned (hscan : Scanned cost s q.visit n q₁ least best) (hj : 0 < j)
    (hjn : j ≤ n) (hr : q.visit.reached j = false) {x : α} (hx : q₁.slackAt j = some x) :
    q.visit.reached (q₁.before j) = true := by
  have hs := hscan.seen j hj hjn hr
  split at hs
  · exact hs.2 ▸ h.reached_visit.2 (.inl rfl)
  · have hr' : q.reached j = false := by
      rw [Bool.eq_false_iff] at hr ⊢
      exact fun hj ↦ hr (h.reached_visit.2 (.inr hj))
    rw [hs.2]
    exact h.reached_visit.2 (.inr (h.origin j hjn hj hr' x (hs.1.symm.trans hx)))

variable (hrow : s.row q.column ≠ 0)
include hrow

theorem repriced_of_scanned (hscan : Scanned cost s q.visit n q₁ least best) (amount : α) :
    Repriced amount s q₁ (n + 1) (reprice n amount s q₁).1 (reprice n amount s q₁).2 := by
  refine repriced_reprice amount h.state (hscan.sized h.sized_visit)
    (fun j hj ↦ (h.seated.le j hj).trans h.le) fun i hi j hj hri _ he ↦ ?_
  rw [hscan.reached] at hri
  exact h.seated.inj i hi j hj he (h.row_ne_of_visit hrow hri)

theorem explored_of_scanned {amount : α} (hscan : Scanned cost s q.visit n q₁ (some amount) best) :
    Explored n s q (reprice n amount s q₁).1
      { (reprice n amount s q₁).2 with column := best } := by
  have hprice := h.repriced_of_scanned hrow hscan amount
  obtain ⟨hpos, hle, hnew, hbest⟩ := hscan.found amount rfl
  have hsized := hprice.search_sized (hscan.sized h.sized_visit)
  have hbefore (j : Nat) : (reprice n amount s q₁).2.before j = q₁.before j := by
    rw [Search.before, hprice.previous, Search.before]
  exact {
    owner := hprice.owner
    state := hprice.state_sized h.state
    search := ⟨hsized.slack, hsized.previous, hsized.visited⟩
    reached j := by
      rw [Search.reached, hprice.visited, ← hscan.reached, Search.reached]
    before j hj := (hbefore j).trans (hscan.unseen j fun _ _ ↦ hj).2
    column_pos := hpos
    column_le := hle
    column_free := hnew
    column_from := by
      change q.visit.reached ((reprice n amount s q₁).2.before best) = true
      rw [hbefore]
      exact h.origin_of_scanned hscan hpos hle hnew hbest
    origin j hj hj0 hr x hx := by
      change (reprice n amount s q₁).2.slackAt j = some x at hx
      change q.visit.reached ((reprice n amount s q₁).2.before j) = true
      rw [hprice.slackAt, if_pos ⟨Nat.lt_succ_of_le hj, (hscan.reached j).trans hr⟩,
        Option.map_eq_some_iff] at hx
      obtain ⟨y, hy, -⟩ := hx
      rw [hbefore]
      exact h.origin_of_scanned hscan hj0 hj hr hy }

omit h hrow in
theorem exists_scan_of_round (hround : round n cost s q = some (s', q')) :
    ∃ q₁ amount best, scan cost s q.visit n = (q₁, some amount, best) ∧
      s' = (reprice n amount s q₁).1 ∧ q' = { (reprice n amount s q₁).2 with column := best } := by
  rw [round] at hround
  split at hround
  · cases hround
  · next q₁ amount best hscan =>
    cases hround
    exact ⟨q₁, amount, best, hscan, rfl, rfl⟩

theorem explored_of_round (hround : round n cost s q = some (s', q')) :
    Explored n s q s' q' := by
  obtain ⟨q₁, amount, best, heq, rfl, rfl⟩ := exists_scan_of_round hround
  have hscan := scanned_scan cost s h.sized_visit le_rfl
  rw [heq] at hscan
  exact h.explored_of_scanned hrow hscan

theorem exists_round [NeverInfinite α] (cost : Nat → Nat → α) :
    ∃ s' q', round n cost s q = some (s', q') := by
  have hscan := scanned_scan cost s h.sized_visit le_rfl
  rw [round]
  generalize scan cost s q.visit n = x at hscan ⊢
  obtain ⟨q₁, least, best⟩ := x
  cases least with
  | none =>
    -- a column that no row has is not reached
    obtain ⟨j, hj, hfree⟩ := h.seated.exists_free h.le
    have hj0 : 0 < j := Nat.pos_of_ne_zero fun hj0 ↦ h.row_zero_ne (hj0 ▸ hfree)
    exact absurd hfree (h.row_ne_of_visit hrow (hscan.reached_of_none hj0 hj))
  | some amount => exact ⟨_, _, rfl⟩

end Exploring

/-- A search comes to a column that no row has, or to a round that finds no column at all and so
would be gone through for ever. -/
theorem searches_or_stuck (h : Exploring n r s q) (hrow : s.row q.column ≠ 0)
    (cost : Nat → Nat → α) :
    (∃ k ≤ q.left n, ∃ s' q', Searches n cost k s q s' q') ∨
      (∃ s' q', Exploring n r s' q' ∧ s'.row q'.column ≠ 0 ∧ round n cost s' q' = none) ∧
        ∀ fuel, search n cost fuel s q = none := by
  induction hm : q.left n using Nat.strong_induction_on generalizing s q with
  | _ m ih =>
    cases hround : round n cost s q with
    | none => exact .inr ⟨⟨s, q, h, hrow, hround⟩, search_of_stuck hround⟩
    | some next =>
      obtain ⟨s', q'⟩ := next
      have hexp := h.explored_of_round hrow hround
      have hlt := hm ▸ h.left_lt hexp
      by_cases hfound : s'.row q'.column = 0
      · exact .inl ⟨1, by omega, s', q', .found hround hfound⟩
      · rcases ih _ hlt (h.explore hrow hexp) hfound rfl with hends | ⟨hstuck, hnone⟩
        · obtain ⟨k, hk, s'', q'', hsearch⟩ := hends
          exact .inl ⟨k + 1, by omega, s'', q'', .next hround hfound hsearch⟩
        · refine .inr ⟨hstuck, fun fuel ↦ ?_⟩
          cases fuel with
          | zero => rfl
          | succ fuel => rw [search_of_round hround, if_neg hfound, hnone]

theorem Exploring.exists_searches [NeverInfinite α] (h : Exploring n r s q)
    (hrow : s.row q.column ≠ 0) (cost : Nat → Nat → α) :
    ∃ k ≤ q.left n, ∃ s' q', Searches n cost k s q s' q' := by
  refine (searches_or_stuck h hrow cost).resolve_right fun hstuck ↦ ?_
  obtain ⟨⟨s', q', h', hrow', hnone⟩, -⟩ := hstuck
  obtain ⟨s'', q'', hround⟩ := h'.exists_round hrow' cost
  rw [hnone] at hround
  cases hround

theorem Searches.keeps {P : State α → Search α → Prop} (hsearch : Searches n cost k s q s' q')
    (hP : P s q) (hrow : s.row q.column ≠ 0)
    (hstep : ∀ s q s' q', P s q → s.row q.column ≠ 0 → round n cost s q = some (s', q') →
      P s' q') : P s' q' ∧ s'.row q'.column = 0 := by
  induction hsearch with
  | found hround hfound => exact ⟨hstep _ _ _ _ hP hrow hround, hfound⟩
  | next hround hrow' _ ih => exact ih (hstep _ _ _ _ hP hrow hround) hrow'

theorem arranged_start : Arranged n 0 (start n : State α) := by
  have hrow (j : Nat) : State.row (start n : State α) j = 0 := by
    rw [State.row, start, getD_replicate, ite_self]
  have hsize {β : Type} (x : β) : (Array.replicate (n + 1) x).size = n + 1 := Array.size_replicate
  refine ⟨Nat.zero_le n, ⟨hsize _, hsize _, hsize _⟩, ⟨fun j _ ↦ (hrow j).le, ?_, ?_⟩⟩
  · exact fun i _ j _ _ hi ↦ absurd (hrow i) hi
  · exact fun i hi hi0 ↦ by omega

theorem place_eq {l : Nat} {owner : Array Nat}
    (hsearch : Searches n cost k { s with owner := s.owner.setIfInBounds 0 r } (.fresh n) s' q)
    (hk : k ≤ n + 1) (hshift : Shifts q.previous l s'.owner q.column owner) (hl : l ≤ n + 1) :
    place n cost s r = some { s' with owner } := by
  have hfuel := hsearch.search_eq (n + 1) hk
  rw [Search.fresh] at hfuel
  rw [place]
  dsimp only
  rw [hfuel]
  dsimp only [Option.bind_eq_bind, Option.bind_some]
  rw [hshift.shift_eq (n + 1) hl]
  rfl

theorem Arranged.exists_place [NeverInfinite α] (h : Arranged n r s) (hr : r < n)
    (cost : Nat → Nat → α) :
    ∃ s', place n cost s (r + 1) = some s' ∧ Arranged n (r + 1) s' := by
  have hstart := h.exploring hr
  have hrow := hstart.row_zero_ne
  obtain ⟨k, hk, s', q, hsearch⟩ := hstart.exists_searches hrow cost
  obtain ⟨hend, hfound⟩ := hsearch.keeps hstart hrow fun _ _ _ _ h hrow hround ↦
    h.explore hrow (h.explored_of_round hrow hround)
  obtain ⟨l, owner, hl, hshift, hdone⟩ := hend.exists_way_back hfound
    (fun _ _ ↦ True) (fun _ _ _ _ ↦ trivial) fun _ _ _ ↦ trivial
  refine ⟨_, place_eq hsearch (hk.trans (Search.left_le n _)) hshift (hl.trans (Nat.le_succ n)),
    hr, ⟨hend.state.rowPrice, hend.state.columnPrice, hdone.size⟩, hdone.seated⟩

def fill (n : Nat) (cost : Nat → Nat → α) (r : Nat) : Option (State α) :=
  ((List.range r).map (· + 1)).foldlM (place n cost) (start n)

theorem fill_succ (n : Nat) (cost : Nat → Nat → α) (r : Nat) :
    fill n cost (r + 1) = (fill n cost r).bind fun s ↦ place n cost s (r + 1) := by
  rw [fill, List.range_succ, List.map_append, List.foldlM_append]
  simp [fill]

theorem exists_fill [NeverInfinite α] (cost : Nat → Nat → α) (hr : r ≤ n) :
    ∃ s, fill n cost r = some s ∧ Arranged n r s := by
  induction r with
  | zero => exact ⟨start n, rfl, arranged_start⟩
  | succ r ih =>
    obtain ⟨s, hfill, hs⟩ := ih (Nat.le_of_succ_le hr)
    obtain ⟨s', hplace, hs'⟩ := hs.exists_place hr cost
    exact ⟨s', by rw [fill_succ, hfill, Option.bind_some, hplace], hs'⟩

theorem solve_eq (m : CostMatrix α) : solve m = (fill m.length m.entry m.length).map fun s ↦
    (List.range m.length).map (columnOf s.owner m.length) := by
  have hcost : (fun i j ↦ ((m.map List.toArray).toArray.getD i #[]).getD j zero) = m.entry := by
    funext i j
    exact getD_toArray m i j zero
  rw [← hcost, Option.map_eq_bind]
  rfl

/-- Where no number reaches infinity there is an assignment for every matrix. -/
theorem exists_solve [NeverInfinite α] (m : CostMatrix α) : ∃ columns, solve m = some columns := by
  obtain ⟨s, hfill, -⟩ := exists_fill m.entry (Nat.le_refl m.length)
  exact ⟨_, by rw [solve_eq, hfill, Option.map_some]⟩

end Score

end FlowMerge.Assignment
