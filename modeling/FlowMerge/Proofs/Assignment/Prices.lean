import FlowMerge.Proofs.Assignment.Progress
import Mathlib.Tactic.Linarith
import Mathlib.Tactic.Ring

namespace FlowMerge.Assignment

open Score

variable {n r : Nat} {cost : Nat → Nat → Rat} {s s' : State Rat} {q q' : Search Rat} {j k : Nat}

/-- A search that keeps its prices: no column costs a row less than the prices of both, and a column
that a row has or is reached from costs it just that. -/
structure Searching (n : Nat) (cost : Nat → Nat → Rat) (r : Nat) (s : State Rat)
    (q : Search Rat) : Prop extends Exploring n r s q where
  first : q.column = 0 → ∀ j, q.reached j = false
  edge : ∀ j, q.reached j = true ∨ j = q.column → j ≠ 0 → s.excess cost (q.before j) j = 0
  tight : ∀ j ≤ n, 0 < j → s.row j ≠ 0 → s.excess cost j j = 0
  feasible : ∀ k ≤ n, s.row k ≠ 0 → (q.column = 0 → k ≠ 0) →
    ∀ j ≤ n, 0 < j → 0 ≤ s.excess cost k j
  unseen : ∀ j ≤ n, 0 < j → q.reached j = false → q.slackAt j = none → ∀ k, q.reached k = false
  seen : ∀ j ≤ n, 0 < j → q.reached j = false → ∀ x, q.slackAt j = some x →
    s.excess cost (q.before j) j = x ∧ ∀ k, q.reached k = true → x ≤ s.excess cost k j

/-- What a round does that comes to a new column: the rows that are reached and the columns that are
reached change prices by the amount, and each column that is not has its cheapest way from them. -/
structure Advanced (n : Nat) (cost : Nat → Nat → Rat) (s : State Rat) (q : Search Rat)
    (amount : Rat) (s' : State Rat) (q' : Search Rat) : Prop extends Explored n s q s' q' where
  excess : ∀ k ≤ n, s.row k ≠ 0 → ∀ j ≤ n, s'.excess cost k j = s.excess cost k j -
    (if q.visit.reached k then amount else 0) + (if q.visit.reached j then amount else 0)
  column_slack : q'.slackAt q'.column = some 0
  seen : ∀ j, 0 < j → j ≤ n → q.visit.reached j = false →
    ∃ x, q'.slackAt j = some (x - amount) ∧ amount ≤ x ∧ (j < q'.column → amount < x) ∧
      s.excess cost (q'.before j) j = x ∧ ∀ k, q.visit.reached k = true → x ≤ s.excess cost k j
  unseen : ∀ j, 0 < j → j ≤ n → q.visit.reached j = false → ∀ x, q.slackAt j = some x →
    x ≤ s.excess cost q.column j → q'.before j = q.before j
  unmoved : amount = 0 → s'.rowPriceAt = s.rowPriceAt ∧ s'.columnPriceAt = s.columnPriceAt

namespace Repriced

variable {amount : Rat}

theorem unmoved (h : Repriced 0 s q k s' q') :
    s'.rowPriceAt = s.rowPriceAt ∧ s'.columnPriceAt = s.columnPriceAt := by
  refine ⟨funext fun i ↦ ?_, funext fun j ↦ ?_⟩
  · by_cases hi : ∃ j < k, q.reached j = true ∧ s.row j = i
    · obtain ⟨j, hj, hjr, rfl⟩ := hi
      rw [h.raised j hj hjr, add_zero]
    · exact h.unraised i fun j hj hjr he ↦ hi ⟨j, hj, hjr, he⟩
  · rw [h.columnPriceAt, sub_zero, ite_self]

end Repriced

namespace Searching

variable (h : Searching n cost r s q)
include h

theorem seen_of_scanned {q₁ : Search Rat} {least : Option Rat} {best : Nat}
    (hscan : Scanned cost s q.visit n q₁ least best) (hj : 0 < j) (hjn : j ≤ n)
    (hr : q.visit.reached j = false) :
    ∃ x, q₁.slackAt j = some x ∧ s.excess cost (q₁.before j) j = x ∧
      ∀ k, q.visit.reached k = true → x ≤ s.excess cost k j := by
  have hr' : q.reached j = false := by
    rw [Bool.eq_false_iff] at hr ⊢
    exact fun hj ↦ hr (h.reached_visit.2 (.inr hj))
  have hs := hscan.seen j hj hjn hr
  split at hs
  · next hlow =>
    -- the column at hand is the cheapest to come from
    refine ⟨_, hs.1, hs.2 ▸ rfl, fun k hk ↦ ?_⟩
    rcases h.reached_visit.1 hk with rfl | hk
    · exact le_rfl
    · change below _ (q.slackAt j) = true at hlow
      cases hq : q.slackAt j with
      | none => simp [h.unseen j hjn hj hr' hq k] at hk
      | some y =>
        rw [hq, below_some] at hlow
        exact hlow.le.trans ((h.seen j hjn hj hr' y hq).2 k hk)
  · next hlow =>
    -- one that was reached before is
    change ¬ below _ (q.slackAt j) = true at hlow
    cases hq : q.slackAt j with
    | none => simp [hq, below_none] at hlow
    | some y =>
      rw [hq, below_some, not_lt] at hlow
      obtain ⟨he, hall⟩ := h.seen j hjn hj hr' y hq
      refine ⟨y, hs.1.trans hq, ?_, fun k hk ↦ ?_⟩
      · rw [hs.2]
        exact he
      · rcases h.reached_visit.1 hk with rfl | hk
        · exact hlow
        · exact hall k hk

theorem excess_of_repriced {q₁ q₂ : Search Rat} {amount : Rat}
    (hq₁ : q₁.visited = q.visit.visited) (hprice : Repriced amount s q₁ (n + 1) s' q₂)
    (hk : k ≤ n) (hk' : s.row k ≠ 0) (hj : j ≤ n) :
    s'.excess cost k j = s.excess cost k j - (if q.visit.reached k then amount else 0) +
      (if q.visit.reached j then amount else 0) := by
  have hreached (i : Nat) : q₁.reached i = q.visit.reached i := by
    rw [Search.reached, hq₁, Search.reached]
  have hrows : s'.row k = s.row k := by rw [State.row, hprice.owner, State.row]
  have hrise : s'.rowPriceAt (s.row k) =
      s.rowPriceAt (s.row k) + if q.visit.reached k then amount else 0 := by
    split
    · next hr => exact hprice.raised k (by omega) ((hreached k).trans hr)
    · next hr =>
      rw [hprice.unraised, add_zero]
      intro i hi hri he
      have hik := h.seated.inj i (Nat.le_of_lt_succ hi) k hk he (he ▸ hk')
      rw [hreached, hik] at hri
      exact hr hri
  have hfall : s'.columnPriceAt j =
      s.columnPriceAt j - if q.visit.reached j then amount else 0 := by
    rw [hprice.columnPriceAt, hreached]
    split
    · next hr => rw [if_pos hr.2]
    · next hr => rw [if_neg fun hr' ↦ hr ⟨by omega, hr'⟩, sub_zero]
  rw [State.excess, State.excess, State.surplus, State.surplus, hrows, hrise, hfall]
  ring

/-- A round that comes to a new column goes on from there at the new prices. -/
theorem advanced_of_round (hrow : s.row q.column ≠ 0) (hround : round n cost s q = some (s', q')) :
    ∃ amount, Advanced n cost s q amount s' q' := by
  have hexp := h.explored_of_round hrow hround
  obtain ⟨q₁, amount, best, heq, rfl, rfl⟩ := Exploring.exists_scan_of_round hround
  have hscan := scanned_scan cost s h.sized_visit le_rfl
  have hleast : (scan cost s q.visit n).2.1 = some amount := congrArg (·.2.1) heq
  have hlowest {j : Nat} (hj0 : 0 < j) (hj : j ≤ n) (hr : q.visit.reached j = false) :=
    lowest_scan h.sized_visit le_rfl hleast hj0 hj hr
  rw [heq] at hscan hlowest
  have hprice := h.repriced_of_scanned hrow hscan amount
  have hbefore (j : Nat) : (reprice n amount s q₁).2.before j = q₁.before j := by
    rw [Search.before, hprice.previous, Search.before]
  have hslack {j : Nat} (hj : j ≤ n) (hr : q.visit.reached j = false) :
      (reprice n amount s q₁).2.slackAt j = (q₁.slackAt j).map (· - amount) := by
    rw [hprice.slackAt, hscan.reached, if_pos ⟨Nat.lt_succ_of_le hj, hr⟩]
  obtain ⟨-, hle, hnew, hbest⟩ := hscan.found amount rfl
  exact ⟨amount, {
    toExplored := hexp
    excess k hk hkr j hj := h.excess_of_repriced hscan.visited hprice hk hkr hj
    column_slack := by
      change (reprice n amount s q₁).2.slackAt best = some 0
      rw [hslack hle hnew, hbest, Option.map_some, sub_self]
    seen j hj0 hj hr := by
      obtain ⟨x, hx, hcost, hmin⟩ := h.seen_of_scanned hscan hj0 hj hr
      obtain ⟨y, hy, hxy, hfirst⟩ := hlowest hj0 hj hr
      obtain rfl := Option.some_inj.1 (hx.symm.trans hy)
      change ∃ x, (reprice n amount s q₁).2.slackAt j = some (x - amount) ∧ amount ≤ x ∧
        (j < best → amount < x) ∧ s.excess cost ((reprice n amount s q₁).2.before j) j = x ∧ _
      rw [hbefore, hslack hj hr, hx]
      exact ⟨x, rfl, hxy, hfirst, hcost, hmin⟩
    unseen j hj0 hj hr x hx hle := by
      have hs := hscan.seen j hj0 hj hr
      rw [if_neg] at hs
      · exact (hbefore j).trans hs.2
      · change ¬ below (s.excess cost q.column j) (q.slackAt j) = true
        rw [hx, below_some, not_lt]
        exact hle
    unmoved h0 := by
      subst h0
      exact hprice.unmoved }⟩

section Advance

variable {amount : Rat} (hrow : s.row q.column ≠ 0) (hadv : Advanced n cost s q amount s' q')
include hadv

omit h in
theorem excess_column : s.excess cost (q'.before q'.column) q'.column = amount := by
  obtain ⟨x, hx, -, -, hcost, -⟩ :=
    hadv.seen _ hadv.column_pos hadv.column_le hadv.column_free
  rw [hadv.column_slack, Option.some_inj] at hx
  linarith

include hrow

theorem amount_nonneg (hc : q.column ≠ 0) : 0 ≤ amount := by
  have hvia := hadv.column_from
  rw [← excess_column hadv]
  exact h.feasible _ (h.sized_visit.le_of_reached hvia) (h.row_ne_of_visit hrow hvia)
    (absurd · hc) _ hadv.column_le hadv.column_pos

theorem edge_of_advanced (hj : q'.reached j = true ∨ j = q'.column) (hj0 : j ≠ 0) :
    s'.excess cost (q'.before j) j = 0 := by
  rcases hj with hj | rfl
  · rw [hadv.reached] at hj
    obtain ⟨path, hpath⟩ := h.trail j (h.reached_visit.1 hj).symm
    have hvia : q.visit.reached (q.before j) = true :=
      h.reached_visit.2 (.inr (hpath.reached_before hj0))
    rw [hadv.before j hj, hadv.excess _ (h.sized_visit.le_of_reached hvia)
      (h.row_ne_of_visit hrow hvia) j (h.sized_visit.le_of_reached hj), if_pos hvia, if_pos hj,
      h.edge j (h.reached_visit.1 hj).symm hj0]
    ring
  · have hvia := hadv.column_from
    rw [hadv.excess _ (h.sized_visit.le_of_reached hvia) (h.row_ne_of_visit hrow hvia) _
      hadv.column_le, if_pos hvia, if_neg (by simp [hadv.column_free]), excess_column hadv]
    ring

theorem feasible_of_advanced (hk : k ≤ n) (hkr : s'.row k ≠ 0) (hj : j ≤ n) (hj0 : 0 < j) :
    0 ≤ s'.excess cost k j := by
  rw [hadv.row_eq] at hkr
  have hold (hk0 : q.column = 0 → k ≠ 0) := h.feasible k hk hkr hk0 j hj hj0
  have hstart (hjv : q.visit.reached j = true) : q.column ≠ 0 := by
    intro hc
    rcases h.reached_visit.1 hjv with rfl | hj
    · exact hj0.ne' hc
    · simp [h.first hc j] at hj
  rw [hadv.excess k hk hkr j hj]
  by_cases hkv : q.visit.reached k = true <;> by_cases hjv : q.visit.reached j = true
  · rw [if_pos hkv, if_pos hjv]
    linarith [hold (absurd · (hstart hjv))]
  · obtain ⟨x, -, hx, -, -, hmin⟩ := hadv.seen j hj0 hj (Bool.eq_false_iff.2 hjv)
    rw [if_pos hkv, if_neg hjv]
    linarith [hmin k hkv]
  · have hc := hstart hjv
    rw [if_neg hkv, if_pos hjv]
    linarith [hold (absurd · hc), h.amount_nonneg hrow hadv hc]
  · rw [if_neg hkv, if_neg hjv]
    linarith [hold fun hc hk0 ↦ hkv (h.reached_visit.2 (.inl (hk0.trans hc.symm)))]

theorem seen_of_advanced (hj : j ≤ n) (hj0 : 0 < j) (hjr : q'.reached j = false) {x : Rat}
    (hx : q'.slackAt j = some x) :
    s'.excess cost (q'.before j) j = x ∧ ∀ k, q'.reached k = true → x ≤ s'.excess cost k j := by
  have hjv : q.visit.reached j = false := (hadv.reached j).symm.trans hjr
  have hvia := hadv.origin j hj hj0 hjv x hx
  obtain ⟨z, hz, -, -, hcost, hmin⟩ := hadv.seen j hj0 hj hjv
  obtain rfl : z - amount = x := Option.some_inj.1 (hz.symm.trans hx)
  have hless {k : Nat} (hk : q.visit.reached k = true) :
      s'.excess cost k j = s.excess cost k j - amount := by
    rw [hadv.excess k (h.sized_visit.le_of_reached hk) (h.row_ne_of_visit hrow hk) j hj, if_pos hk,
      if_neg (by simp [hjv]), add_zero]
  refine ⟨by rw [hless hvia, hcost], fun k hk ↦ ?_⟩
  rw [hadv.reached] at hk
  rw [hless hk]
  linarith [hmin k hk]

theorem advance : Searching n cost r s' q' := by
  have hrow' := hadv.row_eq
  exact {
    toExploring := h.explore hrow hadv.toExplored
    first h0 := absurd h0 hadv.column_pos.ne'
    edge j hj hj0 := h.edge_of_advanced hrow hadv hj hj0
    tight j hj hj0 hjr := by
      rw [hrow'] at hjr
      rw [hadv.excess j hj hjr j hj, h.tight j hj hj0 hjr]
      ring
    feasible k hk hkr _ j hj hj0 := h.feasible_of_advanced hrow hadv hk hkr hj hj0
    unseen j hj hj0 hjr hjs := by
      obtain ⟨x, hx, -⟩ := hadv.seen j hj0 hj ((hadv.reached j).symm.trans hjr)
      exact absurd (hx.symm.trans hjs) (Option.some_ne_none _)
    seen j hj hj0 hjr x hx := h.seen_of_advanced hrow hadv hj hj0 hjr hx }

end Advance

end Searching

theorem Searches.keeps_prices {P : State Rat → Search Rat → Prop}
    (hsearch : Searches n cost k s q s' q') (h : Searching n cost r s q) (hrow : s.row q.column ≠ 0)
    (hP : P s q) (hstep : ∀ s q amount s' q', Searching n cost r s q → s.row q.column ≠ 0 →
      P s q → Advanced n cost s q amount s' q' → P s' q') :
    Searching n cost r s' q' ∧ s'.row q'.column = 0 ∧ P s' q' := by
  obtain ⟨⟨hend, hP'⟩, hfound⟩ := hsearch.keeps
    (P := fun s q ↦ Searching n cost r s q ∧ P s q) ⟨h, hP⟩ hrow
    fun s q s' q' ⟨h, hP⟩ hrow hround ↦ by
      obtain ⟨amount, hadv⟩ := h.advanced_of_round hrow hround
      exact ⟨h.advance hrow hadv, hstep _ _ _ _ _ h hrow hP hadv⟩
  exact ⟨hend, hfound, hP'⟩

end FlowMerge.Assignment
