import FlowMerge.Proofs.Assignment.Prices

namespace FlowMerge.Assignment

open Score

variable {n r : Nat} {cost : Nat → Nat → Rat} {s : State Rat}

structure Placed (n : Nat) (cost : Nat → Nat → Rat) (r : Nat) (s : State Rat) : Prop
    extends Arranged n r s where
  tight : ∀ k ≤ n, 0 < k → s.row k ≠ 0 → s.surplus cost (s.row k) k = 0
  feasible : ∀ i, 0 < i → i ≤ r → ∀ j ≤ n, 0 < j → 0 ≤ s.surplus cost i j

theorem placed_start : Placed n cost 0 (start n) where
  toArranged := arranged_start
  tight k _ _ hk := by
    refine absurd ?_ hk
    rw [State.row, start, getD_replicate, ite_self]
  feasible i hi hi0 := by omega

theorem Placed.searching (h : Placed n cost r s) (hr : r < n) :
    Searching n cost (r + 1) { s with owner := s.owner.setIfInBounds 0 (r + 1) } (.fresh n) := by
  have hrow := h.row_waiting
  exact {
    toExploring := h.exploring hr
    first _ := Search.reached_fresh n
    edge j hj hj0 := by
      rcases hj with hj | rfl
      · simp [Search.reached_fresh] at hj
      · exact absurd rfl hj0
    tight j hj hj0 hjr := by
      rw [hrow, if_neg hj0.ne'] at hjr
      rw [State.excess, hrow, if_neg hj0.ne']
      exact h.tight j hj hj0 hjr
    feasible k hk hkr hk0 j hj hj0 := by
      have hk0 := hk0 rfl
      rw [hrow, if_neg hk0] at hkr
      rw [State.excess, hrow, if_neg hk0]
      exact h.feasible _ (Nat.pos_of_ne_zero hkr) (h.seated.le k ⟨hk, hk0⟩) j hj hj0
    unseen j _ _ _ _ k := Search.reached_fresh n k
    seen j _ _ _ x hx := absurd (hx.symm.trans (Search.slackAt_fresh n j))
      (Option.some_ne_none x) }

/-- One more row is placed: the search for it and the way back come to an end, and what is handed on
along the way back fits as well. -/
theorem Placed.exists_place (h : Placed n cost r s) (hr : r < n) :
    ∃ k l s' q owner,
      Searches n cost k { s with owner := s.owner.setIfInBounds 0 (r + 1) } (.fresh n) s' q ∧
      Shifts q.previous l s'.owner q.column owner ∧
      place n cost s (r + 1) = some { s' with owner } ∧
      Placed n cost (r + 1) { s' with owner } := by
  have hstart := h.searching hr
  have hrow := hstart.row_zero_ne
  obtain ⟨k, hk, s', q, hsearch⟩ := hstart.exists_searches hrow cost
  obtain ⟨hend, hfound, -⟩ := hsearch.keeps_prices (P := fun _ _ ↦ True) hstart hrow trivial
    fun _ _ _ _ _ _ _ _ _ ↦ trivial
  obtain ⟨l, owner, hl, hshift, hdone⟩ := hend.exists_way_back hfound
    (fun i j ↦ s'.surplus cost i j = 0) hend.tight hend.edge
  refine ⟨k, l, s', q, owner, hsearch, hshift, place_eq hsearch (hk.trans (Search.left_le n _))
    hshift (hl.trans (Nat.le_succ n)), ⟨hr, ⟨hend.state.rowPrice, hend.state.columnPrice,
      hdone.size⟩, hdone.seated⟩, fun k hk hk0 hkr ↦ hdone.fits k hk hk0 hk0.ne' hkr,
    fun i hi hir j hj hj0 ↦ ?_⟩
  obtain ⟨k, hk, rfl⟩ := hend.seated.onto i hi hir
  exact hend.feasible k hk hi.ne' (absurd · (hend.column_ne_zero hfound)) j hj hj0

theorem placed_of_fill (hr : r ≤ n) (h : fill n cost r = some s) :
    Placed n cost r s ∧ Places n cost r s := by
  induction r generalizing s with
  | zero =>
    obtain rfl : start n = s := Option.some_inj.1 h
    exact ⟨placed_start, .zero⟩
  | succ r ih =>
    rw [fill_succ, Option.bind_eq_some_iff] at h
    obtain ⟨s₀, hfill, hplace⟩ := h
    obtain ⟨hs₀, hplaces⟩ := ih (Nat.le_of_succ_le hr) hfill
    obtain ⟨_, _, _, _, _, hsearch, hshift, hplace', hnext⟩ := hs₀.exists_place hr
    rw [hplace, Option.some_inj] at hplace'
    rw [hplace']
    exact ⟨hnext, .succ hplaces hsearch hshift⟩

end FlowMerge.Assignment
