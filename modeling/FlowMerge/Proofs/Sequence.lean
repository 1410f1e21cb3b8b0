import FlowMerge.Proofs.Lists
import FlowMerge.Sequence

namespace FlowMerge.Sequence

variable {α β γ : Type} {eq : α → β → Bool} {best : Nat → Nat → Nat} {i j : Nat}

theorem next_of_drop {l r : List γ} {x : γ} {k : Nat} (h : l.drop k = x :: r) :
    l[k]? = some x ∧ l.drop (k + 1) = r := by
  have hx : (l.drop k)[0]? = l[k + 0]? := List.getElem?_drop
  rw [h] at hx
  rw [← List.tail_drop, h]
  exact ⟨hx.symm, rfl⟩

theorem follow_of_ended {a : List α} {b : List β}
    (h : ∀ x xs y ys, a = x :: xs → b = y :: ys → False) : follow eq best i j a b = [] := by
  cases a with
  | nil =>
    rw [follow]
    intro x xs y ys hx
    cases hx
  | cons x xs =>
    cases b with
    | nil =>
      rw [follow]
      intro x xs y ys _ hy
      cases hy
    | cons y ys => exact absurd rfl (h x xs y ys rfl)

theorem follow_sublist (A : List α) (B : List β) {a : List α} {b : List β} (ha : A.drop i = a)
    (hb : B.drop j = b) :
    ((follow eq best i j a b).filterMap fun p ↦ A[p.1]?).Sublist a ∧
      ((follow eq best i j a b).filterMap fun p ↦ B[p.2]?).Sublist b ∧
      ∀ p ∈ follow eq best i j a b, ∃ x y, A[p.1]? = some x ∧ B[p.2]? = some y ∧
        eq x y = true := by
  induction i, j, a, b using follow.induct eq best with
  | case1 i j x xs y ys h ih =>
    obtain ⟨hx, hxs⟩ := next_of_drop ha
    obtain ⟨hy, hys⟩ := next_of_drop hb
    obtain ⟨h₁, h₂, h₃⟩ := ih hxs hys
    rw [follow, if_pos h,
      List.filterMap_cons_some (f := fun p : Nat × Nat ↦ A[p.1]?) (a := (i, j)) hx,
      List.filterMap_cons_some (f := fun p : Nat × Nat ↦ B[p.2]?) (a := (i, j)) hy]
    refine ⟨h₁.cons_cons x, h₂.cons_cons y, fun p hp ↦ ?_⟩
    rcases List.mem_cons.1 hp with rfl | hp
    · exact ⟨x, y, hx, hy, (Bool.and_eq_true_iff.1 h).1⟩
    · exact h₃ p hp
  | case2 i j x xs y ys h h' ih =>
    obtain ⟨h₁, h₂, h₃⟩ := ih ha (next_of_drop hb).2
    rw [follow, if_neg h, if_pos h']
    exact ⟨h₁, h₂.cons y, h₃⟩
  | case3 i j x xs y ys h h' ih =>
    obtain ⟨h₁, h₂, h₃⟩ := ih (next_of_drop ha).2 hb
    rw [follow, if_neg h, if_neg h']
    exact ⟨h₁.cons x, h₂, h₃⟩
  | case4 i j a b h =>
    rw [follow_of_ended h]
    exact ⟨List.nil_sublist _, List.nil_sublist _, nofun⟩

theorem commonPairs_sublist (eq : α → β → Bool) (a : List α) (b : List β) :
    ((commonPairs eq a b).filterMap fun p ↦ a[p.1]?).Sublist a ∧
      ((commonPairs eq a b).filterMap fun p ↦ b[p.2]?).Sublist b ∧
      ∀ p ∈ commonPairs eq a b, ∃ x y, a[p.1]? = some x ∧ b[p.2]? = some y ∧ eq x y = true :=
  follow_sublist a b rfl rfl

theorem filter_contains_of_sublist [BEq γ] [LawfulBEq γ] {l r : List γ} (h : l.Sublist r)
    (hr : r.Nodup) : r.filter (l.contains ·) = l := by
  induction h with
  | slnil => rfl
  | @cons l r x h ih =>
    rw [List.nodup_cons] at hr
    rw [List.filter_cons_of_neg, ih hr.2]
    rw [List.contains_iff_mem]
    exact fun hx ↦ hr.1 (h.subset hx)
  | @cons_cons l r x h ih =>
    rw [List.nodup_cons] at hr
    rw [List.filter_cons_of_pos (by simp)]
    refine congrArg (x :: ·) (.trans (List.filter_congr fun y hy ↦ ?_) (ih hr.2))
    have hne : (y == x) = false := beq_false_of_ne fun he ↦ hr.1 (he ▸ hy)
    rw [List.contains_cons, hne, Bool.false_or]

theorem length_row (x : α) {b : List β} {below : List Nat} (h : below.length = b.length + 1) :
    (row eq x b below).length = b.length + 1 := by
  induction b generalizing below with
  | nil =>
    rw [row]
    · rfl
    · exact nofun
  | cons y ys ih =>
    obtain ⟨here, below, rfl⟩ := List.exists_of_length_succ below h
    rw [row, List.length_cons, ih (Nat.succ.inj h), List.length_cons]

theorem headD_eq_getD {l : List γ} {x : γ} : l.headD x = l.getD 0 x := by
  cases l <;> rfl

/-- Where an element pairs with another, the number is one more than that without the two. -/
theorem getD_row {x : α} {b : List β} {below : List Nat} (h : below.length = b.length + 1)
    {y : β} (hy : b[j]? = some y) : (row eq x b below).getD j 0 =
      if eq x y then below.getD (j + 1) 0 + 1
      else max (below.getD j 0) ((row eq x b below).getD (j + 1) 0) := by
  induction b generalizing below j with
  | nil => cases hy
  | cons z zs ih =>
    obtain ⟨here, below, rfl⟩ := List.exists_of_length_succ below h
    rw [row]
    cases j with
    | zero =>
      obtain rfl := Option.some_inj.1 hy
      rw [headD_eq_getD, headD_eq_getD]
      rfl
    | succ j => exact ih (Nat.succ.inj h) hy

theorem getD_row_of_le (x : α) {b : List β} (below : List Nat) (h : b.length ≤ j) :
    (row eq x b below).getD j 0 = 0 := by
  induction b generalizing below j with
  | nil =>
    rw [row]
    · cases j <;> rfl
    · exact nofun
  | cons y ys ih =>
    obtain ⟨j, rfl⟩ := Nat.exists_eq_add_of_le' (Nat.le_of_add_left_le h)
    cases below with
    | nil =>
      rw [row]
      · rfl
      · exact nofun
    | cons here below =>
      rw [row]
      exact ih below (Nat.le_of_succ_le_succ h)

theorem length_getD_table (eq : α → β → Bool) (b : List β) (a : List α) (h : i ≤ a.length) :
    ((table eq b a).getD i []).length = b.length + 1 := by
  induction a generalizing i with
  | nil =>
    obtain rfl := Nat.le_zero.1 h
    exact List.length_replicate
  | cons x xs ih =>
    rw [table]
    cases i with
    | zero =>
      refine length_row x ?_
      rw [headD_eq_getD]
      exact ih (Nat.zero_le _)
    | succ i => exact ih (Nat.le_of_succ_le_succ h)

theorem getD_table {x : α} {y : β} {b : List β} {a : List α} (hx : a[i]? = some x)
    (hy : b[j]? = some y) : ((table eq b a).getD i []).getD j 0 =
      if eq x y then ((table eq b a).getD (i + 1) []).getD (j + 1) 0 + 1
      else max (((table eq b a).getD (i + 1) []).getD j 0)
        (((table eq b a).getD i []).getD (j + 1) 0) := by
  induction a generalizing i with
  | nil => cases hx
  | cons z zs ih =>
    rw [table]
    cases i with
    | zero =>
      obtain rfl := Option.some_inj.1 hx
      have hlen := length_getD_table eq b zs (Nat.zero_le _)
      rw [headD_eq_getD]
      exact getD_row hlen hy
    | succ i => exact ih hx

theorem getD_table_of_le {b : List β} {a : List α} (h : a.length ≤ i ∨ b.length ≤ j) :
    ((table eq b a).getD i []).getD j 0 = 0 := by
  induction a generalizing i with
  | nil =>
    rw [table]
    cases i with
    | zero =>
      rw [List.getD_cons_zero, List.getD_eq_getElem?_getD, List.getElem?_replicate]
      split <;> rfl
    | succ i => rfl
  | cons x xs ih =>
    rw [table]
    cases i with
    | zero => exact getD_row_of_le x _ (h.resolve_left (Nat.not_succ_le_zero _))
    | succ i => exact ih (h.imp_left Nat.le_of_succ_le_succ)

theorem follow_diagonal {a : List α} {b : List β} (h : List.Forall₂ (fun x y ↦ eq x y = true) a b)
    (hbest : ∀ k < a.length, best (i + k) (i + k) = best (i + k + 1) (i + k + 1) + 1) :
    follow eq best i i a b = (List.range' i a.length).map fun k ↦ (k, k) := by
  induction h generalizing i with
  | nil =>
    rw [follow]
    · rfl
    · simp
  | @cons x y xs ys hxy _ ih =>
    have h0 := hbest 0 (Nat.succ_pos _)
    rw [follow, if_pos (by rw [hxy, Bool.true_and]; exact beq_iff_eq.2 h0), ih fun k hk ↦ ?_]
    · rfl
    · have := hbest (k + 1) (Nat.succ_lt_succ hk)
      rwa [show i + (k + 1) = i + 1 + k by omega] at this

theorem commonPairs_of_forall₂ {a : List α} {b : List β}
    (h : List.Forall₂ (fun x y ↦ eq x y = true) a b) :
    commonPairs eq a b = (List.range a.length).map fun k ↦ (k, k) := by
  rw [commonPairs, List.range_eq_range']
  refine follow_diagonal h fun k hk ↦ ?_
  rw [getD_toArray, getD_toArray, Nat.zero_add]
  have hk' : k < b.length := h.length_eq ▸ hk
  exact (getD_table (List.getElem?_eq_getElem hk) (List.getElem?_eq_getElem hk')).trans
    (if_pos (h.get hk hk'))

theorem filterMap_getElem?_range (l : List γ) : ((List.range l.length).filterMap (l[·]?)) = l := by
  induction l using List.reverseRecOn with
  | nil => rfl
  | append_singleton l x ih =>
    have hfirst : (List.range l.length).filterMap ((l ++ [x])[·]?) = l := by
      refine (List.filterMap_congr fun k hk ↦ ?_).trans ih
      exact List.getElem?_append_left (List.mem_range.1 hk)
    rw [List.length_append, List.length_singleton, List.range_succ, List.filterMap_append, hfirst]
    simp

theorem foldl_range_getElem? {σ : Type} (f : σ → γ → σ) (z : σ) (l : List γ) :
    (List.range l.length).foldl (fun z i ↦ match l[i]? with
      | some x => f z x
      | none => z) z = l.foldl f z := by
  conv_rhs => rw [← filterMap_getElem?_range l, List.foldl_filterMap]
  rfl

theorem filterMap_commonPairs_of_forall₂ {a : List α} {b : List β}
    (h : List.Forall₂ (fun x y ↦ eq x y = true) a b) :
    (commonPairs eq a b).filterMap (fun p ↦ a[p.1]?) = a := by
  rw [commonPairs_of_forall₂ h, List.filterMap_map]
  exact filterMap_getElem?_range a

end FlowMerge.Sequence
