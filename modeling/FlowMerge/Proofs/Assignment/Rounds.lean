import FlowMerge.Assignment
import FlowMerge.Proofs.Score

namespace FlowMerge.Assignment

open Score

section Tables

variable {β : Type} {a : Array β} {i j k : Nat} {v d : β} {f : β → β}

theorem getD_setIfInBounds (h : i < a.size) :
    (a.setIfInBounds i v).getD j d = if j = i then v else a.getD j d := by
  rw [Array.getD_eq_getD_getElem?, Array.getD_eq_getD_getElem?, Array.getElem?_setIfInBounds]
  grind

theorem getD_modify (h : i < a.size) :
    (a.modify i f).getD j d = if j = i then f (a.getD j d) else a.getD j d := by
  rw [Array.getD_eq_getD_getElem?, Array.getD_eq_getD_getElem?, Array.getElem?_modify]
  grind

theorem getD_replicate : (Array.replicate k v).getD j d = if j < k then v else d := by
  rw [Array.getD_eq_getD_getElem?, Array.getElem?_replicate]
  grind

end Tables

variable {α : Type} [Score α] {n : Nat} {cost : Nat → Nat → α}

namespace State

def row (s : State α) (j : Nat) : Nat := s.owner.getD j 0

def rowPriceAt (s : State α) (i : Nat) : α := price s.rowPrice i

def columnPriceAt (s : State α) (j : Nat) : α := price s.columnPrice j

def surplus (cost : Nat → Nat → α) (s : State α) (i j : Nat) : α :=
  cost (i - 1) (j - 1) - s.rowPriceAt i - s.columnPriceAt j

/-- What column `j` costs the row that has column `k`, above the prices. -/
def excess (cost : Nat → Nat → α) (s : State α) (k j : Nat) : α := s.surplus cost (s.row k) j

structure Sized (n : Nat) (s : State α) : Prop where
  rowPrice : s.rowPrice.size = n + 1
  columnPrice : s.columnPrice.size = n + 1
  owner : s.owner.size = n + 1

end State

namespace Search

def reached (q : Search α) (j : Nat) : Bool := q.visited.getD j false

def slackAt (q : Search α) (j : Nat) : Option α := q.slack.getD j none

def before (q : Search α) (j : Nat) : Nat := q.previous.getD j 0

def visit (q : Search α) : Search α :=
  { q with visited := q.visited.setIfInBounds q.column true }

def fresh (n : Nat) : Search α :=
  ⟨Array.replicate (n + 1) none, Array.replicate (n + 1) 0, Array.replicate (n + 1) false, 0⟩

structure Sized (n : Nat) (q : Search α) : Prop where
  slack : q.slack.size = n + 1
  previous : q.previous.size = n + 1
  visited : q.visited.size = n + 1

end Search

def scan (cost : Nat → Nat → α) (s : State α) (q : Search α) (k : Nat) :
    Search α × Option α × Nat :=
  ((List.range k).map (· + 1)).foldl (examine cost s (s.row q.column)) (q, none, 0)

def round (n : Nat) (cost : Nat → Nat → α) (s : State α) (q : Search α) :
    Option (State α × Search α) :=
  match scan cost s q.visit n with
  | (_, none, _) => none
  | (q, some amount, best) =>
    let (s, q) := reprice n amount s q
    some (s, { q with column := best })

/-- The rounds of a search, up to one that reaches a column that no row has. -/
inductive Searches (n : Nat) (cost : Nat → Nat → α) :
    Nat → State α → Search α → State α → Search α → Prop
  | found {s s' : State α} {q q' : Search α} : round n cost s q = some (s', q') →
      s'.row q'.column = 0 → Searches n cost 1 s q s' q'
  | next {s s' s'' : State α} {q q' q'' : Search α} {k : Nat} :
      round n cost s q = some (s', q') → s'.row q'.column ≠ 0 →
      Searches n cost k s' q' s'' q'' → Searches n cost (k + 1) s q s'' q''

inductive Shifts (previous : Array Nat) : Nat → Array Nat → Nat → Array Nat → Prop
  | last {owner : Array Nat} {j : Nat} : previous.getD j 0 = 0 →
      Shifts previous 1 owner j (owner.setIfInBounds j (owner.getD 0 0))
  | next {owner owner' : Array Nat} {j k : Nat} : previous.getD j 0 ≠ 0 →
      Shifts previous k (owner.setIfInBounds j (owner.getD (previous.getD j 0) 0))
        (previous.getD j 0) owner' → Shifts previous (k + 1) owner j owner'

inductive Places (n : Nat) (cost : Nat → Nat → α) : Nat → State α → Prop
  | zero : Places n cost 0 (start n)
  | succ {r k l : Nat} {s s' : State α} {q : Search α} {owner : Array Nat} : Places n cost r s →
      Searches n cost k { s with owner := s.owner.setIfInBounds 0 (r + 1) } (.fresh n) s' q →
      Shifts q.previous l s'.owner q.column owner → Places n cost (r + 1) { s' with owner }

theorem search_of_round {s s' : State α} {q q' : Search α} (h : round n cost s q = some (s', q'))
    (fuel : Nat) : search n cost (fuel + 1) s q =
      if s'.row q'.column = 0 then some (s', q') else search n cost fuel s' q' := by
  rw [round] at h
  split at h
  · cases h
  · next q₁ amount best hscan =>
    cases h
    have hfold : ((List.range n).map (· + 1)).foldl (examine cost s (s.owner.getD q.column 0))
        ({ q with visited := q.visited.setIfInBounds q.column true }, none, 0) =
          (q₁, some amount, best) := hscan
    rw [search]
    dsimp only
    rw [hfold]
    rfl

theorem search_of_stuck {s : State α} {q : Search α} (h : round n cost s q = none) (fuel : Nat) :
    search n cost fuel s q = none := by
  cases fuel with
  | zero => rfl
  | succ fuel =>
    rw [round] at h
    split at h
    · next q₁ best hscan =>
      have hfold : ((List.range n).map (· + 1)).foldl (examine cost s (s.owner.getD q.column 0))
          ({ q with visited := q.visited.setIfInBounds q.column true }, none, 0) =
            (q₁, none, best) := hscan
      rw [search]
      dsimp only
      rw [hfold]
    · cases h

theorem Searches.search_eq {k : Nat} {s s' : State α} {q q' : Search α}
    (h : Searches n cost k s q s' q') (fuel : Nat) (hk : k ≤ fuel) :
    search n cost fuel s q = some (s', q') := by
  induction h generalizing fuel with
  | found hr hrow =>
    obtain ⟨fuel, rfl⟩ := Nat.exists_eq_add_of_le' hk
    rw [search_of_round hr, if_pos hrow]
  | next hr hrow _ ih =>
    obtain ⟨fuel, rfl⟩ := Nat.exists_eq_add_of_le' (Nat.le_of_add_left_le hk)
    rw [search_of_round hr, if_neg hrow]
    exact ih fuel (by omega)

theorem Shifts.shift_eq {previous : Array Nat} {k j : Nat} {owner owner' : Array Nat}
    (h : Shifts previous k owner j owner') (fuel : Nat) (hk : k ≤ fuel) :
    shift previous fuel owner j = owner' := by
  induction h generalizing fuel with
  | last hj =>
    obtain ⟨fuel, rfl⟩ := Nat.exists_eq_add_of_le' hk
    rw [shift, hj]
    rfl
  | next hj _ ih =>
    obtain ⟨fuel, rfl⟩ := Nat.exists_eq_add_of_le' (Nat.le_of_add_left_le hk)
    rw [shift, if_neg hj]
    exact ih fuel (by omega)

section Scan

variable {s : State α} {q q' : Search α} {k j best : Nat} {least : Option α}

/-- What a look from the column at hand at the first `k` columns leaves: every column that was not
reached has the lower of its slack and its cost from here. One with a slack below infinity is found,
if there is any. -/
structure Scanned (cost : Nat → Nat → α) (s : State α) (q : Search α) (k : Nat)
    (q' : Search α) (least : Option α) (best : Nat) : Prop where
  visited : q'.visited = q.visited
  column : q'.column = q.column
  slack_size : q'.slack.size = q.slack.size
  previous_size : q'.previous.size = q.previous.size
  seen : ∀ j, 0 < j → j ≤ k → q.reached j = false →
    if below (s.excess cost q.column j) (q.slackAt j) then
      q'.slackAt j = some (s.excess cost q.column j) ∧ q'.before j = q.column
    else q'.slackAt j = q.slackAt j ∧ q'.before j = q.before j
  unseen : ∀ j, (0 < j → j ≤ k → q.reached j = true) →
    q'.slackAt j = q.slackAt j ∧ q'.before j = q.before j
  none_left : least = none → ∀ j, 0 < j → j ≤ k → q.reached j = false →
    ∀ x, q'.slackAt j = some x → belowTop x = false
  found : ∀ x, least = some x →
    0 < best ∧ best ≤ k ∧ q.reached best = false ∧ q'.slackAt best = some x

theorem examine_of_reached (h : q.reached j = true) (row : Nat) :
    examine cost s row (q, least, best) j = (q, least, best) := by
  rw [examine]
  exact if_pos h

def Search.relax (cost : Nat → Nat → α) (s : State α) (q : Search α) (j : Nat) : Search α :=
  if below (s.excess cost q.column j) (q.slackAt j) then
    { q with
      slack := q.slack.setIfInBounds j (some (s.excess cost q.column j))
      previous := q.previous.setIfInBounds j q.column }
  else q

theorem examine_of_not_reached (h : q.reached j = false) :
    examine cost s (s.row q.column) (q, least, best) j =
      match (q.relax cost s j).slackAt j with
      | some x => if below x least then (q.relax cost s j, some x, j)
          else (q.relax cost s j, least, best)
      | none => (q.relax cost s j, least, best) := by
  rw [examine]
  change (if q.reached j = true then _ else _) = _
  rw [if_neg (Bool.eq_false_iff.1 h)]
  have hrelax : q.relax cost s j =
      if below (cost (s.row q.column - 1) (j - 1) - price s.rowPrice (s.row q.column) -
          price s.columnPrice j) (q.slack.getD j none) then
        { q with
          slack := q.slack.setIfInBounds j (some (cost (s.row q.column - 1) (j - 1) -
            price s.rowPrice (s.row q.column) - price s.columnPrice j))
          previous := q.previous.setIfInBounds j q.column }
      else q := rfl
  dsimp only
  rw [← hrelax]
  cases hx : (q.relax cost s j).slackAt j with
  | none =>
    rw [Search.slackAt] at hx
    rw [hx]
  | some x =>
    rw [Search.slackAt] at hx
    rw [hx]

namespace Search

variable (cost s q)

theorem relax_spec : (q.relax cost s j).visited = q.visited ∧
    (q.relax cost s j).column = q.column ∧
    (q.relax cost s j).slack.size = q.slack.size ∧
    (q.relax cost s j).previous.size = q.previous.size := by
  unfold relax
  split <;> simp

theorem relax_of_ne (hs : j < q.slack.size) (hp : j < q.previous.size) {i : Nat} (hi : i ≠ j) :
    (q.relax cost s j).slackAt i = q.slackAt i ∧ (q.relax cost s j).before i = q.before i := by
  unfold relax
  split
  · simp only [slackAt, before, getD_setIfInBounds hs, getD_setIfInBounds hp, if_neg hi, and_self]
  · exact ⟨rfl, rfl⟩

theorem relax_self (hs : j < q.slack.size) (hp : j < q.previous.size) :
    if below (s.excess cost q.column j) (q.slackAt j) then
      (q.relax cost s j).slackAt j = some (s.excess cost q.column j) ∧
        (q.relax cost s j).before j = q.column
    else (q.relax cost s j).slackAt j = q.slackAt j ∧ (q.relax cost s j).before j = q.before j := by
  unfold relax
  split
  · simp only [slackAt, before, getD_setIfInBounds hs, getD_setIfInBounds hp, if_true, and_self]
  · exact ⟨rfl, rfl⟩

end Search

theorem scan_succ (k : Nat) : scan cost s q (k + 1) =
    examine cost s (s.row q.column) (scan cost s q k) (k + 1) := by
  rw [scan, List.range_succ, List.map_append, List.foldl_append]
  rfl

theorem Scanned.succ_of_reached (h : Scanned cost s q k q' least best)
    (hr : q.reached (k + 1) = true) : Scanned cost s q (k + 1) q' least best := by
  have hle {j : Nat} (hj : j ≤ k + 1) (hn : q.reached j = false) : j ≤ k := by
    refine Nat.le_of_lt_succ (lt_of_le_of_ne hj ?_)
    rintro rfl
    simp [hr] at hn
  exact {
    visited := h.visited
    column := h.column
    slack_size := h.slack_size
    previous_size := h.previous_size
    seen j hj hj' hn := h.seen j hj (hle hj' hn) hn
    unseen j hj := h.unseen j fun h₁ h₂ ↦ hj h₁ (by omega)
    none_left hl j hj hj' hn := h.none_left hl j hj (hle hj' hn) hn
    found x hx := by
      obtain ⟨h₁, h₂, h₃, h₄⟩ := h.found x hx
      exact ⟨h₁, by omega, h₃, h₄⟩ }

section Relax

variable (h : Scanned cost s q k q' least best) (hs : k + 1 < q'.slack.size)
  (hp : k + 1 < q'.previous.size)
include h hs hp

theorem Scanned.seen_relax (j : Nat) (hj : 0 < j) (hj' : j ≤ k + 1) (hn : q.reached j = false) :
    if below (s.excess cost q.column j) (q.slackAt j) then
      (q'.relax cost s (k + 1)).slackAt j = some (s.excess cost q.column j) ∧
        (q'.relax cost s (k + 1)).before j = q.column
    else (q'.relax cost s (k + 1)).slackAt j = q.slackAt j ∧
      (q'.relax cost s (k + 1)).before j = q.before j := by
  by_cases hjk : j = k + 1
  · subst hjk
    obtain ⟨hslack, hbefore⟩ := h.unseen (k + 1) fun _ hle ↦ by omega
    have hself := q'.relax_self cost s hs hp
    rwa [h.column, hslack, hbefore] at hself
  · obtain ⟨hslack, hbefore⟩ := q'.relax_of_ne cost s hs hp hjk
    rw [hslack, hbefore]
    exact h.seen j hj (by omega) hn

variable (hr : q.reached (k + 1) = false)
include hr

theorem Scanned.unseen_relax (j : Nat) (hj : 0 < j → j ≤ k + 1 → q.reached j = true) :
    (q'.relax cost s (k + 1)).slackAt j = q.slackAt j ∧
      (q'.relax cost s (k + 1)).before j = q.before j := by
  have hjk : j ≠ k + 1 := by
    rintro rfl
    simp [hj (Nat.succ_pos k) (Nat.le_refl _)] at hr
  obtain ⟨hslack, hbefore⟩ := q'.relax_of_ne cost s hs hp hjk
  rw [hslack, hbefore]
  exact h.unseen j fun h₁ h₂ ↦ hj h₁ (by omega)

theorem Scanned.relax_of_not_below
    (hhigh : ∀ y, (q'.relax cost s (k + 1)).slackAt (k + 1) = some y → below y least = false) :
    Scanned cost s q (k + 1) (q'.relax cost s (k + 1)) least best := by
  obtain ⟨hvisited, hcolumn, hssize, hpsize⟩ := q'.relax_spec cost s (j := k + 1)
  have hne {i : Nat} (hi : i ≠ k + 1) := (q'.relax_of_ne cost s hs hp hi).1
  refine ⟨hvisited.trans h.visited, hcolumn.trans h.column, hssize.trans h.slack_size,
    hpsize.trans h.previous_size, h.seen_relax hs hp, h.unseen_relax hs hp hr,
    fun hl j hj hj' hn x hx ↦ ?_, fun x hx ↦ ?_⟩
  · by_cases hjk : j = k + 1
    · have hlow := hhigh x (hjk ▸ hx)
      rwa [hl] at hlow
    · rw [hne hjk] at hx
      exact h.none_left hl j hj (by omega) hn x hx
  · obtain ⟨h₁, h₂, h₃, h₄⟩ := h.found x hx
    exact ⟨h₁, by omega, h₃, (hne (by omega)).trans h₄⟩

theorem Scanned.relax_of_below {y : α}
    (hy : (q'.relax cost s (k + 1)).slackAt (k + 1) = some y) :
    Scanned cost s q (k + 1) (q'.relax cost s (k + 1)) (some y) (k + 1) := by
  obtain ⟨hvisited, hcolumn, hssize, hpsize⟩ := q'.relax_spec cost s (j := k + 1)
  refine ⟨hvisited.trans h.visited, hcolumn.trans h.column, hssize.trans h.slack_size,
    hpsize.trans h.previous_size, h.seen_relax hs hp, h.unseen_relax hs hp hr, nofun,
    fun x hx ↦ ?_⟩
  obtain rfl := Option.some_inj.1 hx
  exact ⟨Nat.succ_pos k, le_rfl, hr, hy⟩

end Relax

theorem Scanned.sized (h : Scanned cost s q k q' least best) (hq : q.Sized n) : q'.Sized n :=
  ⟨h.slack_size.trans hq.slack, h.previous_size.trans hq.previous,
    (congrArg Array.size h.visited).trans hq.visited⟩

theorem Scanned.reached (h : Scanned cost s q k q' least best) (j : Nat) :
    q'.reached j = q.reached j := by
  rw [Search.reached, h.visited, Search.reached]

theorem Scanned.succ_of_not_reached (h : Scanned cost s q k q' least best) (hq : q.Sized n)
    (hk : k < n) (hr : q.reached (k + 1) = false) :
    Scanned cost s q (k + 1) (examine cost s (s.row q.column) (q', least, best) (k + 1)).1
      (examine cost s (s.row q.column) (q', least, best) (k + 1)).2.1
      (examine cost s (s.row q.column) (q', least, best) (k + 1)).2.2 := by
  have hs : k + 1 < q'.slack.size := by rw [(h.sized hq).slack]; omega
  have hp : k + 1 < q'.previous.size := by rw [(h.sized hq).previous]; omega
  rw [← h.column, examine_of_not_reached ((h.reached _).trans hr)]
  cases hy : (q'.relax cost s (k + 1)).slackAt (k + 1) with
  | none => exact h.relax_of_not_below hs hp hr (by simp [hy])
  | some y =>
    dsimp only
    split
    · exact h.relax_of_below hs hp hr hy
    · next hhigh => exact h.relax_of_not_below hs hp hr (by simpa [hy] using hhigh)

theorem scanned_scan (cost : Nat → Nat → α) (s : State α) (hq : q.Sized n) (hk : k ≤ n) :
    Scanned cost s q k (scan cost s q k).1 (scan cost s q k).2.1 (scan cost s q k).2.2 := by
  induction k with
  | zero =>
    refine ⟨rfl, rfl, rfl, rfl, fun j hj hj' ↦ by omega, fun j _ ↦ ⟨rfl, rfl⟩,
      fun _ j hj hj' ↦ by omega, fun x hx ↦ ?_⟩
    cases hx
  | succ k ih =>
    have hih := ih (by omega)
    rw [scan_succ]
    cases hr : q.reached (k + 1) with
    | true =>
      rw [examine_of_reached ((hih.reached _).trans hr)]
      exact hih.succ_of_reached hr
    | false => exact hih.succ_of_not_reached hq hk hr

theorem below_none [NeverInfinite α] (x : α) : below x none = true := NeverInfinite.belowTop x

theorem exists_slack [NeverInfinite α] {x : α} {slack slack' : Option α} {P Q : Prop}
    (h : if below x slack then slack' = some x ∧ P else slack' = slack ∧ Q) :
    ∃ y, slack' = some y := by
  split at h
  · exact ⟨x, h.1⟩
  · next hlow =>
    cases slack with
    | none => exact absurd (below_none x) hlow
    | some y => exact ⟨y, h.1⟩

/-- Where no number reaches infinity a column is found, as long as one is left. -/
theorem Scanned.reached_of_none [NeverInfinite α] (h : Scanned cost s q k q' none best)
    (hj : 0 < j) (hjk : j ≤ k) : q.reached j = true := by
  by_contra hr
  have hr := Bool.eq_false_iff.2 hr
  obtain ⟨x, hx⟩ := exists_slack (h.seen j hj hjk hr)
  have hleft := h.none_left rfl j hj hjk hr x hx
  simp [NeverInfinite.belowTop x] at hleft

end Scan

section Lowest

variable {cost : Nat → Nat → Rat} {s : State Rat} {q : Search Rat} {k j : Nat} {x : Rat}

theorem below_some (x y : Rat) : below x (some y) = true ↔ x < y := decide_eq_true_iff

/-- No column that is left has a lower slack than the one that is found, and none before it has the
same. -/
theorem lowest_scan (hq : q.Sized n) (hk : k ≤ n) (hx : (scan cost s q k).2.1 = some x) (hj : 0 < j)
    (hjk : j ≤ k) (hr : q.reached j = false) :
    ∃ y, (scan cost s q k).1.slackAt j = some y ∧ x ≤ y ∧ (j < (scan cost s q k).2.2 → x < y) := by
  induction k generalizing x with
  | zero => omega
  | succ k ih =>
    have hscan := scanned_scan cost s hq (Nat.le_of_succ_le hk)
    have ih {x : Rat} (hx : (scan cost s q k).2.1 = some x) (hjk : j ≤ k) :=
      ih (Nat.le_of_succ_le hk) hx hjk
    rw [scan_succ] at hx ⊢
    generalize scan cost s q k = found at hscan ih hx ⊢
    obtain ⟨q', least, best⟩ := found
    dsimp only at hscan ih
    cases hr' : q.reached (k + 1) with
    | true =>
      rw [examine_of_reached ((hscan.reached _).trans hr')] at hx ⊢
      refine ih hx (Nat.le_of_lt_succ (lt_of_le_of_ne hjk ?_))
      rintro rfl
      simp [hr] at hr'
    | false =>
      have hs : k + 1 < q'.slack.size := by rw [(hscan.sized hq).slack]; omega
      have hp : k + 1 < q'.previous.size := by rw [(hscan.sized hq).previous]; omega
      have hne (hj' : j ≠ k + 1) := (q'.relax_of_ne cost s hs hp hj').1
      obtain ⟨y, hy⟩ := exists_slack (q'.relax_self cost s hs hp)
      rw [← hscan.column, examine_of_not_reached ((hscan.reached _).trans hr')] at hx ⊢
      rw [hy] at hx ⊢
      dsimp only at hx ⊢
      by_cases hlow : below y least = true
      · -- the new column is lower than all before it
        rw [if_pos hlow] at hx ⊢
        obtain rfl := Option.some_inj.1 hx
        by_cases hj' : j = k + 1
        · exact ⟨y, hj' ▸ hy, le_rfl, fun hlt ↦ absurd hj' (Nat.ne_of_lt hlt)⟩
        · cases hl : least with
          | none =>
            rw [hl] at hscan
            simp [hscan.reached_of_none hj (show j ≤ k by omega)] at hr
          | some z =>
            rw [hl, below_some] at hlow
            obtain ⟨w, hw, hzw, -⟩ := ih hl (by omega)
            exact ⟨w, (hne hj').trans hw, (hlow.trans_le hzw).le, fun _ ↦ hlow.trans_le hzw⟩
      · rw [if_neg hlow] at hx ⊢
        dsimp only at hx ⊢
        rw [hx, below_some, not_lt] at hlow
        by_cases hj' : j = k + 1
        · have hbest := (hscan.found x hx).2.1
          exact ⟨y, hj' ▸ hy, hlow, fun hlt ↦ by omega⟩
        · obtain ⟨w, hw, hxw, hlt⟩ := ih hx (by omega)
          exact ⟨w, (hne hj').trans hw, hxw, hlt⟩

end Lowest

section Reprice

variable {s s' : State α} {q q' : Search α} {k : Nat} {amount : α}

/-- What a change of prices leaves after the first `k` columns: rows and columns that are reached
move by the amount in opposite directions, and slacks come down by it. -/
structure Repriced (amount : α) (s : State α) (q : Search α) (k : Nat) (s' : State α)
    (q' : Search α) : Prop where
  owner : s'.owner = s.owner
  previous : q'.previous = q.previous
  visited : q'.visited = q.visited
  rowPrice_size : s'.rowPrice.size = s.rowPrice.size
  columnPrice_size : s'.columnPrice.size = s.columnPrice.size
  slack_size : q'.slack.size = q.slack.size
  raised : ∀ j < k, q.reached j = true → s'.rowPriceAt (s.row j) = s.rowPriceAt (s.row j) + amount
  unraised : ∀ i, (∀ j < k, q.reached j = true → s.row j ≠ i) → s'.rowPriceAt i = s.rowPriceAt i
  columnPriceAt : ∀ j, s'.columnPriceAt j =
    if j < k ∧ q.reached j = true then s.columnPriceAt j - amount else s.columnPriceAt j
  slackAt : ∀ j, q'.slackAt j =
    if j < k ∧ q.reached j = false then (q.slackAt j).map (· - amount) else q.slackAt j

def State.movePrices (amount : α) (s : State α) (j : Nat) : State α :=
  { s with
    rowPrice := s.rowPrice.modify (s.row j) (· + amount)
    columnPrice := s.columnPrice.modify j (· - amount) }

def Search.lowerSlack (amount : α) (q : Search α) (j : Nat) : Search α :=
  { q with slack := q.slack.modify j (Option.map (· - amount)) }

theorem reprice_eq : reprice n amount s q = (List.range (n + 1)).foldl (fun x j ↦
    if x.2.reached j then (x.1.movePrices amount j, x.2)
    else (x.1, x.2.lowerSlack amount j)) (s, q) := rfl

namespace Repriced

variable (h : Repriced amount s q k s' q')
include h

theorem reached (j : Nat) : q'.reached j = q.reached j := by
  rw [Search.reached, h.visited, Search.reached]

theorem row (j : Nat) : s'.row j = s.row j := by rw [State.row, h.owner, State.row]

theorem succ_of_reached (hs : s.Sized n) (hrow : s.row k ≤ n)
    (hinj : ∀ j < k, q.reached j = true → s.row j ≠ s.row k) (hk : k ≤ n)
    (hk' : q.reached k = true) : Repriced amount s q (k + 1) (s'.movePrices amount k) q' := by
  have hu : s'.row k < s'.rowPrice.size := by
    rw [h.row, h.rowPrice_size, hs.rowPrice]
    exact Nat.lt_succ_of_le hrow
  have hv : k < s'.columnPrice.size := by
    rw [h.columnPrice_size, hs.columnPrice]
    omega
  have hrowPrice (i : Nat) : (s'.movePrices amount k).rowPriceAt i =
      if i = s.row k then s'.rowPriceAt i + amount else s'.rowPriceAt i := by
    rw [State.rowPriceAt, price, State.movePrices, getD_modify hu, h.row]
    rfl
  have hcolumnPrice (j : Nat) : (s'.movePrices amount k).columnPriceAt j =
      if j = k then s'.columnPriceAt j - amount else s'.columnPriceAt j := by
    rw [State.columnPriceAt, price, State.movePrices, getD_modify hv]
    rfl
  have hlt {j : Nat} (hjk : j ≠ k) : j < k + 1 ↔ j < k := by omega
  exact {
    owner := h.owner
    previous := h.previous
    visited := h.visited
    rowPrice_size := by
      rw [State.movePrices, Array.size_modify, h.rowPrice_size]
    columnPrice_size := by
      rw [State.movePrices, Array.size_modify, h.columnPrice_size]
    slack_size := h.slack_size
    raised j hj hr := by
      rw [hrowPrice]
      by_cases hjk : j = k
      · -- no column before this one has its row
        rw [hjk, if_pos rfl, h.unraised _ hinj]
      · have hj := (hlt hjk).1 hj
        rw [if_neg (hinj j hj hr), h.raised j hj hr]
    unraised i hi := by
      rw [hrowPrice, if_neg (hi k (Nat.lt_succ_self k) hk').symm]
      exact h.unraised i fun j hj ↦ hi j (by omega)
    columnPriceAt j := by
      rw [hcolumnPrice, h.columnPriceAt]
      by_cases hjk : j = k
      · simp [hjk, hk']
      · simp [hjk, hlt hjk]
    slackAt j := by
      rw [h.slackAt]
      by_cases hjk : j = k
      · simp [hjk, hk']
      · simp [hlt hjk] }

theorem succ_of_not_reached (hq : q.Sized n) (hk : k ≤ n) (hk' : q.reached k = false) :
    Repriced amount s q (k + 1) s' (q'.lowerSlack amount k) := by
  have hw : k < q'.slack.size := by
    rw [h.slack_size, hq.slack]
    omega
  have hslackAt (j : Nat) : (q'.lowerSlack amount k).slackAt j =
      if j = k then (q'.slackAt j).map (· - amount) else q'.slackAt j := by
    rw [Search.slackAt, Search.lowerSlack, getD_modify hw]
    rfl
  have hlt {j : Nat} (hjk : j ≠ k) : j < k + 1 ↔ j < k := by omega
  have hne {j : Nat} (hr : q.reached j = true) : j ≠ k := by
    rintro rfl
    simp [hk'] at hr
  exact {
    owner := h.owner
    previous := h.previous
    visited := h.visited
    rowPrice_size := h.rowPrice_size
    columnPrice_size := h.columnPrice_size
    slack_size := by
      rw [Search.lowerSlack, Array.size_modify, h.slack_size]
    raised j hj hr := h.raised j ((hlt (hne hr)).1 hj) hr
    unraised i hi := h.unraised i fun j hj ↦ hi j (by omega)
    columnPriceAt j := by
      rw [h.columnPriceAt]
      by_cases hr : q.reached j = true
      · simp [hr, hlt (hne hr)]
      · simp [hr]
    slackAt j := by
      rw [hslackAt, h.slackAt]
      by_cases hjk : j = k
      · simp [hjk, hk']
      · simp [hjk, hlt hjk] }

end Repriced

theorem repriced_reprice (amount : α) (hs : s.Sized n) (hq : q.Sized n)
    (hrow : ∀ j ≤ n, s.row j ≤ n)
    (hinj : ∀ i ≤ n, ∀ j ≤ n, q.reached i = true → q.reached j = true → s.row i = s.row j →
      i = j) :
    Repriced amount s q (n + 1) (reprice n amount s q).1 (reprice n amount s q).2 := by
  rw [reprice_eq]
  suffices hall : ∀ k ≤ n + 1, Repriced amount s q k
      ((List.range k).foldl (fun x j ↦ if x.2.reached j then (x.1.movePrices amount j, x.2)
        else (x.1, x.2.lowerSlack amount j)) (s, q)).1
      ((List.range k).foldl (fun x j ↦ if x.2.reached j then (x.1.movePrices amount j, x.2)
        else (x.1, x.2.lowerSlack amount j)) (s, q)).2 from hall (n + 1) le_rfl
  intro k hk
  induction k with
  | zero => exact ⟨rfl, rfl, rfl, rfl, rfl, rfl, nofun, fun _ _ ↦ rfl, by simp, by simp⟩
  | succ k ih =>
    have hih := ih (by omega)
    rw [List.range_succ, List.foldl_append, List.foldl_cons, List.foldl_nil, hih.reached]
    have hk : k ≤ n := by omega
    split
    · next hr =>
      refine hih.succ_of_reached hs (hrow k hk) (fun j hj hjr he ↦ ?_) hk hr
      exact hj.ne (hinj j (by omega) k hk hjr hr he)
    · next hr => exact hih.succ_of_not_reached hq hk (Bool.eq_false_iff.2 hr)

end Reprice

end FlowMerge.Assignment
