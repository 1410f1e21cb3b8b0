import FlowMerge.Proofs.Sequence
import Mathlib.Data.List.Infix
import Mathlib.Data.List.Lex
import Mathlib.Data.List.NodupEquivFin

namespace FlowMerge.Sequence

variable {α β γ : Type} {eq : α → β → Bool} {a : List α} {b : List β} {x : α} {y : β}
  {best : Nat → Nat → Nat} {i j k m : Nat} {p : Nat × Nat} {ps qs : List (Nat × Nat)}

def Paired (eq : α → β → Bool) (a : List α) (b : List β) (p : Nat × Nat) : Prop :=
  ∃ x y, a[p.1]? = some x ∧ b[p.2]? = some y ∧ eq x y = true

/-- The places of a common subsequence go up in both lists. -/
structure Common (eq : α → β → Bool) (a : List α) (b : List β) (ps : List (Nat × Nat)) : Prop where
  increasing : ps.Pairwise fun p q ↦ p.1 < q.1 ∧ p.2 < q.2
  paired : ∀ p ∈ ps, Paired eq a b p

/-- A common subsequence of what is left of two lists at `i` and `j`. -/
inductive CommonFrom (eq : α → β → Bool) (a : List α) (b : List β) :
    Nat → Nat → List (Nat × Nat) → Prop
  | nil (i j : Nat) : CommonFrom eq a b i j []
  | cons {i j : Nat} {p : Nat × Nat} {ps : List (Nat × Nat)} (hi : i ≤ p.1) (hj : j ≤ p.2)
      (hp : Paired eq a b p) (hps : CommonFrom eq a b (p.1 + 1) (p.2 + 1) ps) :
      CommonFrom eq a b i j (p :: ps)

theorem CommonFrom.mono (h : CommonFrom eq a b k m ps) (hi : i ≤ k) (hj : j ≤ m) :
    CommonFrom eq a b i j ps := by
  cases h with
  | nil => exact .nil i j
  | cons hi' hj' hp hps => exact .cons (Nat.le_trans hi hi') (Nat.le_trans hj hj') hp hps

theorem commonFrom_iff : CommonFrom eq a b i j ps ↔
    Common eq a b ps ∧ ∀ p ∈ ps, i ≤ p.1 ∧ j ≤ p.2 := by
  induction ps generalizing i j with
  | nil => exact iff_of_true (.nil i j) ⟨⟨.nil, List.forall_mem_nil _⟩, List.forall_mem_nil _⟩
  | cons p ps ih =>
    rw [List.forall_mem_cons]
    constructor
    · intro h
      cases h with
      | cons hi hj hp hps =>
        obtain ⟨⟨hinc, hpaired⟩, hle⟩ := ih.1 hps
        exact ⟨⟨List.pairwise_cons.2 ⟨hle, hinc⟩, List.forall_mem_cons.2 ⟨hp, hpaired⟩⟩, ⟨hi, hj⟩,
          fun q hq ↦ ⟨Nat.le_of_lt (Nat.lt_of_le_of_lt hi (hle q hq).1),
            Nat.le_of_lt (Nat.lt_of_le_of_lt hj (hle q hq).2)⟩⟩
    · rintro ⟨⟨hinc, hpaired⟩, ⟨hi, hj⟩, -⟩
      obtain ⟨hlt, hinc⟩ := List.pairwise_cons.1 hinc
      obtain ⟨hp, hpaired⟩ := List.forall_mem_cons.1 hpaired
      exact .cons hi hj hp (ih.2 ⟨⟨hinc, hpaired⟩, hlt⟩)

theorem CommonFrom.length_le (h : CommonFrom eq a b i j ps) : ps.length ≤ a.length - i := by
  induction h with
  | nil => exact Nat.zero_le _
  | @cons i j p ps hi _ hp _ ih =>
    obtain ⟨x, y, hx, -, -⟩ := hp
    have hlt := (List.getElem?_eq_some_iff.1 hx).1
    rw [List.length_cons]
    omega

/-- Without the first elements of the second list the places in the first need not be later, as
long as there is a common subsequence of the same length and none is longer. -/
theorem exists_le_of_length_eq (hps : CommonFrom eq a b i j ps) (hqs : CommonFrom eq a b i m qs)
    (hlen : qs.length = ps.length)
    (hmax : ∀ rs, CommonFrom eq a b i j rs → rs.length ≤ ps.length) :
    ∃ rs, CommonFrom eq a b i m rs ∧ rs.length = ps.length ∧
      rs.map Prod.fst ≤ ps.map Prod.fst := by
  induction hps generalizing m qs with
  | nil => exact ⟨[], .nil _ _, rfl, le_rfl⟩
  | @cons i j p ps hi hj hp hps ih =>
    by_cases hm : m ≤ p.2
    · exact ⟨p :: ps, .cons hi hm hp hps, rfl, le_rfl⟩
    · cases hqs with
      | nil => cases hlen
      | @cons _ _ q qs hi' hm' hq hqs =>
        rcases Nat.lt_trichotomy q.1 p.1 with hlt | heq | hgt
        · exact ⟨q :: qs, .cons hi' hm' hq hqs, hlen, le_of_lt (List.Lex.rel hlt)⟩
        · -- both begin at one place of the first list, and what follows is compared
          obtain ⟨rs, hrs, hl, hle⟩ := ih (heq ▸ hqs) (Nat.succ.inj hlen) fun rs hrs ↦
            Nat.le_of_succ_le_succ (hmax (p :: rs) (.cons hi hj hp hrs))
          refine ⟨q :: rs, .cons hi' hm' hq (heq ▸ hrs), congrArg Nat.succ hl, ?_⟩
          rw [List.map_cons, List.map_cons, heq]
          exact List.cons_le_cons p.1 hle
        · -- `p` could come before all of `qs`, which would make it longer
          have hq2 : p.2 + 1 ≤ q.2 := Nat.lt_of_lt_of_le (Nat.lt_of_not_le hm) hm'
          have hlonger := hmax (p :: q :: qs) (.cons hi hj hp (.cons hgt hq2 hq hqs))
          rw [List.length_cons, hlen] at hlonger
          exact absurd hlonger (Nat.not_succ_le_self _)

structure Counts (eq : α → β → Bool) (a : List α) (b : List β) (best : Nat → Nat → Nat) :
    Prop where
  ended : ∀ i j, a.length ≤ i ∨ b.length ≤ j → best i j = 0
  step : ∀ i j x y, a[i]? = some x → b[j]? = some y → best i j =
    if eq x y then best (i + 1) (j + 1) + 1 else max (best (i + 1) j) (best i (j + 1))

theorem counts_table (eq : α → β → Bool) (a : List α) (b : List β) :
    Counts eq a b fun i j ↦
      (((table eq b a).map List.toArray).toArray.getD i #[]).getD j 0 where
  ended i j h := by rw [getD_toArray, getD_table_of_le h]
  step i j x y hx hy := by simp only [getD_toArray, getD_table hx hy]

namespace Counts

variable (h : Counts eq a b best)
include h

theorem length_le (hps : CommonFrom eq a b i j ps) : ps.length ≤ best i j := by
  induction hn : a.length - i + (b.length - j) using Nat.strongRecOn generalizing i j ps with
  | ind n ih =>
    cases hps with
    | nil => exact Nat.zero_le _
    | @cons _ _ p ps hi hj hp hps =>
      obtain ⟨x', y', hx', hy', he⟩ := hp
      have hia := Nat.lt_of_le_of_lt hi (List.getElem?_eq_some_iff.1 hx').1
      have hjb := Nat.lt_of_le_of_lt hj (List.getElem?_eq_some_iff.1 hy').1
      have hx := List.getElem?_eq_getElem hia
      have hy := List.getElem?_eq_getElem hjb
      rw [h.step i j _ _ hx hy]
      split
      · have hrest := hps.mono (Nat.succ_le_succ hi) (Nat.succ_le_succ hj)
        exact Nat.succ_le_succ (ih _ (by omega) hrest rfl)
      · next hne =>
        by_cases hlt : i < p.1
        · have hafter : CommonFrom eq a b (i + 1) j (p :: ps) :=
            .cons hlt hj ⟨x', y', hx', hy', he⟩ hps
          exact Nat.le_trans (ih _ (by omega) hafter rfl) (Nat.le_max_left _ _)
        · obtain rfl := Nat.le_antisymm hi (Nat.le_of_not_lt hlt)
          have hjp : j ≠ p.2 := by
            rintro rfl
            rw [Option.some_inj.1 (hx.symm.trans hx'), Option.some_inj.1 (hy.symm.trans hy')] at hne
            exact hne he
          have hafter : CommonFrom eq a b p.1 (j + 1) (p :: ps) :=
            .cons hi (Nat.lt_of_le_of_ne hj hjp) ⟨x', y', hx', hy', he⟩ hps
          exact Nat.le_trans (ih _ (by omega) hafter rfl) (Nat.le_max_right _ _)

theorem step_of_not (hx : a[i]? = some x) (hy : b[j]? = some y)
    (hn : ¬ (eq x y && best i j == best (i + 1) (j + 1) + 1) = true) :
    eq x y = false ∧ best i j = max (best (i + 1) j) (best i (j + 1)) := by
  have hstep := h.step i j x y hx hy
  cases he : eq x y with
  | true =>
    rw [he, if_pos rfl] at hstep
    rw [he, hstep, beq_self_eq_true] at hn
    exact absurd rfl hn
  | false =>
    rw [he, if_neg Bool.false_ne_true] at hstep
    exact ⟨rfl, hstep⟩

/-- What is found is a common subsequence, and it has as many pairs as are counted. -/
theorem commonFrom_follow {xs : List α} {ys : List β} (ha : a.drop i = xs) (hb : b.drop j = ys) :
    CommonFrom eq a b i j (follow eq best i j xs ys) ∧
      (follow eq best i j xs ys).length = best i j := by
  induction i, j, xs, ys using follow.induct eq best with
  | case1 i j x xs y ys he ih =>
    obtain ⟨hx, hxs⟩ := next_of_drop ha
    obtain ⟨hy, hys⟩ := next_of_drop hb
    obtain ⟨hrest, hlen⟩ := ih hxs hys
    obtain ⟨he', hbest⟩ := Bool.and_eq_true_iff.1 he
    rw [follow, if_pos he, List.length_cons, hlen]
    exact ⟨.cons (Nat.le_refl i) (Nat.le_refl j) ⟨x, y, hx, hy, he'⟩ hrest,
      (beq_iff_eq.1 hbest).symm⟩
  | case2 i j x xs y ys hn hle ih =>
    obtain ⟨hy, hys⟩ := next_of_drop hb
    obtain ⟨hrest, hlen⟩ := ih ha hys
    rw [follow, if_neg hn, if_pos hle, hlen,
      (h.step_of_not (next_of_drop ha).1 hy hn).2, Nat.max_eq_right hle]
    exact ⟨hrest.mono (Nat.le_refl i) (Nat.le_succ j), rfl⟩
  | case3 i j x xs y ys hn hle ih =>
    obtain ⟨hx, hxs⟩ := next_of_drop ha
    obtain ⟨hrest, hlen⟩ := ih hxs hb
    rw [follow, if_neg hn, if_neg hle, hlen,
      (h.step_of_not hx (next_of_drop hb).1 hn).2, Nat.max_eq_left (Nat.le_of_not_le hle)]
    exact ⟨hrest.mono (Nat.le_succ i) (Nat.le_refl j), rfl⟩
  | case4 i j xs ys hn =>
    have hended : a.length ≤ i ∨ b.length ≤ j := by
      rw [← List.drop_eq_nil_iff, ← List.drop_eq_nil_iff, ha, hb]
      cases xs with
      | nil => exact .inl rfl
      | cons x xs =>
        cases ys with
        | nil => exact .inr rfl
        | cons y ys => exact absurd rfl (hn x xs y ys rfl)
    rw [follow_of_ended hn, h.ended i j hended]
    exact ⟨.nil i j, rfl⟩

theorem follow_le {xs : List α} {ys : List β} (ha : a.drop i = xs) (hb : b.drop j = ys)
    (hps : CommonFrom eq a b i j ps) (hlen : ps.length = best i j) :
    (follow eq best i j xs ys).map Prod.fst ≤ ps.map Prod.fst := by
  induction i, j, xs, ys using follow.induct eq best generalizing ps with
  | case1 i j x xs y ys he ih =>
    rw [follow, if_pos he]
    rw [beq_iff_eq.1 (Bool.and_eq_true_iff.1 he).2] at hlen
    cases hps with
    | nil => cases hlen
    | @cons _ _ p ps hi hj hp hps =>
      rcases Nat.lt_or_eq_of_le hi with hlt | heq
      · exact le_of_lt (List.Lex.rel hlt)
      · have hrest := hps.mono (Nat.le_of_eq (congrArg Nat.succ heq)) (Nat.succ_le_succ hj)
        rw [List.map_cons, List.map_cons, ← heq]
        exact List.cons_le_cons i
          (ih (next_of_drop ha).2 (next_of_drop hb).2 hrest (Nat.succ.inj hlen))
  | case2 i j x xs y ys hn hle ih =>
    obtain ⟨hy, hys⟩ := next_of_drop hb
    obtain ⟨hfound, hfoundlen⟩ := h.commonFrom_follow ha hys
    have hbest : best i j = best i (j + 1) := by
      rw [(h.step_of_not (next_of_drop ha).1 hy hn).2, Nat.max_eq_right hle]
    rw [follow, if_neg hn, if_pos hle]
    obtain ⟨rs, hrs, hrslen, hrsle⟩ := exists_le_of_length_eq hps hfound
      (hfoundlen.trans (hbest.symm.trans hlen.symm)) fun rs hrs ↦ hlen ▸ h.length_le hrs
    exact (ih ha hys hrs (hrslen.trans (hlen.trans hbest))).trans hrsle
  | case3 i j x xs y ys hn hle ih =>
    obtain ⟨hx, hxs⟩ := next_of_drop ha
    obtain ⟨hy, -⟩ := next_of_drop hb
    obtain ⟨hne, hbest⟩ := h.step_of_not hx hy hn
    rw [Nat.max_eq_left (Nat.le_of_not_le hle)] at hbest
    rw [follow, if_neg hn, if_neg hle]
    refine ih hxs hb ?_ (hlen.trans hbest)
    cases hps with
    | nil => exact .nil _ _
    | @cons _ _ p ps hi hj hp hps =>
      rcases Nat.lt_or_eq_of_le hi with hlt | heq
      · exact .cons hlt hj hp hps
      · -- a pair at `i` leaves out `y`, and so is not one of enough pairs
        have hjp : j ≠ p.2 := by
          obtain ⟨x', y', hx', hy', he⟩ := hp
          rintro rfl
          rw [← heq] at hx'
          rw [← Option.some_inj.1 (hx.symm.trans hx'), ← Option.some_inj.1 (hy.symm.trans hy'),
            hne] at he
          cases he
        have hafter : (p :: ps).length ≤ best i (j + 1) :=
          h.length_le (.cons hi (Nat.lt_of_le_of_ne hj hjp) hp hps)
        omega
  | case4 i j xs ys hn =>
    rw [follow_of_ended hn]
    rcases List.lex_nil_or_eq_nil (r := (· < ·)) (ps.map Prod.fst) with hlt | heq
    · exact le_of_lt hlt
    · exact le_of_eq heq.symm

end Counts

theorem common_commonPairs (eq : α → β → Bool) (a : List α) (b : List β) :
    Common eq a b (commonPairs eq a b) :=
  (commonFrom_iff.1 ((counts_table eq a b).commonFrom_follow rfl rfl).1).1

namespace Common

theorem snd_lt {q : Nat × Nat} (h : Common eq a b ps) (hp : p ∈ ps) (hq : q ∈ ps)
    (hlt : p.1 < q.1) : p.2 < q.2 := by
  obtain ⟨k, hk, rfl⟩ := List.getElem_of_mem hp
  obtain ⟨l, hl, rfl⟩ := List.getElem_of_mem hq
  have hinc := List.pairwise_iff_getElem.1 h.increasing
  rcases Nat.lt_trichotomy k l with hkl | rfl | hkl
  · exact (hinc k l hk hl hkl).2
  · exact absurd hlt (Nat.lt_irrefl _)
  · exact absurd hlt (Nat.lt_asymm (hinc l k hl hk hkl).1)

theorem commonFrom (h : Common eq a b ps) : CommonFrom eq a b 0 0 ps :=
  commonFrom_iff.2 ⟨h, fun p _ ↦ ⟨Nat.zero_le p.1, Nat.zero_le p.2⟩⟩

theorem length_le (h : Common eq a b ps) : ps.length ≤ (commonPairs eq a b).length :=
  Nat.le_trans ((counts_table eq a b).length_le h.commonFrom)
    (Nat.le_of_eq ((counts_table eq a b).commonFrom_follow rfl rfl).2.symm)

theorem commonPairs_le (h : Common eq a b ps) (hlen : ps.length = (commonPairs eq a b).length) :
    (commonPairs eq a b).map Prod.fst ≤ ps.map Prod.fst :=
  (counts_table eq a b).follow_le rfl rfl h.commonFrom
    (hlen.trans ((counts_table eq a b).commonFrom_follow rfl rfl).2)

theorem of_sublist {l : List α} {r : List β} (h : Common eq l r ps) (hl : l.Sublist a)
    (hr : r.Sublist b) : ∃ qs, Common eq a b qs ∧ qs.length = ps.length := by
  obtain ⟨f, hf⟩ := List.sublist_iff_exists_orderEmbedding_getElem?_eq.1 hl
  obtain ⟨g, hg⟩ := List.sublist_iff_exists_orderEmbedding_getElem?_eq.1 hr
  refine ⟨ps.map fun p ↦ (f p.1, g p.2), ⟨List.pairwise_map.2 (h.increasing.imp fun hlt ↦
    ⟨f.lt_iff_lt.2 hlt.1, g.lt_iff_lt.2 hlt.2⟩), fun p hp ↦ ?_⟩, List.length_map _⟩
  obtain ⟨q, hq, rfl⟩ := List.mem_map.1 hp
  obtain ⟨x, y, hx, hy, he⟩ := h.paired q hq
  exact ⟨x, y, (hf q.1).symm.trans hx, (hg q.2).symm.trans hy, he⟩

theorem lt_length (h : Common eq a b ps) (hp : p ∈ ps) : p.1 < a.length ∧ p.2 < b.length := by
  obtain ⟨x, y, hx, hy, -⟩ := h.paired p hp
  exact ⟨(List.getElem?_eq_some_iff.1 hx).1, (List.getElem?_eq_some_iff.1 hy).1⟩

theorem append (h : Common eq a b ps) (a' : List α) (b' : List β) :
    Common eq (a ++ a') (b ++ b') ps := by
  refine ⟨h.increasing, fun p hp ↦ ?_⟩
  obtain ⟨hpa, hpb⟩ := h.lt_length hp
  obtain ⟨x, y, hx, hy, he⟩ := h.paired p hp
  exact ⟨x, y, (List.getElem?_append_left hpa).trans hx, (List.getElem?_append_left hpb).trans hy,
    he⟩

theorem of_append {a' : List α} {b' : List β} (h : Common eq (a ++ a') (b ++ b') ps)
    (hlt : ∀ p ∈ ps, p.1 < a.length ∧ p.2 < b.length) : Common eq a b ps := by
  refine ⟨h.increasing, fun p hp ↦ ?_⟩
  obtain ⟨hpa, hpb⟩ := hlt p hp
  obtain ⟨x, y, hx, hy, he⟩ := h.paired p hp
  rw [List.getElem?_append_left hpa] at hx
  rw [List.getElem?_append_left hpb] at hy
  exact ⟨x, y, hx, hy, he⟩

theorem lt_last (h : Common eq a b (ps ++ [p])) {q : Nat × Nat} (hq : q ∈ ps) :
    q.1 < p.1 ∧ q.2 < p.2 :=
  (List.pairwise_append.1 h.increasing).2.2 q hq p List.mem_cons_self

theorem snoc (h : Common eq a b ps) (he : eq x y = true) :
    Common eq (a ++ [x]) (b ++ [y]) (ps ++ [(a.length, b.length)]) := by
  refine ⟨List.pairwise_append.2 ⟨h.increasing, List.pairwise_singleton _ _, fun p hp q hq ↦ ?_⟩,
    fun p hp ↦ ?_⟩
  · rw [List.mem_singleton.1 hq]
    exact h.lt_length hp
  · rcases List.mem_append.1 hp with hp | hp
    · exact (h.append [x] [y]).paired p hp
    · rw [List.mem_singleton.1 hp]
      exact ⟨x, y, List.getElem?_concat_length, List.getElem?_concat_length, he⟩

theorem length_le_succ (h : Common eq (a ++ [x]) (b ++ [y]) ps) :
    ps.length ≤ (commonPairs eq a b).length + 1 := by
  rcases List.eq_nil_or_concat' ps with rfl | ⟨qs, p, rfl⟩
  · exact Nat.zero_le _
  · obtain ⟨hpa, hpb⟩ := h.lt_length (List.mem_append_right qs List.mem_cons_self)
    rw [List.length_append, List.length_singleton] at hpa hpb
    have hqs : Common eq (a ++ [x]) (b ++ [y]) qs :=
      ⟨(List.pairwise_append.1 h.increasing).1,
        fun q hq ↦ h.paired q (List.mem_append_left [p] hq)⟩
    have hlen := (hqs.of_append fun q hq ↦ ⟨by have := h.lt_last hq; omega,
      by have := h.lt_last hq; omega⟩).length_le
    rw [List.length_append]
    exact Nat.succ_le_succ hlen

/-- If two last elements are not paired, one of them is in no pair. -/
theorem of_snoc (h : Common eq (a ++ [x]) (b ++ [y]) ps) (hne : eq x y = false) :
    Common eq (a ++ [x]) b ps ∨ Common eq a (b ++ [y]) ps := by
  rcases List.eq_nil_or_concat' ps with rfl | ⟨qs, p, rfl⟩
  · exact .inl ⟨.nil, List.forall_mem_nil _⟩
  · have hp : p ∈ qs ++ [p] := List.mem_append_right qs List.mem_cons_self
    obtain ⟨hpa, hpb⟩ := h.lt_length hp
    rw [List.length_append, List.length_singleton] at hpa hpb
    have hle {q : Nat × Nat} (hq : q ∈ qs ++ [p]) : q.1 ≤ p.1 ∧ q.2 ≤ p.2 := by
      rcases List.mem_append.1 hq with hq | hq
      · exact ⟨Nat.le_of_lt (h.lt_last hq).1, Nat.le_of_lt (h.lt_last hq).2⟩
      · rw [List.mem_singleton.1 hq]
        exact ⟨Nat.le_refl _, Nat.le_refl _⟩
    have hlast : p.2 < b.length ∨ p.1 < a.length := by
      by_contra hends
      obtain ⟨x', y', hx', hy', he⟩ := h.paired p hp
      rw [show p.1 = a.length by omega, List.getElem?_concat_length] at hx'
      rw [show p.2 = b.length by omega, List.getElem?_concat_length] at hy'
      rw [← Option.some_inj.1 hx', ← Option.some_inj.1 hy', hne] at he
      cases he
    rcases hlast with hlt | hlt
    · refine .inl ?_
      have hlt {q : Nat × Nat} (hq : q ∈ qs ++ [p]) : q.1 < (a ++ [x]).length ∧ q.2 < b.length :=
        ⟨(h.lt_length hq).1, Nat.lt_of_le_of_lt (hle hq).2 hlt⟩
      rw [← List.append_nil (a ++ [x])] at h
      exact h.of_append fun q ↦ hlt
    · refine .inr ?_
      have hlt {q : Nat × Nat} (hq : q ∈ qs ++ [p]) : q.1 < a.length ∧ q.2 < (b ++ [y]).length :=
        ⟨Nat.lt_of_le_of_lt (hle hq).1 hlt, (h.lt_length hq).2⟩
      rw [← List.append_nil (b ++ [y])] at h
      exact h.of_append fun q ↦ hlt

theorem swap (h : Common eq a b ps) : Common (fun y x ↦ eq x y) b a (ps.map Prod.swap) := by
  refine ⟨List.pairwise_map.2 (h.increasing.imp And.symm), fun p hp ↦ ?_⟩
  obtain ⟨q, hq, rfl⟩ := List.mem_map.1 hp
  obtain ⟨x, y, hx, hy, he⟩ := h.paired q hq
  exact ⟨y, x, hy, hx, he⟩

end Common

/-- Parts that agree place by place are no longer than what is found in the two lists. -/
theorem length_le_commonPairs {l : List α} {r : List β}
    (h : List.Forall₂ (fun x y ↦ eq x y = true) l r) (hl : l.Sublist a) (hr : r.Sublist b) :
    l.length ≤ (commonPairs eq a b).length := by
  obtain ⟨qs, hqs, hlen⟩ := (common_commonPairs eq l r).of_sublist hl hr
  rw [commonPairs_of_forall₂ h, List.length_map, List.length_range] at hlen
  exact hlen ▸ hqs.length_le

/-- The greatest number of pairs with one more element in each list. -/
theorem length_commonPairs_snoc (eq : α → β → Bool) (a : List α) (b : List β) (x : α) (y : β) :
    (commonPairs eq (a ++ [x]) (b ++ [y])).length =
      if eq x y then (commonPairs eq a b).length + 1
      else max (commonPairs eq (a ++ [x]) b).length (commonPairs eq a (b ++ [y])).length := by
  have hfound := common_commonPairs eq (a ++ [x]) (b ++ [y])
  split
  · next he =>
    have hboth := ((common_commonPairs eq a b).snoc he).length_le
    rw [List.length_append] at hboth
    exact Nat.le_antisymm hfound.length_le_succ hboth
  · next hne =>
    have hleft := ((common_commonPairs eq (a ++ [x]) b).append [] [y]).length_le
    have hright := ((common_commonPairs eq a (b ++ [y])).append [x] []).length_le
    rw [List.append_nil] at hleft hright
    refine Nat.le_antisymm ?_ (Nat.max_le.2 ⟨hleft, hright⟩)
    rcases hfound.of_snoc (Bool.eq_false_iff.2 hne) with h | h
    · exact Nat.le_trans h.length_le (Nat.le_max_left _ _)
    · exact Nat.le_trans h.length_le (Nat.le_max_right _ _)

theorem length_commonPairs_swap (eq : α → β → Bool) (a : List α) (b : List β) :
    (commonPairs (fun y x ↦ eq x y) b a).length = (commonPairs eq a b).length := by
  have hle {α β : Type} (eq : α → β → Bool) (a : List α) (b : List β) :
      (commonPairs eq a b).length ≤ (commonPairs (fun y x ↦ eq x y) b a).length := by
    have h := (common_commonPairs eq a b).swap.length_le
    rwa [List.length_map] at h
  exact Nat.le_antisymm (hle _ b a) (hle eq a b)

theorem commonPairs_nil_left (eq : α → β → Bool) (b : List β) : commonPairs eq [] b = [] :=
  follow_of_ended fun _ _ _ _ h _ ↦ List.cons_ne_nil _ _ h.symm

theorem commonPairs_nil_right (eq : α → β → Bool) (a : List α) : commonPairs eq a [] = [] :=
  follow_of_ended fun _ _ _ _ _ h ↦ List.cons_ne_nil _ _ h.symm

theorem inits_eq_cons (d : List γ) : d.inits = [] :: d.inits.tail := by
  cases d with
  | nil => rfl
  | cons y ys => rw [List.inits_cons, List.tail_cons]

section Lengths

variable [BEq γ]

/-- One more row counts the pairs for one more element, before each beginning of what is left of the
second list. -/
theorem nextLengths_eq (x : γ) (c pre ys : List γ) :
    nextLengths x (commonPairs (· == ·) (c ++ [x]) pre).length ys
        (ys.inits.map fun s ↦ (commonPairs (· == ·) c (pre ++ s)).length) =
      ys.inits.tail.map fun s ↦ (commonPairs (· == ·) (c ++ [x]) (pre ++ s)).length := by
  induction ys generalizing pre with
  | nil => rfl
  | cons y ys ih =>
    have hnext := ih (pre ++ [y])
    have hhead : (ys.inits.map fun s ↦ (commonPairs (· == ·) c (pre ++ y :: s)).length).headD 0 =
        (commonPairs (· == ·) c (pre ++ [y])).length := by
      rw [inits_eq_cons]
      rfl
    simp only [List.append_assoc, List.singleton_append] at hnext
    simp only [List.inits_cons, List.map_cons, List.map_map, List.tail_cons, Function.comp_def,
      List.append_nil, nextLengths]
    rw [hhead, ← length_commonPairs_snoc (· == ·) c pre x y, hnext]
    conv_rhs => rw [inits_eq_cons, List.map_cons]

theorem lengths_eq (c d : List γ) :
    lengths c d = d.inits.map fun s ↦ (commonPairs (· == ·) c s).length := by
  induction c using List.reverseRecOn with
  | nil =>
    refine (List.eq_replicate_iff.2 ⟨?_, fun n hn ↦ ?_⟩).symm
    · rw [List.length_map, List.length_inits]
    · obtain ⟨s, -, rfl⟩ := List.mem_map.1 hn
      exact congrArg List.length (commonPairs_nil_left _ s)
  | append_singleton c x ih =>
    have hnext := nextLengths_eq x c [] d
    rw [commonPairs_nil_right] at hnext
    rw [lengths, List.foldl_append, ← lengths, List.foldl_cons, List.foldl_nil, ih]
    conv_rhs => rw [inits_eq_cons, List.map_cons, commonPairs_nil_right]
    exact congrArg (0 :: ·) hnext

theorem commonLength_eq (c d : List γ) :
    commonLength c d = (commonPairs (· == ·) c d).length := by
  rw [commonLength, lengths_eq]
  induction d using List.reverseRecOn with
  | nil => rfl
  | append_singleton d y _ =>
    rw [List.inits_append, List.map_append, List.getLastD_eq_getLast?]
    simp

theorem commonLength_le (c d : List γ) : commonLength c d ≤ c.length :=
  Nat.le_trans (Nat.le_of_eq (commonLength_eq c d))
    (common_commonPairs _ c d).commonFrom.length_le

theorem commonLength_comm [PartialEquivBEq γ] (c d : List γ) :
    commonLength c d = commonLength d c := by
  have hsymm : (fun y x : γ ↦ x == y) = (· == ·) := funext fun y ↦ funext fun x ↦ BEq.comm
  rw [commonLength_eq, commonLength_eq, ← length_commonPairs_swap, hsymm]

end Lengths

/-- A common subsequence than which none is longer, and of all of that length the one whose places
in the first list come first, compared from the front. -/
structure Earliest (eq : α → β → Bool) (a : List α) (b : List β) (ps : List (Nat × Nat)) : Prop
    extends Common eq a b ps where
  longest : ∀ qs, Common eq a b qs → qs.length ≤ ps.length
  earliest : ∀ qs, Common eq a b qs → qs.length = ps.length →
    ps.map Prod.fst ≤ qs.map Prod.fst

/-- For any two lists and any relation the earliest of the longest common subsequences is found. If
the relation is an equality, the length that is counted is the number of pairs that are found, and
it is the same with the lists exchanged. -/
theorem earliest_commonPairs [BEq γ] [PartialEquivBEq γ] (c d : List γ) :
    (∀ (eq : α → β → Bool) (a : List α) (b : List β), Earliest eq a b (commonPairs eq a b)) ∧
      commonLength c d = (commonPairs (· == ·) c d).length ∧
      commonLength c d = commonLength d c := by
  exact ⟨fun eq a b ↦ ⟨common_commonPairs eq a b, fun _ h ↦ h.length_le,
    fun _ h ↦ h.commonPairs_le⟩, commonLength_eq c d, commonLength_comm c d⟩

/-- Two texts with several longest common subsequences. -/
theorem earliest_commonPairs_abcbdab :
    let c := "ABCBDAB".toList
    let d := "BDCABA".toList
    commonLength c d = 4 ∧
      (∀ (eq : Char → Char → Bool) (a b : List Char), Earliest eq a b (commonPairs eq a b)) ∧
      commonLength c d = (commonPairs (· == ·) c d).length ∧ commonLength c d = commonLength d c :=
  ⟨by decide +kernel, earliest_commonPairs "ABCBDAB".toList "BDCABA".toList⟩

end FlowMerge.Sequence
