import Mathlib.Data.List.Forall2
import Mathlib.Data.List.Induction
import Mathlib.Data.List.InsertIdx
import Mathlib.Data.List.Nodup
import Mathlib.Data.List.TakeWhile

namespace FlowMerge

variable {α : Type}

theorem flatMap_if_singleton {β : Type} (q : α → Bool) (f : α → β) (l : List α) :
    (l.flatMap fun x ↦ if q x then [f x] else []) = (l.filter q).map f := by
  induction l with
  | nil => rfl
  | cons x l ih =>
    rw [List.flatMap_cons, ih]
    by_cases h : q x = true
    · rw [if_pos h, List.filter_cons_of_pos h]
      rfl
    · rw [if_neg h, List.filter_cons_of_neg h]
      rfl

theorem flatMap_eq_of_unique {β : Type} {l : List α} {f : α → List β} {x : α} (h : x ∈ l)
    (hn : l.Nodup) (h0 : ∀ y ∈ l, y ≠ x → f y = []) : l.flatMap f = f x := by
  induction l with
  | nil => cases h
  | cons y l ih =>
    rw [List.nodup_cons] at hn
    rw [List.flatMap_cons]
    have hrest (hl : ∀ z ∈ l, z ≠ x) : l.flatMap f = [] :=
      List.flatMap_eq_nil_iff.2 fun z hz ↦ h0 z (List.mem_cons_of_mem _ hz) (hl z hz)
    by_cases hy : y = x
    · subst hy
      rw [hrest, List.append_nil]
      rintro z hz rfl
      exact hn.1 hz
    · rw [h0 y List.mem_cons_self hy, List.nil_append]
      exact ih ((List.mem_cons.1 h).resolve_left (Ne.symm hy)) hn.2
        fun z hz ↦ h0 z (List.mem_cons_of_mem _ hz)

/-- What holds at first and is kept by every step of a fold holds at its end. -/
theorem foldl_induction {σ : Type} {f : σ → α → σ} {l : List α} {z : σ} {P : List α → σ → Prop}
    (first : P [] z)
    (step : ∀ pre x post z, l = pre ++ x :: post → P pre z → P (pre ++ [x]) (f z x)) :
    P l (l.foldl f z) := by
  suffices hall : ∀ pre post, l = pre ++ post → P pre (pre.foldl f z) from
    hall l [] (List.append_nil l).symm
  intro pre
  induction pre using List.reverseRecOn with
  | nil => exact fun _ _ ↦ first
  | append_singleton pre x ih =>
    intro post hpost
    rw [List.append_assoc, List.singleton_append] at hpost
    rw [List.foldl_append, List.foldl_cons, List.foldl_nil]
    exact step pre x post _ hpost (ih _ hpost)

/-- Over a stretch of a fold, `R` tells what has changed. What a step gets done stays so. -/
theorem foldl_done {σ : Type} {f : σ → α → σ} {l : List α} {z : σ} {R : σ → σ → Prop}
    {Done : α → σ → Prop} (refl : R z z) (trans : ∀ {u v}, R z u → R u v → R z v)
    (mono : ∀ x {u v}, R z u → R u v → Done x u → Done x v)
    (step : ∀ pre x post u, l = pre ++ x :: post → R z u → (∀ y ∈ pre, Done y u) →
      R u (f u x) ∧ Done x (f u x)) : R z (l.foldl f z) ∧ ∀ x ∈ l, Done x (l.foldl f z) := by
  refine foldl_induction (P := fun pre u ↦ R z u ∧ ∀ x ∈ pre, Done x u)
    ⟨refl, fun _ hx ↦ absurd hx List.not_mem_nil⟩ fun pre x post u hsplit ⟨hu, hdone⟩ ↦ ?_
  obtain ⟨hstep, hx⟩ := step pre x post u hsplit hu hdone
  refine ⟨trans hu hstep, fun y hy ↦ ?_⟩
  rcases List.mem_append.1 hy with hy | hy
  · exact mono y hu hstep (hdone y hy)
  · rwa [List.mem_singleton.1 hy]

theorem foldlM_cons_ok {β ε : Type} {f : β → α → Except ε β} {x : α} {xs : List α} {b e : β}
    (h : (x :: xs).foldlM f b = .ok e) : ∃ c, f b x = .ok c ∧ xs.foldlM f c = .ok e := by
  rw [List.foldlM_cons] at h
  cases hc : f b x with
  | error _ =>
    rw [hc] at h
    cases h
  | ok c =>
    rw [hc] at h
    exact ⟨c, rfl, h⟩

theorem foldlM_append_ok {β ε : Type} {f : β → α → Except ε β} {xs ys : List α} {b c e : β}
    (h : xs.foldlM f b = .ok c) (h' : ys.foldlM f c = .ok e) :
    (xs ++ ys).foldlM f b = .ok e := by
  rw [List.foldlM_append, h]
  exact h'

theorem foldlM_snoc {β : Type} {f : β → α → Option β} {xs : List α} {x : α} {b c : β}
    (h : xs.foldlM f b = some c) : (xs ++ [x]).foldlM f b = f c x := by
  rw [List.foldlM_append, h]
  exact bind_pure (f c x)

theorem getD_toArray (rows : List (List α)) (i j : Nat) (x : α) :
    ((rows.map List.toArray).toArray.getD i #[]).getD j x = (rows.getD i []).getD j x := by
  have hrow : (rows.map List.toArray).toArray.getD i #[] = (rows.getD i []).toArray := by
    rw [Array.getD_eq_getD_getElem?, List.getElem?_toArray, List.getElem?_map,
      List.getD_eq_getElem?_getD]
    cases rows[i]? with
    | none => rfl
    | some row => rfl
  rw [hrow, Array.getD_eq_getD_getElem?, List.getElem?_toArray, ← List.getD_eq_getElem?_getD]

theorem getElem?_snoc {l : List α} {a x : α} {j : Nat} :
    (l ++ [a])[j]? = some x ↔ l[j]? = some x ∨ (j = l.length ∧ x = a) := by grind

theorem insertIdx_append_length (xs ys : List α) (a : α) :
    (xs ++ ys).insertIdx xs.length a = xs ++ a :: ys := by
  induction xs with
  | nil => rfl
  | cons x xs ih =>
    rw [List.cons_append, List.length_cons, List.insertIdx_succ_cons, ih]
    rfl

theorem filter_split [DecidableEq α] {l : List α} {i : Nat} {a : α} {q : α → Bool} (hl : l.Nodup)
    (ha : l[i]? = some a) (hq : ∀ j < i, ∀ b, l[j]? = some b → q b = true) (hn : q a = false) :
    l.filter q = l.take i ++ (l.drop (i + 1)).filter q ∧
      (l.filter fun b ↦ q b || b == a) = l.take i ++ a :: (l.drop (i + 1)).filter q := by
  obtain ⟨hi, hai⟩ := List.getElem?_eq_some_iff.1 ha
  have hsplit : l = l.take i ++ a :: l.drop (i + 1) := by
    rw [← hai, List.getElem_cons_drop, List.take_append_drop]
  have htake {r : α → Bool} (hr : ∀ j < i, ∀ b, l[j]? = some b → r b = true) :
      (l.take i).filter r = l.take i := by
    refine List.filter_eq_self.2 fun b hb ↦ ?_
    obtain ⟨j, hj, rfl⟩ := List.mem_take_iff_getElem.1 hb
    exact hr j (by omega) _ (List.getElem?_eq_getElem (by omega))
  have hnot : a ∉ l.drop (i + 1) := by
    rw [hsplit, List.nodup_append, List.nodup_cons] at hl
    exact hl.2.1.1
  constructor
  · conv_lhs => rw [hsplit]
    rw [List.filter_append, htake hq, List.filter_cons_of_neg (by simp [hn])]
  · conv_lhs => rw [hsplit]
    rw [List.filter_append, htake fun j hj b hb ↦ by rw [hq j hj b hb]; rfl,
      List.filter_cons_of_pos (by simp)]
    refine congrArg (fun r ↦ _ ++ _ :: r) (List.filter_congr fun b hb ↦ ?_)
    have hne : (b == a) = false := beq_false_of_ne fun he ↦ hnot (he ▸ hb)
    rw [hne, Bool.or_false]

theorem insertIdx_filter [DecidableEq α] {l : List α} {i : Nat} {a : α} {q : α → Bool}
    (hl : l.Nodup) (ha : l[i]? = some a) (hq : ∀ j < i, ∀ b, l[j]? = some b → q b = true)
    (hn : q a = false) :
    i ≤ (l.filter q).length ∧
      (l.filter q).insertIdx i a = l.filter fun b ↦ q b || b == a := by
  obtain ⟨hfilter, hmore⟩ := filter_split hl ha hq hn
  have hlen : (l.take i).length = i :=
    List.length_take_of_le (Nat.le_of_lt (List.getElem?_eq_some_iff.1 ha).1)
  rw [hmore, hfilter]
  constructor
  · rw [List.length_append, hlen]
    exact Nat.le_add_right ..
  · have h := insertIdx_append_length (l.take i) ((l.drop (i + 1)).filter q) a
    rwa [hlen] at h

/-- An element that passes a test joins those that fail it, after all that pass and come before it.
-/
theorem insertIdx_filter_of_split [DecidableEq α] {l pre post : List α} {i : Nat} {a : α}
    {q : α → Bool} (hl : l.Nodup) (hs : l.filter q = pre ++ a :: post) (ha : l[i]? = some a) :
    i ≤ (l.filter fun b ↦ !q b || pre.contains b).length ∧
      (l.filter fun b ↦ !q b || pre.contains b).insertIdx i a =
        l.filter fun b ↦ !q b || (pre ++ [a]).contains b := by
  obtain ⟨hi, hai⟩ := List.getElem?_eq_some_iff.1 ha
  have hqa : q a = true := by
    have hm : a ∈ l.filter q := hs ▸ List.mem_append_right pre List.mem_cons_self
    exact (List.mem_filter.1 hm).2
  have hsplit : l = l.take i ++ a :: l.drop (i + 1) := by
    rw [← hai, List.getElem_cons_drop, List.take_append_drop]
  have hfresh := hl
  rw [hsplit, List.nodup_append, List.nodup_cons] at hfresh
  -- those that pass before `a` are all of `pre`
  have hpre : (l.take i).filter q = pre := by
    rw [hsplit, List.filter_append, List.filter_cons_of_pos hqa] at hs
    refine ((List.append_cons_inj_of_notMem (fun hm ↦ ?_) fun hm ↦ ?_).1 hs).1
    · exact hfresh.2.2 a (List.mem_of_mem_filter hm) a List.mem_cons_self rfl
    · exact hfresh.2.1.1 (List.mem_of_mem_filter hm)
  have hnot : a ∉ pre := fun hm ↦
    hfresh.2.2 a (List.mem_of_mem_filter (hpre ▸ hm)) a List.mem_cons_self rfl
  have hbefore : ∀ j < i, ∀ b, l[j]? = some b → (!q b || pre.contains b) = true := by
    intro j hj b hb
    cases hqb : q b with
    | false => rfl
    | true =>
      have hm : b ∈ l.take i := List.mem_of_getElem? (List.getElem?_take_of_lt hj ▸ hb)
      rw [Bool.not_true, Bool.false_or, List.contains_iff_mem, ← hpre]
      exact List.mem_filter.2 ⟨hm, hqb⟩
  obtain ⟨hle, hins⟩ := insertIdx_filter hl ha hbefore (by simp [hqa, hnot])
  refine ⟨hle, hins.trans (List.filter_congr fun b _ ↦ ?_)⟩
  rw [List.contains_append, List.contains_cons, List.contains_nil, Bool.or_false, Bool.or_assoc]

theorem getElem?_filter_of_before {l : List α} {i : Nat} {a : α} {q : α → Bool}
    (ha : l[i]? = some a) (hq : ∀ j ≤ i, ∀ b, l[j]? = some b → q b = true) :
    (l.filter q)[i]? = some a := by
  obtain ⟨hi, rfl⟩ := List.getElem?_eq_some_iff.1 ha
  have htake : (l.take (i + 1)).filter q = l.take (i + 1) := by
    refine List.filter_eq_self.2 fun b hb ↦ ?_
    obtain ⟨j, hj, rfl⟩ := List.mem_take_iff_getElem.1 hb
    exact hq j (by omega) _ (List.getElem?_eq_getElem (by omega))
  have hlen : i < (l.take (i + 1)).length := by
    rw [List.length_take]
    omega
  conv_lhs => rw [← List.take_append_drop (i + 1) l, List.filter_append, htake]
  rw [List.getElem?_append_left hlen, List.getElem?_take_of_lt (Nat.lt_succ_self i), ha]

theorem insertIdx_eq {l : List α} {i : Nat} (hi : i ≤ l.length) (a : α) :
    l.insertIdx i a = l.take i ++ a :: l.drop i := by
  have hins := insertIdx_append_length (l.take i) (l.drop i) a
  rwa [List.length_take_of_le hi, List.take_append_drop] at hins

theorem filter_insertIdx_of_neg {l : List α} {i : Nat} {a : α} {q : α → Bool} (hi : i ≤ l.length)
    (ha : q a = false) : (l.insertIdx i a).filter q = l.filter q := by
  rw [insertIdx_eq hi, List.filter_append, List.filter_cons_of_neg (by simp [ha]),
    ← List.filter_append, List.take_append_drop]

theorem filterMap_insertIdx {β : Type} {l : List α} {i : Nat} {a : α} {b : β}
    {g k : α → Option β} (hi : i ≤ l.length) (ha : k a = some b) (hk : ∀ x ∈ l, k x = g x) :
    (l.insertIdx i a).filterMap k = (l.take i).filterMap g ++ b :: (l.drop i).filterMap g := by
  rw [insertIdx_eq hi, List.filterMap_append, List.filterMap_cons_some ha,
    List.filterMap_congr fun x hx ↦ hk x (List.mem_of_mem_take hx),
    List.filterMap_congr fun x hx ↦ hk x (List.mem_of_mem_drop hx)]

/-- What a filter leaves are the origins of what is left of the images. -/
theorem filter_eq_map_filterMap {β : Type} {l : List α} {q : α → Bool} {g : α → Option β}
    {f : β → α}
    (h : ∀ a ∈ l, (q a = false ∧ g a = none) ∨ ∃ b, q a = true ∧ g a = some b ∧ f b = a) :
    l.filter q = (l.filterMap g).map f := by
  induction l with
  | nil => rfl
  | cons a l ih =>
    have hl := ih fun b hb ↦ h b (List.mem_cons_of_mem a hb)
    rcases h a List.mem_cons_self with ⟨hq, hg⟩ | ⟨b, hq, hg, hf⟩
    · rw [List.filter_cons_of_neg (by rw [hq]; exact nofun), List.filterMap_cons_none hg, hl]
    · rw [List.filter_cons_of_pos hq, List.filterMap_cons_some hg, List.map_cons, hf, hl]

theorem append_inj_of_getLast? {xs ys xs' ys' : List α} (hn : (xs ++ ys).Nodup)
    (h : xs ++ ys = xs' ++ ys') (hl : xs.getLast? = xs'.getLast?) : xs = xs' ∧ ys = ys' := by
  rcases List.eq_nil_or_concat' xs with rfl | ⟨zs, a, rfl⟩
  · rw [List.getLast?_nil, eq_comm, List.getLast?_eq_none_iff] at hl
    subst hl
    exact ⟨rfl, h⟩
  · rcases List.eq_nil_or_concat' xs' with rfl | ⟨zs', a', rfl⟩
    · rw [List.getLast?_concat, List.getLast?_nil] at hl
      cases hl
    · rw [List.getLast?_concat, List.getLast?_concat, Option.some_inj] at hl
      subst hl
      rw [List.append_assoc, List.append_assoc, List.singleton_append, List.singleton_append] at h
      rw [List.append_assoc, List.singleton_append, List.nodup_append, List.nodup_cons] at hn
      have hz : a ∉ zs := fun ha ↦ hn.2.2 a ha a List.mem_cons_self rfl
      obtain ⟨rfl, -, rfl⟩ := (List.append_cons_inj_of_notMem hz hn.2.1.1).1 h
      exact ⟨rfl, rfl⟩

theorem mem_left_of_not_rel {r : α → α → Prop} {xs ys : List α} {a b : α}
    (h : (xs ++ a :: ys).Pairwise r) (hb : b ∈ xs ++ a :: ys) (hne : b ≠ a) (hnot : ¬ r a b) :
    b ∈ xs := by
  rw [List.pairwise_append, List.pairwise_cons] at h
  rcases List.mem_append.1 hb with hb | hb
  · exact hb
  · rcases List.mem_cons.1 hb with rfl | hb
    · exact absurd rfl hne
    · exact absurd (h.2.1.1 b hb) hnot

theorem forall₂_of_map_eq {β γ : Type} {f : α → γ} {g : β → γ} {R : α → β → Prop} {l : List α}
    {l' : List β} (h : l.map f = l'.map g) (hR : ∀ a b, f a = g b → R a b) :
    List.Forall₂ R l l' := by
  have heq : List.Forall₂ (· = ·) (l.map f) (l'.map g) := by rw [List.forall₂_eq_eq_eq, h]
  rw [List.forall₂_map_left_iff, List.forall₂_map_right_iff] at heq
  exact heq.imp hR

def strip (q : α → Bool) (l : List α) : List α := ((l.dropWhile q).reverse.dropWhile q).reverse

theorem strip_append_left {q : α → Bool} {pre : List α} (h : ∀ a ∈ pre, q a = true)
    (l : List α) : strip q (pre ++ l) = strip q l := by
  rw [strip, List.dropWhile_append_of_pos h, strip]

theorem strip_append_right {q : α → Bool} {post : List α} (h : ∀ a ∈ post, q a = true)
    (l : List α) : strip q (l ++ post) = strip q l := by
  have hpost := List.dropWhile_eq_nil_iff.2 h
  rw [strip, strip, List.dropWhile_append]
  split
  · next he =>
    rw [List.isEmpty_iff] at he
    rw [hpost, he]
  · rw [List.reverse_append, List.dropWhile_append_of_pos fun a ha ↦ h a (List.mem_reverse.1 ha)]

theorem exists_strip (q : α → Bool) (l : List α) : ∃ pre post, (∀ a ∈ pre, q a = true) ∧
    (∀ a ∈ post, q a = true) ∧ l = pre ++ strip q l ++ post := by
  have htake {a : α} {l : List α} (ha : a ∈ l.takeWhile q) : q a = true :=
    List.all_eq_true.1 List.all_takeWhile a ha
  refine ⟨l.takeWhile q, ((l.dropWhile q).reverse.takeWhile q).reverse, fun a ↦ htake,
    fun a ha ↦ htake (List.mem_reverse.1 ha), ?_⟩
  rw [strip, List.append_assoc, ← List.reverse_append, List.takeWhile_append_dropWhile,
    List.reverse_reverse, List.takeWhile_append_dropWhile]

theorem strip_eq_nil_iff {q : α → Bool} {l : List α} :
    strip q l = [] ↔ ∀ a ∈ l, q a = true := by
  constructor
  · intro h
    obtain ⟨pre, post, hpre, hpost, hl⟩ := exists_strip q l
    rw [h, List.append_nil] at hl
    exact hl ▸ List.forall_mem_append.2 ⟨hpre, hpost⟩
  · intro h
    have hl := strip_append_left h []
    rwa [List.append_nil] at hl

theorem strip_strip {p q : α → Bool} (h : ∀ a, p a = true → q a = true) (l : List α) :
    strip q (strip p l) = strip q l := by
  obtain ⟨pre, post, hpre, hpost, hl⟩ := exists_strip p l
  conv_rhs => rw [hl]
  rw [strip_append_right fun a ha ↦ h a (hpost a ha), strip_append_left fun a ha ↦ h a (hpre a ha)]

theorem dropWhile_flatMap {q : α → Bool} {g : α → List α} (hq : ∀ a, q a = true → g a = [a])
    (hn : ∀ a, q a = false → g a ≠ [] ∧ ∀ b ∈ g a, q b = false) (l : List α) :
    (l.flatMap g).dropWhile q = (l.dropWhile q).flatMap g := by
  induction l with
  | nil => rfl
  | cons a l ih =>
    rw [List.flatMap_cons]
    cases ha : q a with
    | true =>
      rw [hq a ha, List.dropWhile_cons_of_pos ha, ← ih]
      exact List.dropWhile_cons_of_pos ha
    | false =>
      obtain ⟨hne, hall⟩ := hn a ha
      obtain ⟨b, bs, hb⟩ := List.exists_cons_of_ne_nil hne
      have hb' := hall b (hb ▸ List.mem_cons_self)
      rw [List.dropWhile_cons_of_neg (by rw [ha]; exact Bool.false_ne_true), List.flatMap_cons,
        hb, List.cons_append,
        List.dropWhile_cons_of_neg (by rw [hb']; exact Bool.false_ne_true)]

/-- A list can be stripped before or after its elements are replaced, if those that pass stay and
those that do not leave nothing that does. -/
theorem strip_flatMap {q : α → Bool} {g : α → List α} (hq : ∀ a, q a = true → g a = [a])
    (hn : ∀ a, q a = false → g a ≠ [] ∧ ∀ b ∈ g a, q b = false) (l : List α) :
    strip q (l.flatMap g) = (strip q l).flatMap g := by
  have hr := dropWhile_flatMap (g := List.reverse ∘ g)
    (fun a ha ↦ congrArg List.reverse (hq a ha))
    (fun a ha ↦ ⟨fun h ↦ (hn a ha).1 (List.reverse_eq_nil_iff.1 h),
      fun b hb ↦ (hn a ha).2 b (List.mem_reverse.1 hb)⟩)
  rw [strip, dropWhile_flatMap hq hn, List.reverse_flatMap, hr, strip, List.reverse_flatMap]
  refine List.flatMap_congr fun a _ ↦ ?_
  exact List.reverse_reverse (g a)

theorem takeWhile_append_cons {q : α → Bool} {a : α} (h : q a = false) (l r : List α) :
    (l ++ a :: r).takeWhile q = l.takeWhile q := by
  induction l with
  | nil => simp [h]
  | cons b l ih =>
    rw [List.cons_append, List.takeWhile_cons, List.takeWhile_cons, ih]

theorem dropWhile_append_cons {q : α → Bool} {a : α} (h : q a = false) (l r : List α) :
    (l ++ a :: r).dropWhile q = l.dropWhile q ++ a :: r := by
  induction l with
  | nil => simp [h]
  | cons b l ih =>
    rw [List.cons_append, List.dropWhile_cons, List.dropWhile_cons, ih]
    split <;> rfl

theorem isPrefixOf_append_cons [BEq α] [LawfulBEq α] {w l : List α} {a : α} (h : a ∉ w)
    (r : List α) : w.isPrefixOf (l ++ a :: r) = w.isPrefixOf l := by
  induction w generalizing l with
  | nil => rfl
  | cons b w ih =>
    obtain ⟨hab, haw⟩ := not_or.1 (mt List.mem_cons.2 h)
    cases l with
    | nil => simp [List.isPrefixOf, Ne.symm hab]
    | cons c l =>
      rw [List.cons_append, List.isPrefixOf_cons_cons, List.isPrefixOf_cons_cons, ih haw]

theorem takeWhile_run {q : α → Bool} {l r : List α} (hl : ∀ a ∈ l, q a = true)
    (hr : ∀ a ∈ r.head?, q a = false) :
    (l ++ r).takeWhile q = l ∧ (l ++ r).dropWhile q = r := by
  rw [List.takeWhile_append_of_pos hl, List.dropWhile_append_of_pos hl]
  cases r with
  | nil => simp
  | cons a r => simp [hr a rfl]

theorem append_inj_of_run {q : α → Bool} {xs ys r s : List α} (hxs : ∀ a ∈ xs, q a = true)
    (hys : ∀ a ∈ ys, q a = true) (hr : ∀ a ∈ r.head?, q a = false) (hs : ∀ a ∈ s.head?, q a = false)
    (h : xs ++ r = ys ++ s) : xs = ys ∧ r = s := by
  obtain ⟨htake, hdrop⟩ := takeWhile_run hxs hr
  obtain ⟨htake', hdrop'⟩ := takeWhile_run hys hs
  rw [h] at htake hdrop
  exact ⟨htake.symm.trans htake', hdrop.symm.trans hdrop'⟩

end FlowMerge
