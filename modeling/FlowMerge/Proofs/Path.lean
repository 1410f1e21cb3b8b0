import FlowMerge.Path
import Mathlib.Data.List.Forall2

namespace FlowMerge

namespace Decimal

variable {c : Char} {cs : List Char} {n acc : Nat}

theorem digitChar_eq {d : Nat} (h : d < 10) : digitChar d = Nat.digitChar d := by
  have hall : ∀ d < 10, digitChar d = Nat.digitChar d := by decide
  exact hall d h

theorem digits_eq_toDigits (n : Nat) : digits n = Nat.toDigits 10 n := by
  induction n using digits.induct with
  | case1 n h => rw [digits, dif_pos h, Nat.toDigits_of_lt_base h, digitChar_eq h]
  | case2 n h ih =>
    rw [digits, dif_neg h, ih, Nat.toDigits_of_base_le (by decide) (Nat.le_of_not_lt h),
      digitChar_eq (Nat.mod_lt n (by decide))]

theorem isDigit_of_mem_digits (h : c ∈ digits n) : c.isDigit = true :=
  Nat.isDigit_of_mem_toDigits (by decide) (by decide) (digits_eq_toDigits n ▸ h)

theorem digits_ne_nil (n : Nat) : digits n ≠ [] := digits_eq_toDigits n ▸ Nat.toDigits_ne_nil

theorem digitValue?_eq (c : Char) :
    digitValue? c = if c.isDigit then some (c.toNat - '0'.toNat) else none := by
  simp only [digitValue?, Char.isDigit, Char.le_def, Bool.and_eq_true, decide_eq_true_eq, ge_iff_le]
  rfl

theorem valueFrom_eq_some_iff : valueFrom acc cs = some n ↔
    (∀ c ∈ cs, c.isDigit = true) ∧ Nat.ofDigitChars 10 cs acc = n := by
  induction cs generalizing acc with
  | nil => simp [valueFrom]
  | cons c cs ih =>
    rw [valueFrom, digitValue?_eq, List.forall_mem_cons, Nat.ofDigitChars_cons]
    by_cases h : c.isDigit = true
    · rw [if_pos h, Option.bind_eq_bind, Option.bind_some, ih]
      simp only [h, true_and]
    · simp [h]

theorem value?_eq_some_iff : value? cs = some n ↔
    cs ≠ [] ∧ (∀ c ∈ cs, c.isDigit = true) ∧ Nat.ofDigitChars 10 cs 0 = n := by
  cases cs with
  | nil => exact ⟨nofun, fun h ↦ absurd rfl h.1⟩
  | cons c cs =>
    rw [and_iff_right (List.cons_ne_nil c cs)]
    exact valueFrom_eq_some_iff

theorem digitChar_of_isDigit (h : c.isDigit = true) :
    c.toNat - '0'.toNat < 10 ∧ Nat.digitChar (c.toNat - '0'.toNat) = c := by
  rw [Char.isDigit, Bool.and_eq_true, decide_eq_true_eq, decide_eq_true_eq] at h
  have hlow : '0'.toNat ≤ c.toNat := h.1
  have hhigh : c.toNat ≤ '9'.toNat := h.2
  have h0 : '0'.toNat = 48 := rfl
  have h9 : '9'.toNat = 57 := rfl
  have hlt : c.toNat - '0'.toNat < 10 := by omega
  refine ⟨hlt, Char.toNat_inj.1 ?_⟩
  rw [Nat.toNat_digitChar_of_lt_ten hlt]
  omega

theorem toDigits_append (hacc : 0 < acc) (h : ∀ c ∈ cs, c.isDigit = true) :
    Nat.toDigits 10 acc ++ cs = Nat.toDigits 10 (Nat.ofDigitChars 10 cs acc) := by
  induction cs generalizing acc with
  | nil => rw [List.append_nil, Nat.ofDigitChars_nil]
  | cons c cs ih =>
    obtain ⟨hc, hcs⟩ := List.forall_mem_cons.1 h
    obtain ⟨hlt, hchar⟩ := digitChar_of_isDigit hc
    have hone : Nat.toDigits 10 acc ++ [c] =
        Nat.toDigits 10 (10 * acc + (c.toNat - '0'.toNat)) := by
      rw [← Nat.toDigits_append_toDigits (by decide) hacc hlt, Nat.toDigits_of_lt_base hlt, hchar]
    rw [Nat.ofDigitChars_cons, ← ih (by omega) hcs, ← hone, List.append_assoc]
    rfl

theorem digits_ofDigitChars (hne : cs ≠ []) (h : ∀ c ∈ cs, c.isDigit = true)
    (hzero : cs.head? = some '0' → cs = ['0']) : digits (Nat.ofDigitChars 10 cs 0) = cs := by
  cases cs with
  | nil => exact absurd rfl hne
  | cons c cs =>
    by_cases hc : c = '0'
    · subst hc
      rw [hzero rfl, digits_eq_toDigits]
      rfl
    · obtain ⟨hdigit, hcs⟩ := List.forall_mem_cons.1 h
      obtain ⟨hlt, hchar⟩ := digitChar_of_isDigit hdigit
      have hpos : 0 < c.toNat - '0'.toNat := by
        refine Nat.pos_of_ne_zero fun h0 ↦ hc ?_
        rw [← hchar, h0]
        rfl
      rw [digits_eq_toDigits, Nat.ofDigitChars_cons, Nat.mul_zero, Nat.zero_add,
        ← toDigits_append hpos hcs, Nat.toDigits_of_lt_base hlt, hchar]
      rfl

theorem ofDigitChars_digits (n : Nat) : Nat.ofDigitChars 10 (digits n) 0 = n := by
  rw [digits_eq_toDigits, Nat.ofDigitChars_ten_toDigits]

theorem digits_of_head?_eq_zero (h : (digits n).head? = some '0') : digits n = ['0'] := by
  induction n using digits.induct with
  | case1 n hn =>
    rw [digits, dif_pos hn] at h ⊢
    exact congrArg (fun c ↦ [c]) (Option.some_inj.1 h)
  | case2 n hn ih =>
    rw [digits, dif_neg hn, List.head?_append_of_ne_nil _ (digits_ne_nil _)] at h
    have hzero := congrArg (fun cs ↦ Nat.ofDigitChars 10 cs 0) (ih h)
    rw [ofDigitChars_digits] at hzero
    have htenth : n / 10 = 0 := hzero
    omega

end Decimal

theorem Text.joinWith_eq_intercalate (sep : List Char) (xs : List (List Char)) :
    joinWith sep xs = sep.intercalate xs := by
  induction xs with
  | nil => rfl
  | cons x xs ih =>
    cases xs with
    | nil => exact List.intercalate_singleton.symm
    | cons y ys => rw [joinWith, List.intercalate_cons_cons, ih]

namespace Path

variable {cs : List Char} {n : Nat} {p q : Path} {s : String}

theorem pieces_eq_splitOn (cs : List Char) : pieces cs = cs.splitOn '/' := by
  induction cs with
  | nil => rfl
  | cons c cs ih =>
    rw [pieces, List.splitOn_cons_eq_if_modifyHead, ih]
    by_cases h : c = '/'
    · rw [if_pos h, if_pos (beq_iff_eq.2 h)]
    · rw [if_neg h, if_neg (mt beq_iff_eq.1 h)]
      cases hs : cs.splitOn '/' with
      | nil => exact absurd hs (List.splitOn_ne_nil '/' cs)
      | cons p ps => rfl

def Spells (cs : List Char) (n : Nat) : Prop :=
  ∃ ds, (cs = ds ∨ cs = '+' :: ds) ∧ ds ≠ [] ∧ (∀ d ∈ ds, d.isDigit = true) ∧
    Nat.ofDigitChars 10 ds 0 = n ∧ n < limit

theorem segment?_eq_some_iff : segment? cs = some n ↔ Spells cs n := by
  have hdigit {ds : List Char} : (Decimal.value? ds).bind (fun n ↦ if n < limit then some n else
      none) = some n ↔ ds ≠ [] ∧ (∀ d ∈ ds, d.isDigit = true) ∧
        Nat.ofDigitChars 10 ds 0 = n ∧ n < limit := by
    rw [Option.bind_eq_some_iff]
    constructor
    · rintro ⟨k, hk, hn⟩
      split at hn
      · next hlt =>
        obtain rfl := Option.some_inj.1 hn
        obtain ⟨hne, hds, hval⟩ := Decimal.value?_eq_some_iff.1 hk
        exact ⟨hne, hds, hval, hlt⟩
      · cases hn
    · rintro ⟨hne, hds, hval, hlt⟩
      exact ⟨n, Decimal.value?_eq_some_iff.2 ⟨hne, hds, hval⟩, if_pos hlt⟩
  rw [segment?]
  refine hdigit.trans ?_
  by_cases hplus : cs.head? = some '+'
  · obtain ⟨ds, rfl⟩ := List.head?_eq_some_iff.1 hplus
    rw [if_pos hplus, List.drop_one, List.tail_cons]
    constructor
    · exact fun h ↦ ⟨ds, .inr rfl, h⟩
    · rintro ⟨es, rfl | he, hes⟩
      · exact absurd (hes.2.1 '+' List.mem_cons_self) (by decide)
      · exact (List.cons.inj he).2 ▸ hes
  · rw [if_neg hplus]
    constructor
    · exact fun h ↦ ⟨cs, .inl rfl, h⟩
    · rintro ⟨es, rfl | rfl, hes⟩
      · exact hes
      · exact absurd rfl hplus

theorem mapM_segment?_eq_some_iff {segs : List (List Char)} :
    segs.mapM segment? = some p ↔ List.Forall₂ Spells segs p := by
  induction segs generalizing p with
  | nil =>
    rw [List.mapM_nil, List.forall₂_nil_left_iff]
    exact ⟨fun h ↦ (Option.some_inj.1 h).symm, fun h ↦ congrArg some h.symm⟩
  | cons seg segs ih =>
    rw [List.mapM_cons, List.forall₂_cons_left_iff, Option.bind_eq_bind, Option.bind_eq_some_iff]
    refine exists_congr fun n ↦ ?_
    rw [Option.bind_eq_bind, Option.bind_eq_some_iff]
    constructor
    · rintro ⟨hn, ns, hns, hp⟩
      exact ⟨ns, segment?_eq_some_iff.1 hn, ih.1 hns, (Option.some_inj.1 hp).symm⟩
    · rintro ⟨ns, hn, hns, rfl⟩
      exact ⟨segment?_eq_some_iff.2 hn, ns, ih.2 hns, rfl⟩

/-- What a text stands for: the root if it is empty, and else the positions that its pieces
between slashes spell. -/
def Denotes (s : String) (p : Path) : Prop :=
  if s = "" then p = [] else List.Forall₂ Spells (s.toList.splitOn '/') p

theorem parse_eq_ok_iff : parse s = .ok p ↔ Denotes s p := by
  rw [parse, Denotes]
  by_cases hs : s = ""
  · rw [if_pos hs, if_pos (String.isEmpty_iff.2 hs)]
    exact ⟨fun h ↦ (Except.ok.inj h).symm, fun h ↦ congrArg _ h.symm⟩
  · rw [if_neg hs, if_neg (mt String.isEmpty_iff.1 hs), ← mapM_segment?_eq_some_iff,
      pieces_eq_splitOn]
    cases (s.toList.splitOn '/').mapM segment? with
    | none => exact ⟨nofun, nofun⟩
    | some q => exact ⟨fun h ↦ congrArg some (Except.ok.inj h),
        fun h ↦ congrArg Except.ok (Option.some_inj.1 h)⟩

theorem parse_eq_error (h : ∀ p, parse s ≠ .ok p) : parse s = .error (.invalidPath s) := by
  unfold parse at h ⊢
  split
  · next hs => exact absurd (if_pos hs) (h [])
  · next hs =>
    cases hp : (pieces s.toList).mapM segment? with
    | none => rfl
    | some p => exact absurd (by rw [if_neg hs, hp]) (h p)

/-- Whether no position in a text is written with a sign or with superfluous zeros in front. -/
def Plain (s : String) : Prop :=
  ∀ seg ∈ s.toList.splitOn '/', '+' ∉ seg ∧ (seg.head? = some '0' → seg = ['0'])

theorem spells_digits (h : n < limit) : Spells (Decimal.digits n) n :=
  ⟨_, .inl rfl, Decimal.digits_ne_nil n, fun _ hd ↦ Decimal.isDigit_of_mem_digits hd,
    Decimal.ofDigitChars_digits n, h⟩

theorem Spells.lt (h : Spells cs n) : n < limit := by
  obtain ⟨ds, -, -, -, -, hlt⟩ := h
  exact hlt

theorem Spells.eq_digits (h : Spells cs n) (hplus : '+' ∉ cs)
    (hzero : cs.head? = some '0' → cs = ['0']) : cs = Decimal.digits n := by
  obtain ⟨ds, rfl | rfl, hne, hds, rfl, -⟩ := h
  · exact (Decimal.digits_ofDigitChars hne hds hzero).symm
  · exact absurd List.mem_cons_self hplus

theorem not_mem_digits {c : Char} (h : c.isDigit = false) (n : Nat) : c ∉ Decimal.digits n := by
  intro hc
  rw [Decimal.isDigit_of_mem_digits hc] at h
  cases h

theorem splitOn_text (h : p ≠ []) : (text p).toList.splitOn '/' = p.map Decimal.digits := by
  rw [text, String.toList_ofList, Text.joinWith_eq_intercalate]
  refine List.splitOn_intercalate '/' (fun ds hds ↦ ?_) (by simpa using h)
  obtain ⟨n, -, rfl⟩ := List.mem_map.1 hds
  exact not_mem_digits (by decide) n

theorem text_ne_empty (h : p ≠ []) : text p ≠ "" := by
  intro he
  have hs := splitOn_text h
  obtain ⟨n, p, rfl⟩ := List.exists_cons_of_ne_nil h
  rw [he, List.map_cons] at hs
  exact Decimal.digits_ne_nil n (List.cons.inj hs).1.symm

theorem denotes_text (h : ∀ i ∈ p, i < limit) : Denotes (text p) p := by
  rw [Denotes]
  by_cases hp : p = []
  · subst hp
    rw [if_pos (show text [] = "" from rfl)]
  · rw [if_neg (text_ne_empty hp), splitOn_text hp, List.forall₂_map_left_iff, List.forall₂_same]
    exact fun i hi ↦ spells_digits (h i hi)

theorem plain_text (p : Path) : Plain (text p) := by
  intro seg hseg
  by_cases hp : p = []
  · rw [hp] at hseg
    obtain rfl := List.mem_singleton.1 hseg
    exact ⟨List.not_mem_nil, nofun⟩
  · rw [splitOn_text hp] at hseg
    obtain ⟨n, -, rfl⟩ := List.mem_map.1 hseg
    exact ⟨not_mem_digits (by decide) n, Decimal.digits_of_head?_eq_zero⟩

namespace Denotes

theorem lt (h : Denotes s p) : ∀ i ∈ p, i < limit := by
  rw [Denotes] at h
  split at h
  · exact h ▸ nofun
  · generalize s.toList.splitOn '/' = segs at h
    induction h with
    | nil => exact nofun
    | cons hn _ ih => exact List.forall_mem_cons.2 ⟨hn.lt, ih⟩

theorem eq_text (h : Denotes s p) (hs : Plain s) : s = text p := by
  rw [Denotes] at h
  split at h
  · next hempty =>
    rw [h, hempty]
    rfl
  · have hsegs : s.toList.splitOn '/' = p.map Decimal.digits := by
      unfold Plain at hs
      generalize s.toList.splitOn '/' = segs at h hs
      induction h with
      | nil => rfl
      | cons hn _ ih =>
        obtain ⟨⟨hplus, hzero⟩, hrest⟩ := List.forall_mem_cons.1 hs
        rw [List.map_cons, ← hn.eq_digits hplus hzero, ih hrest]
    rw [text, ← hsegs, Text.joinWith_eq_intercalate, List.intercalate_splitOn, String.ofList_toList]

end Denotes

theorem exists_denotes_iff :
    (∃ p, Denotes s p) ↔ s = "" ∨ ∀ seg ∈ s.toList.splitOn '/', ∃ n, Spells seg n := by
  by_cases hs : s = ""
  · exact iff_of_true ⟨[], by rw [Denotes, if_pos hs]⟩ (.inl hs)
  · simp only [Denotes, hs, if_false, false_or]
    generalize s.toList.splitOn '/' = segs
    induction segs with
    | nil => exact iff_of_true ⟨[], .nil⟩ nofun
    | cons seg segs ih =>
      rw [List.forall_mem_cons, ← ih]
      constructor
      · rintro ⟨p, hp⟩
        cases hp with
        | cons hn hp => exact ⟨⟨_, hn⟩, _, hp⟩
      · rintro ⟨⟨n, hn⟩, p, hp⟩
        exact ⟨n :: p, .cons hn hp⟩

/-- Paths are read off their own texts. A text is read if it is empty or if all its pieces between
slashes are positions. Of all texts that are read as a path, the one it is written in is plain, and
no other is. -/
theorem text_canonical :
    (∀ p : Path, (∀ i ∈ p, i < limit) → parse (text p) = .ok p) ∧
    (∀ s, (∃ p, parse s = .ok p) ↔
      s = "" ∨ ∀ seg ∈ s.toList.splitOn '/', ∃ n, Spells seg n) ∧
    (∀ s, (∃ p, parse s = .ok p) ∨ parse s = .error (.invalidPath s)) ∧
    ∀ s p, parse s = .ok p → Denotes s p ∧ parse (text p) = .ok p ∧ Plain (text p) ∧
      ∀ s', parse s' = .ok p → Plain s' → s' = text p := by
  refine ⟨fun p h ↦ parse_eq_ok_iff.2 (denotes_text h), fun s ↦ ?_, fun s ↦ ?_, fun s p h ↦ ?_⟩
  · simp only [parse_eq_ok_iff]
    exact exists_denotes_iff
  · by_cases h : ∃ p, parse s = .ok p
    · exact .inl h
    · exact .inr (parse_eq_error (not_exists.1 h))
  · have hd := parse_eq_ok_iff.1 h
    exact ⟨hd, parse_eq_ok_iff.2 (denotes_text hd.lt), plain_text p,
      fun s' h' hs' ↦ (parse_eq_ok_iff.1 h').eq_text hs'⟩

/-- Of the texts `+1/02` and `1/2` of one path only the second is plain. -/
theorem text_canonical_signed : parse "+1/02" = .ok [1, 2] ∧ text [1, 2] = "1/2" ∧
    parse "1/2" = .ok [1, 2] ∧ Plain "1/2" ∧
      ∀ s, parse s = .ok [1, 2] → Plain s → s = "1/2" := by
  have hread : parse "+1/02" = .ok [1, 2] := rfl
  have htext : text [1, 2] = "1/2" := by decide +kernel
  obtain ⟨-, hparse, hplain, huniq⟩ := text_canonical.2.2.2 "+1/02" [1, 2] hread
  rw [htext] at hparse hplain huniq
  exact ⟨hread, htext, hparse, hplain, huniq⟩

end Path

end FlowMerge
