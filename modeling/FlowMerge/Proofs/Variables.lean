import FlowMerge.Proofs.Lists
import FlowMerge.Variables

namespace FlowMerge

namespace NameSet

variable {x y : String} {xs ys : List String} {v : NameSet}

theorem mem_insert : y ∈ insert x v ↔ y = x ∨ y ∈ v := by
  induction v with
  | nil => exact List.mem_singleton.trans (or_iff_left List.not_mem_nil).symm
  | cons z v ih =>
    rw [insert]
    split
    · exact List.mem_cons
    · split
      · next hxz =>
        rw [hxz, List.mem_cons]
        exact ⟨.inr, fun h ↦ h.elim .inl id⟩
      · rw [List.mem_cons, ih, List.mem_cons]
        exact or_left_comm

theorem pairwise_insert (h : v.Pairwise (· < ·)) : (insert x v).Pairwise (· < ·) := by
  induction v with
  | nil => exact List.pairwise_singleton _ x
  | cons z v ih =>
    obtain ⟨hz, hv⟩ := List.pairwise_cons.1 h
    rw [insert]
    split
    · next hxz =>
      refine List.pairwise_cons.2 ⟨fun y hy ↦ ?_, h⟩
      rcases List.mem_cons.1 hy with rfl | hy
      · exact hxz
      · exact String.lt_trans hxz (hz y hy)
    · next hnot =>
      split
      · exact h
      · next hne =>
        refine List.pairwise_cons.2 ⟨fun y hy ↦ ?_, ih hv⟩
        rcases mem_insert.1 hy with rfl | hy
        · exact Std.lt_of_le_of_ne (String.not_lt.1 hnot) (Ne.symm hne)
        · exact hz y hy

theorem mem_ofList : x ∈ ofList xs ↔ x ∈ xs := by
  induction xs using List.reverseRecOn with
  | nil => rfl
  | append_singleton xs y ih =>
    rw [ofList, List.foldl_append, List.foldl_cons, List.foldl_nil, mem_insert, ← ofList, ih,
      List.mem_append, List.mem_singleton, or_comm]

theorem pairwise_ofList (xs : List String) : (ofList xs).Pairwise (· < ·) :=
  List.foldlRecOn _ _ List.Pairwise.nil fun _ h _ _ ↦ pairwise_insert h

theorem ofList_congr (h : ∀ x, x ∈ xs ↔ x ∈ ys) : ofList xs = ofList ys := by
  have hperm : (ofList xs).Perm (ofList ys) :=
    (List.perm_ext_iff_of_nodup ((pairwise_ofList xs).imp Std.ne_of_lt)
      ((pairwise_ofList ys).imp Std.ne_of_lt)).2 fun x ↦ by rw [mem_ofList, mem_ofList, h]
  exact hperm.eq_of_pairwise (fun _ _ _ _ hab hba ↦ absurd hba (String.lt_asymm hab))
    (pairwise_ofList xs) (pairwise_ofList ys)

def union (v w : NameSet) : NameSet := ofList (v ++ w)

theorem ofList_append (xs ys : List String) : ofList (xs ++ ys) = union (ofList xs) (ofList ys) :=
  ofList_congr fun x ↦ by simp only [List.mem_append, mem_ofList]

end NameSet

namespace Variables

def union (v w : Variables) : Variables := ⟨v.read.union w.read, v.written.union w.written⟩

theorem ofReferences_append (rs qs : List Reference) :
    ofReferences (rs ++ qs) = (ofReferences rs).union (ofReferences qs) := by
  simp only [ofReferences, union, List.filter_append, List.map_append, NameSet.ofList_append]

def ofText (s : String) : Variables :=
  (Tree.leaf { label := "manipulate", text := some s }).usedVariables Tree.root

theorem ofText_eq (s : String) : ofText s = ofReferences (Reference.scan s) := by
  have hrefs (c : Content) : (Tree.leaf c).usedVariables Tree.root = ofReferences c.references := by
    simp [Tree.usedVariables, Tree.properties, Tree.propertiesWithin, Tree.leaf, Tree.rootedAt,
      Tree.size, Tree.children, Tree.content, Tree.node, Tree.root]
  rw [ofText, hrefs, Content.references]
  exact congrArg ofReferences (List.append_nil _)

end Variables

namespace Reference

open Text (isWordChar isBlank)

variable {c : Char} {cs rest xs : List Char} {name : String} {before : Option Char}

theorem scanFrom_cons (h : marker.isPrefixOf (c :: cs) = false) :
    scanFrom before (c :: cs) = scanFrom (some c) cs := by
  rw [scanFrom, if_neg (by rw [h]; exact Bool.false_ne_true)]

/-- What begins with the marker is a mention, if a name follows and none comes before. -/
theorem scanFrom_marker (before : Option Char) (rest : List Char) :
    scanFrom before (marker ++ rest) =
      if before.any isWordChar || (rest.takeWhile isWordChar).isEmpty then
        scanFrom (some '.') rest
      else
        ofContext (String.ofList (rest.takeWhile isWordChar))
            (Text.trimStart (rest.dropWhile isWordChar)) ::
          scanFrom (rest.takeWhile isWordChar).getLast? (rest.dropWhile isWordChar) := by
  have hprefix : marker.isPrefixOf ('d' :: (['a', 't', 'a', '.'] ++ rest)) = true :=
    List.isPrefixOf_iff_prefix.2 (List.prefix_append marker rest)
  have hcons : marker ++ rest = 'd' :: (['a', 't', 'a', '.'] ++ rest) := rfl
  rw [hcons, scanFrom, if_pos hprefix]
  rfl

/-- Of what comes before a text, only the last character counts, and only as part of a name. -/
theorem scanFrom_congr {b b' : Option Char} (h : b.any isWordChar = b'.any isWordChar)
    (cs : List Char) : scanFrom b cs = scanFrom b' cs := by
  by_cases hm : marker.isPrefixOf cs = true
  · obtain ⟨rest, rfl⟩ := List.isPrefixOf_iff_prefix.1 hm
    rw [scanFrom_marker, scanFrom_marker, h]
  · cases cs with
    | nil => rw [scanFrom, scanFrom]
    | cons c cs =>
      rw [Bool.not_eq_true] at hm
      rw [scanFrom_cons hm, scanFrom_cons hm]

theorem ofContext_append_cons (name : String) (xs rest : List Char) :
    ofContext name (xs ++ ';' :: rest) = ofContext name xs := by
  have hstart {s : String} (h : ';' ∉ s.toList) : startsWith (xs ++ ';' :: rest) s =
      startsWith xs s := isPrefixOf_append_cons h rest
  simp [ofContext, hstart]

/-- A semicolon ends a statement, and what is in one statement is not seen from another. -/
theorem scanFrom_append_cons (before : Option Char) (cs rest : List Char) :
    scanFrom before (cs ++ ';' :: rest) = scanFrom before cs ++ scanFrom none rest := by
  have hword : isWordChar ';' = false := by decide
  induction hn : cs.length using Nat.strongRecOn generalizing before cs with
  | ind n ih =>
    subst hn
    by_cases hm : marker.isPrefixOf cs = true
    · obtain ⟨more, rfl⟩ := List.isPrefixOf_iff_prefix.1 hm
      have hafter := (List.dropWhile_sublist isWordChar (l := more)).length_le
      rw [List.append_assoc, scanFrom_marker, scanFrom_marker, takeWhile_append_cons hword,
        dropWhile_append_cons hword, Text.trimStart, dropWhile_append_cons (by decide),
        ofContext_append_cons, ih _ ?_ _ more rfl, ih _ ?_ _ (more.dropWhile isWordChar) rfl]
      · split
        · rfl
        · rfl
      · rw [List.length_append, marker]
        simp only [List.length_cons]
        omega
      · rw [List.length_append, marker]
        simp only [List.length_cons]
        omega
    · cases cs with
      | nil =>
        -- after a semicolon a word may start, as at the very beginning
        have hany : (some ';').any isWordChar = (none : Option Char).any isWordChar := hword
        rw [List.nil_append, scanFrom_cons rfl, scanFrom, List.nil_append]
        exact scanFrom_congr hany rest
      | cons c cs =>
        rw [Bool.not_eq_true] at hm
        have hmore : marker.isPrefixOf (c :: (cs ++ ';' :: rest)) = false :=
          (isPrefixOf_append_cons (l := c :: cs) (by decide) rest).trans hm
        rw [List.cons_append, scanFrom_cons hmore, scanFrom_cons hm,
          ih cs.length (Nat.lt_succ_self _) _ cs rfl]

theorem scanFrom_of_free (h : ¬ marker <:+: cs) (before : Option Char) :
    scanFrom before cs = [] := by
  induction cs generalizing before with
  | nil => rw [scanFrom]
  | cons c cs ih =>
    rw [List.infix_cons_iff, not_or, ← List.isPrefixOf_iff_prefix, Bool.not_eq_true] at h
    rw [scanFrom_cons h.1, ih h.2]

/-- The marker does not overlap itself, so the first one is found where it stands. -/
theorem scanFrom_append_marker (h : ¬ marker <:+: cs) (before : Option Char) (rest : List Char) :
    scanFrom before (cs ++ (marker ++ rest)) =
      scanFrom (cs.getLast?.or before) (marker ++ rest) := by
  induction cs generalizing before with
  | nil => rfl
  | cons c cs ih =>
    rw [List.infix_cons_iff, not_or, ← List.isPrefixOf_iff_prefix, Bool.not_eq_true] at h
    have hfirst : marker.isPrefixOf (c :: (cs ++ (marker ++ rest))) = false := by
      have htail : ['a', 't', 'a', '.'].isPrefixOf (cs ++ (marker ++ rest)) =
          ['a', 't', 'a', '.'].isPrefixOf cs := isPrefixOf_append_cons (by decide) _
      have hhead (l : List Char) : marker.isPrefixOf (c :: l) =
          ('d' == c && ['a', 't', 'a', '.'].isPrefixOf l) := rfl
      rw [hhead, htail, ← hhead, h.1]
    rw [List.cons_append, scanFrom_cons hfirst, ih h.2]
    cases hl : cs.getLast? with
    | none => simp [List.getLast?_eq_none_iff.1 hl]
    | some d => simp [List.getLast?_cons, hl]

theorem not_isWordChar_of_isBlank (h : isBlank c = true) : isWordChar c = false := by
  have hall : ∀ n ∈ [0x09, 0x0A, 0x0B, 0x0C, 0x0D, 0x20, 0x85, 0xA0, 0x1680, 0x2000, 0x2001, 0x2002,
      0x2003, 0x2004, 0x2005, 0x2006, 0x2007, 0x2008, 0x2009, 0x200A, 0x2028, 0x2029, 0x202F,
      0x205F, 0x3000], isWordChar (Char.ofNat n) = false := by decide +kernel
  rw [← Char.ofNat_toNat c]
  refine hall c.toNat ?_
  simp only [isBlank, Bool.or_eq_true, Bool.and_eq_true, decide_eq_true_eq, beq_iff_eq] at h
  simp only [List.mem_cons, List.not_mem_nil]
  omega

def IsUpdate (after : String) : Prop :=
  ∃ op ∈ ["+=", "-=", "*=", "/=", "||=", "&&=", "<<"], op.toList <+: after.toList

def IsAssignment (after : String) : Prop :=
  "=".toList <+: after.toList ∧ ∀ op ∈ ["==", "=>", "=~"], ¬ op.toList <+: after.toList

instance (after : String) : Decidable (IsUpdate after) :=
  inferInstanceAs (Decidable (∃ op ∈ ["+=", "-=", "*=", "/=", "||=", "&&=", "<<"],
    op.toList <+: after.toList))

instance (after : String) : Decidable (IsAssignment after) :=
  inferInstanceAs (Decidable ("=".toList <+: after.toList ∧
    ∀ op ∈ ["==", "=>", "=~"], ¬ op.toList <+: after.toList))

theorem IsAssignment.not_isUpdate {after : String} (h : IsAssignment after) : ¬ IsUpdate after := by
  rintro ⟨op, hop, hpre⟩
  have hhead : ∀ op ∈ ["+=", "-=", "*=", "/=", "||=", "&&=", "<<"], ¬ "=".toList <+: op.toList ∧
      "=".toList.length ≤ op.toList.length := by decide
  obtain ⟨hne, hlen⟩ := hhead op hop
  exact hne (List.prefix_of_prefix_length_le h.1 hpre hlen)

theorem ofContext_cases (name after : String) :
    (IsUpdate after → ofContext name after.toList = ⟨name, true, true⟩) ∧
      (IsAssignment after → ofContext name after.toList = ⟨name, false, true⟩) ∧
      (¬ IsUpdate after → ¬ IsAssignment after →
        ofContext name after.toList = ⟨name, true, false⟩) := by
  have hupdate : ["+=", "-=", "*=", "/=", "||=", "&&=", "<<"].any (startsWith after.toList) = true ↔
      IsUpdate after := by
    simp only [List.any_eq_true, startsWith, List.isPrefixOf_iff_prefix, IsUpdate]
  have hassign : (startsWith after.toList "=" &&
      !(["==", "=>", "=~"].any (startsWith after.toList))) = true ↔ IsAssignment after := by
    simp only [Bool.and_eq_true, Bool.not_eq_true', List.any_eq_false, startsWith,
      List.isPrefixOf_iff_prefix, IsAssignment]
  rw [ofContext]
  refine ⟨fun h ↦ ?_, fun h ↦ ?_, fun h h' ↦ ?_⟩
  · rw [if_pos (hupdate.2 h)]
  · rw [if_neg (mt hupdate.1 h.not_isUpdate), if_pos (hassign.2 h)]
  · rw [if_neg (mt hupdate.1 h), if_neg (mt hassign.1 h')]

/-- The parts of a text that mentions a variable once. -/
structure Mentions (before name blanks after : String) : Prop where
  free_before : ¬ marker <:+: before.toList
  free_after : ¬ marker <:+: after.toList
  /-- The marker is not the end of a longer name. -/
  apart : ∀ c ∈ before.toList.getLast?, isWordChar c = false
  name_ne : name ≠ ""
  name_word : ∀ c ∈ name.toList, isWordChar c = true
  ends : blanks = "" → ∀ c ∈ after.toList.head?, isWordChar c = false
  blank : ∀ c ∈ blanks.toList, isBlank c = true
  begins : ∀ c ∈ after.toList.head?, isBlank c = false

theorem free_of_blank (hblank : ∀ c ∈ xs, isBlank c = true) (h : ¬ marker <:+: rest) :
    ¬ marker <:+: xs ++ rest := by
  induction xs with
  | nil => exact h
  | cons c xs ih =>
    rw [List.forall_mem_cons] at hblank
    rw [List.cons_append, List.infix_cons_iff, not_or]
    refine ⟨fun hpre ↦ ?_, ih hblank.2⟩
    have hc : 'd' = c := (List.cons_prefix_cons.1 hpre).1
    exact absurd hblank.1 (hc ▸ by decide)

/-- Nothing but the mention is found, and what follows the name decides on it. -/
theorem scan_of_mentions {before name blanks after : String}
    (h : Mentions before name blanks after) :
    scan (before ++ "data." ++ name ++ blanks ++ after) = [ofContext name after.toList] := by
  have htext : (before ++ "data." ++ name ++ blanks ++ after).toList =
      before.toList ++ (marker ++ (name.toList ++ (blanks.toList ++ after.toList))) := by
    simp [marker]
  have hstop : ∀ c ∈ (blanks.toList ++ after.toList).head?, isWordChar c = false := by
    intro c hc
    cases hb : blanks.toList with
    | nil =>
      rw [hb] at hc
      exact h.ends (String.toList_eq_nil_iff.1 hb) c hc
    | cons b bs =>
      rw [hb, List.cons_append, List.head?_cons, Option.mem_some] at hc
      exact not_isWordChar_of_isBlank (h.blank c (hb ▸ hc ▸ List.mem_cons_self))
  obtain ⟨htake, hdrop⟩ := takeWhile_run h.name_word hstop
  have htrim : Text.trimStart (blanks.toList ++ after.toList) = after.toList :=
    (takeWhile_run h.blank h.begins).2
  have hapart : (before.toList.getLast?.or none).any isWordChar = false := by
    rw [Option.or_none]
    cases hl : before.toList.getLast? with
    | none => rfl
    | some c => exact h.apart c hl
  have hname : name.toList.isEmpty = false :=
    List.isEmpty_eq_false_iff.2 (mt String.toList_eq_nil_iff.1 h.name_ne)
  rw [scan, htext, scanFrom_append_marker h.free_before, scanFrom_marker, htake, hdrop, htrim,
    hapart, hname, String.ofList_toList,
    scanFrom_of_free (free_of_blank h.blank h.free_after)]
  rfl

end Reference

namespace Variables

open Reference (IsUpdate IsAssignment Mentions)

/-- Statements that are joined mention what each of them mentions. Of a text with a single mention,
what follows the name decides whether the variable is used, assigned, or both. -/
theorem ofText_compositional :
    (∀ s t : String, ofText (s ++ ";" ++ t) = (ofText s).union (ofText t)) ∧
      ∀ before name blanks after : String, Mentions before name blanks after →
        (IsUpdate after → ofText (before ++ "data." ++ name ++ blanks ++ after) =
          { read := [name], written := [name] }) ∧
        (IsAssignment after → ofText (before ++ "data." ++ name ++ blanks ++ after) =
          { written := [name] }) ∧
        (¬ IsUpdate after → ¬ IsAssignment after →
          ofText (before ++ "data." ++ name ++ blanks ++ after) = { read := [name] }) := by
  constructor
  · intro s t
    have hscan : Reference.scan (s ++ ";" ++ t) = Reference.scan s ++ Reference.scan t := by
      have htext : (s ++ ";" ++ t).toList = s.toList ++ ';' :: t.toList := by simp
      rw [Reference.scan, htext, Reference.scanFrom_append_cons]
      rfl
    rw [ofText_eq, hscan, ofReferences_append, ofText_eq, ofText_eq]
  · intro before name blanks after h
    obtain ⟨hupdate, hassign, hread⟩ := Reference.ofContext_cases name after
    rw [ofText_eq, Reference.scan_of_mentions h]
    refine ⟨fun ha ↦ ?_, fun ha ↦ ?_, fun hu ha ↦ ?_⟩
    · rw [hupdate ha]
      rfl
    · rw [hassign ha]
      rfl
    · rw [hread hu ha]
      rfl

/-- A name that is not all ASCII, after a negation and before two kinds of blanks. -/
theorem mentions_negated (after : String) (h : ¬ Reference.marker <:+: after.toList)
    (hbegins : ∀ c ∈ after.toList.head?, Text.isBlank c = false) :
    Mentions "if (!" "été_1" " \u2003" after where
  free_before := by decide
  free_after := h
  apart c hc := by
    obtain rfl : '!' = c := Option.some_inj.1 hc
    decide
  name_ne := by decide
  name_word := List.all_eq_true.1 (by decide +kernel)
  ends := nofun
  blank := List.all_eq_true.1 (by decide +kernel)
  begins := hbegins

theorem ofText_compositional_negated :
    Mentions "if (!" "été_1" " \u2003" "||= 2)" ∧ IsUpdate "||= 2)" ∧
      ofText ("if (!" ++ "data." ++ "été_1" ++ " \u2003" ++ "||= 2)") =
        { read := ["été_1"], written := ["été_1"] } ∧
      Mentions "if (!" "été_1" " \u2003" "=2)" ∧ IsAssignment "=2)" ∧
      ofText ("if (!" ++ "data." ++ "été_1" ++ " \u2003" ++ "=2)") = { written := ["été_1"] } ∧
      Mentions "if (!" "été_1" " \u2003" "==2)" ∧ ¬ IsUpdate "==2)" ∧ ¬ IsAssignment "==2)" ∧
      ofText ("if (!" ++ "data." ++ "été_1" ++ " \u2003" ++ "==2)") = { read := ["été_1"] } := by
  have hupdate : IsUpdate "||= 2)" := by decide
  have hassign : IsAssignment "=2)" := by decide
  have hnot : ¬ IsUpdate "==2)" ∧ ¬ IsAssignment "==2)" := by decide
  have hbar : ∀ c ∈ some '|', Text.isBlank c = false := fun c hc ↦ Option.some_inj.1 hc ▸ rfl
  have hequals : ∀ c ∈ some '=', Text.isBlank c = false := fun c hc ↦ Option.some_inj.1 hc ▸ rfl
  have h₁ := mentions_negated "||= 2)" (by decide) hbar
  have h₂ := mentions_negated "=2)" (by decide) hequals
  have h₃ := mentions_negated "==2)" (by decide) hequals
  exact ⟨h₁, hupdate, (ofText_compositional.2 _ _ _ _ h₁).1 hupdate,
    h₂, hassign, (ofText_compositional.2 _ _ _ _ h₂).2.1 hassign,
    h₃, hnot.1, hnot.2, (ofText_compositional.2 _ _ _ _ h₃).2.2 hnot.1 hnot.2⟩

end Variables

end FlowMerge
