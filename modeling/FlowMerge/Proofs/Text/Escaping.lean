import FlowMerge.Proofs.Lists
import FlowMerge.Text.Blank
import FlowMerge.Text.Entity
import FlowMerge.Xml.Piece

namespace FlowMerge.Text

open Xml (isSpace)

variable {c d : Char} {cs rest : List Char} {quoted : Bool}

/-- Apostrophes need no name in a text that is meant for double quotes. -/
def staysPlain (quoted : Bool) (c : Char) : Bool := quoted && c == '\''

def escaped (quoted : Bool) (cs : List Char) : List Char :=
  cs.flatMap (escapeChar (staysPlain quoted))

theorem toList_escape (s : String) : (escape s).toList = escaped false s.toList :=
  String.toList_ofList

theorem toList_escapeInQuotes (s : String) : (escapeInQuotes s).toList = escaped true s.toList :=
  String.toList_ofList

theorem escapeChar_cases (quoted : Bool) (c : Char) :
    ((∀ e ∈ entities, c = e.2 → c = '\'') ∧ escapeChar (staysPlain quoted) c = [c]) ∨
      ∃ e ∈ entities, c = e.2 ∧
        escapeChar (staysPlain quoted) c = '&' :: (e.1.toList ++ [';']) := by
  rw [escapeChar, entityName?]
  cases h : entities.find? fun e ↦ e.2 == c with
  | none =>
    refine .inl ⟨fun e he hc ↦ ?_, rfl⟩
    exact absurd (beq_iff_eq.2 hc.symm) (List.find?_eq_none.1 h e he)
  | some e =>
    dsimp only [Option.map_some]
    split
    · next hplain =>
      rw [staysPlain, Bool.and_eq_true, beq_iff_eq] at hplain
      exact .inl ⟨fun _ _ _ ↦ hplain.2, rfl⟩
    · have hc := List.find?_some h
      exact .inr ⟨e, List.mem_of_find?_eq_some h, (beq_iff_eq.1 hc).symm, rfl⟩

theorem reference?_entity : ∀ e ∈ entities, reference? e.1.toList = some e.2 := by decide

theorem isAlpha_of_mem_entity {e : String × Char} (he : e ∈ entities) :
    ∀ c ∈ e.1.toList, c.isAlpha = true := by
  have hall : ∀ e ∈ entities, e.1.toList.all Char.isAlpha = true := by decide
  exact List.all_eq_true.1 (hall e he)

theorem not_endsReference_of_isAlpha (h : c.isAlpha = true) : (!endsReference c) = true := by
  rw [Bool.not_eq_true', endsReference, Bool.or_eq_false_iff, beq_eq_false_iff_ne,
    beq_eq_false_iff_ne]
  constructor
  · rintro rfl
    cases h
  · rintro rfl
    cases h

theorem unescapeChars_cons (h : c ≠ '&') :
    unescapeChars (c :: cs) = (unescapeChars cs).map (c :: ·) := by
  rw [unescapeChars, if_neg h]

theorem unescapeChars_reference (h : ∀ c ∈ cs, (!endsReference c) = true)
    (hd : reference? cs = some d) :
    unescapeChars ('&' :: (cs ++ ';' :: rest)) = (unescapeChars rest).map (d :: ·) := by
  have hdrop : ((cs ++ ';' :: rest).dropWhile fun c ↦ !endsReference c) = ';' :: rest :=
    List.dropWhile_append_of_pos h
  have htake : ((cs ++ ';' :: rest).takeWhile fun c ↦ !endsReference c) = cs :=
    (List.takeWhile_append_of_pos h).trans (List.append_nil cs)
  rw [unescapeChars, if_pos rfl]
  split
  · next r hr =>
    obtain rfl : rest = r := (List.cons.inj (hdrop.symm.trans hr)).2
    rw [htake, hd]
    cases unescapeChars rest <;> rfl
  · next hn => exact absurd hdrop (hn rest)

theorem unescapeChars_escapeChar (c : Char) (rest : List Char) :
    unescapeChars (escapeChar (staysPlain quoted) c ++ rest) =
      (unescapeChars rest).map (c :: ·) := by
  rcases escapeChar_cases quoted c with ⟨hc, h⟩ | ⟨e, he, rfl, h⟩
  · have hamp : c ≠ '&' := fun hamp ↦
      absurd (hamp.symm.trans (hc ("amp", '&') (by decide) hamp)) (by decide)
    rw [h]
    exact unescapeChars_cons hamp
  · rw [h, List.cons_append, List.append_assoc]
    exact unescapeChars_reference
      (fun c hc ↦ not_endsReference_of_isAlpha (isAlpha_of_mem_entity he c hc))
      (reference?_entity e he)

theorem unescapeChars_escaped (quoted : Bool) (cs : List Char) :
    unescapeChars (escaped quoted cs) = some cs := by
  induction cs with
  | nil => rw [escaped, List.flatMap_nil, unescapeChars]
  | cons c cs ih =>
    rw [escaped, List.flatMap_cons, unescapeChars_escapeChar, ← escaped, ih]
    rfl

theorem unescape?_escaped (quoted : Bool) (s : String) :
    unescape? (escaped quoted s.toList) = some s := by
  rw [unescape?, unescapeChars_escaped, Option.map_some, String.ofList_toList]

theorem mem_escaped (h : d ∈ escaped quoted cs) :
    d = '&' ∨ d = ';' ∨ d.isAlpha = true ∨ ∀ e ∈ entities, d = e.2 → d = '\'' := by
  obtain ⟨c, hc, hd⟩ := List.mem_flatMap.1 h
  rcases escapeChar_cases quoted c with ⟨hn, he⟩ | ⟨e, hmem, -, he⟩
  · rw [he, List.mem_singleton] at hd
    exact hd ▸ .inr (.inr (.inr hn))
  · rw [he, List.mem_cons, List.mem_append, List.mem_singleton] at hd
    rcases hd with rfl | hd | rfl
    · exact .inl rfl
    · exact .inr (.inr (.inl (isAlpha_of_mem_entity hmem d hd)))
    · exact .inr (.inl rfl)

/-- Neither a tag nor a double quote begins or ends within escaped text. -/
theorem not_mem_escaped (h : d ∈ ['<', '>', '"']) : d ∉ escaped quoted cs := by
  have hall : (['<', '>', '"'].all fun d ↦ d != '&' && d != ';' && !d.isAlpha && d != '\'' &&
      entities.any fun e ↦ d == e.2) = true := by decide
  have hd := List.all_eq_true.1 hall d h
  simp only [Bool.and_eq_true, bne_iff_ne, Bool.not_eq_true', List.any_eq_true, beq_iff_eq] at hd
  obtain ⟨⟨⟨⟨hamp, hsemi⟩, halpha⟩, hapos⟩, e, he, hd⟩ := hd
  intro hmem
  rcases mem_escaped hmem with h | h | h | h
  · exact hamp h
  · exact hsemi h
  · exact Bool.false_ne_true (halpha.symm.trans h)
  · exact hapos (h e he hd)

theorem escaped_eq_self (h : ∀ c ∈ cs, ∀ e ∈ entities, c ≠ e.2) : escaped quoted cs = cs := by
  have hc : ∀ c ∈ cs, escapeChar (staysPlain quoted) c = [c] := fun c hc ↦
    (escapeChar_cases quoted c).elim And.right fun ⟨e, he, hce, _⟩ ↦ absurd hce (h c hc e he)
  rw [escaped, List.flatMap_congr hc, List.flatMap_singleton']

def named (c : Char) (name : String) (cs : List Char) : List Char :=
  cs.flatMap fun d ↦ if d = c then '&' :: name.toList ++ [';'] else [d]

theorem named_append (c : Char) (name : String) (xs ys : List Char) :
    named c name (xs ++ ys) = named c name xs ++ named c name ys := List.flatMap_append

theorem named_of_ne (h : d ≠ c) (name : String) : named c name [d] = [d] := by
  simp [named, h]

theorem escapeChar_eq_named (c : Char) : escapeChar (staysPlain true) c =
    named '"' "quot" (named '>' "gt" (named '<' "lt" (named '&' "amp" [c]))) := by
  by_cases hc : c = '&' ∨ c = '<' ∨ c = '>' ∨ c = '"'
  · rcases hc with rfl | rfl | rfl | rfl <;> decide
  · obtain ⟨hamp, hlt, hgt, hquot⟩ : c ≠ '&' ∧ c ≠ '<' ∧ c ≠ '>' ∧ c ≠ '"' := by
      simpa only [not_or] using hc
    rw [named_of_ne hamp, named_of_ne hlt, named_of_ne hgt, named_of_ne hquot]
    rcases escapeChar_cases true c with ⟨-, h⟩ | ⟨e, he, rfl, -⟩
    · exact h
    · have hall : ∀ e ∈ entities,
          e.2 = '&' ∨ e.2 = '<' ∨ e.2 = '>' ∨ e.2 = '"' ∨ e.2 = '\'' := by decide
      have hapos : e.2 = '\'' := by simpa only [hamp, hlt, hgt, hquot, false_or] using hall e he
      rw [hapos]
      decide

/-- The names can be put in one after the other, if that of the ampersand comes first. -/
theorem escapeInQuotes_eq_named (s : String) : (escapeInQuotes s).toList =
    named '"' "quot" (named '>' "gt" (named '<' "lt" (named '&' "amp" s.toList))) := by
  rw [toList_escapeInQuotes]
  induction s.toList with
  | nil => rfl
  | cons c cs ih =>
    have hcons : escaped true (c :: cs) = escapeChar (staysPlain true) c ++ escaped true cs := rfl
    have hsplit : c :: cs = [c] ++ cs := rfl
    rw [hcons, ih, escapeChar_eq_named, hsplit]
    simp only [named_append]

theorem escapeChar_of_isSpace (h : isSpace c = true) :
    escapeChar (staysPlain quoted) c = [c] := by
  rcases escapeChar_cases quoted c with ⟨-, he⟩ | ⟨e, hmem, rfl, -⟩
  · exact he
  · have hall : ∀ e ∈ entities, ¬ isSpace e.2 = true := by decide
    exact absurd h (hall e hmem)

theorem escapeChar_of_not_isSpace (h : isSpace c = false) :
    escapeChar (staysPlain quoted) c ≠ [] ∧
      ∀ d ∈ escapeChar (staysPlain quoted) c, isSpace d = false := by
  rcases escapeChar_cases quoted c with ⟨-, he⟩ | ⟨e, hmem, rfl, he⟩
  · rw [he]
    refine ⟨List.cons_ne_nil c [], fun d hd ↦ ?_⟩
    rwa [List.mem_singleton.1 hd]
  · rw [he]
    have hall : ∀ e ∈ entities, ('&' :: (e.1.toList ++ [';'])).all (!isSpace ·) = true := by decide
    refine ⟨List.cons_ne_nil _ _, fun d hd ↦ ?_⟩
    have hblank := List.all_eq_true.1 (hall e hmem) d hd
    rwa [Bool.not_eq_true'] at hblank

theorem strip_escaped (quoted : Bool) (cs : List Char) :
    strip isSpace (escaped quoted cs) = escaped quoted (strip isSpace cs) :=
  strip_flatMap (fun _ ↦ escapeChar_of_isSpace) (fun _ ↦ escapeChar_of_not_isSpace) cs

theorem isBlank_of_isSpace (h : isSpace c = true) : isBlank c = true := by
  simp only [isSpace, Bool.or_eq_true, beq_iff_eq] at h
  rcases h with ((rfl | rfl) | rfl) | rfl <;> decide

theorem trim_strip (cs : List Char) : trim (strip isSpace cs) = trim cs :=
  strip_strip (fun _ ↦ isBlank_of_isSpace) cs

end FlowMerge.Text
