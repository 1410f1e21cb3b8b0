import FlowMerge.Proofs.Text.Escaping
import FlowMerge.Xml.Reader

namespace FlowMerge.Xml

variable {b : Builder} {cs ws run name more rest : List Char} {c : Char} {p : Option Piece}
  {ignored : List String}

theorem pieces_of_next? (hne : cs ≠ []) (h : Piece.next? cs = some (p, rest)) :
    pieces cs = p.toList ++ pieces rest := by
  rw [pieces, dif_neg hne]
  split
  · next q r hq =>
    rw [h, Option.some_inj] at hq
    obtain ⟨rfl, rfl⟩ := Prod.mk.inj hq
    rfl
  · next hn =>
    rw [h] at hn
    cases hn

theorem pieces_blank (h : ∀ c ∈ ws, isSpace c = true) (cs : List Char) :
    pieces (ws ++ cs) = pieces cs := by
  have hd : (ws ++ cs).dropWhile isSpace = cs.dropWhile isSpace := List.dropWhile_append_of_pos h
  have hnext : Piece.next? (ws ++ cs) = Piece.next? cs := by rw [Piece.next?, hd, Piece.next?]
  by_cases hcs : cs = []
  · by_cases hws : ws = []
    · rw [hws, List.nil_append]
    · have hnone : Piece.next? (ws ++ cs) = some (none, []) := by
        rw [hnext, hcs]
        rfl
      rw [pieces_of_next? (fun he ↦ hws (List.append_eq_nil_iff.1 he).1) hnone, hcs]
      rfl
  · have hne : ws ++ cs ≠ [] := fun he ↦ hcs (List.append_eq_nil_iff.1 he).2
    cases hn : Piece.next? cs with
    | some r => rw [pieces_of_next? hne (hnext.trans hn), pieces_of_next? hcs hn]
    | none =>
      have hmalformed {cs : List Char} (hne : cs ≠ []) (h : Piece.next? cs = none) :
          pieces cs = [.malformed] := by
        rw [pieces, dif_neg hne]
        split
        · next hs =>
          rw [h] at hs
          cases hs
        · rfl
      rw [hmalformed hne (hnext.trans hn), hmalformed hcs hn]

theorem pieces_run (h : '<' ∉ run) (rest : List Char) :
    pieces (run ++ '<' :: rest) =
      (if strip isSpace run = [] then [] else [.text (strip isSpace run)]) ++
        pieces ('<' :: rest) := by
  split
  · next hs => exact pieces_blank (strip_eq_nil_iff.1 hs) _
  · next hs =>
    obtain ⟨c, r, hr⟩ := List.exists_cons_of_ne_nil fun he : run.dropWhile isSpace = [] ↦
      hs (strip_eq_nil_iff.2 (List.dropWhile_eq_nil_iff.1 he))
    have hmem : ∀ d ∈ c :: r, (d != '<') = true := fun d hd ↦ by
      rw [bne_iff_ne]
      rintro rfl
      exact h ((List.dropWhile_sublist isSpace).subset (hr ▸ hd))
    have hc : c ≠ '<' := bne_iff_ne.1 (hmem c List.mem_cons_self)
    have hdrop : (run ++ '<' :: rest).dropWhile isSpace = c :: (r ++ '<' :: rest) := by
      rw [List.dropWhile_append, hr]
      rfl
    have hnext : Piece.next? (run ++ '<' :: rest) =
        some (some (.text (strip isSpace run)), '<' :: rest) := by
      rw [Piece.next?, hdrop]
      split
      · next he => cases he
      · next he => exact absurd (List.cons.inj he).1 hc
      · rw [← List.cons_append, List.takeWhile_append_of_pos hmem,
          List.dropWhile_append_of_pos hmem, strip, hr]
        exact congrArg (fun l ↦ some (some (Piece.text (Piece.trimEnd l)), '<' :: rest))
          (List.append_nil (c :: r))
    exact pieces_of_next? (fun he ↦ by cases (List.append_eq_nil_iff.1 he).2) hnext

def Within (cs : List Char) : Prop :=
  ∀ rest, Piece.tag? none (cs ++ rest) = (Piece.tag? none rest).map fun r ↦ (cs ++ r.1, r.2)

theorem within_nil : Within [] := fun _ ↦ Option.map_id_apply.symm

theorem Within.append {ds : List Char} (h : Within cs) (h' : Within ds) : Within (cs ++ ds) := by
  intro rest
  rw [List.append_assoc, h, h', Option.map_map]
  exact congrArg (Option.map · _) (funext fun r ↦ by rw [Function.comp_apply, List.append_assoc])

theorem within_singleton (h : c ≠ '>' ∧ c ≠ '\'' ∧ c ≠ '"') : Within [c] := by
  intro rest
  rw [List.singleton_append, Piece.tag?]
  simp only [if_neg h.1, if_neg (not_or.2 h.2)]
  rfl

theorem within_of_forall (h : ∀ c ∈ cs, c ≠ '>' ∧ c ≠ '\'' ∧ c ≠ '"') : Within cs := by
  induction cs with
  | nil => exact within_nil
  | cons c cs ih =>
    exact (within_singleton (h c List.mem_cons_self)).append
      (ih fun d hd ↦ h d (List.mem_cons_of_mem c hd))

theorem within_quoted (h : '"' ∉ cs) : Within ('"' :: (cs ++ ['"'])) := by
  have hq (rest : List Char) : Piece.tag? (some '"') (cs ++ '"' :: rest) =
      (Piece.tag? none rest).map fun r ↦ (cs ++ '"' :: r.1, r.2) := by
    induction cs with
    | nil =>
      rw [List.nil_append, Piece.tag?]
      rfl
    | cons c cs ih =>
      have hc : c ≠ '"' := fun he ↦ h (he ▸ List.mem_cons_self)
      rw [List.cons_append, Piece.tag?]
      simp only [if_neg hc]
      rw [ih fun hm ↦ h (List.mem_cons_of_mem c hm), Option.map_map]
      rfl
  intro rest
  rw [List.cons_append, List.append_assoc, List.singleton_append, Piece.tag?]
  simp only [if_neg (show '"' ≠ '>' by decide), or_true, if_true]
  rw [hq, Option.map_map]
  exact congrArg (Option.map · _) (funext fun r ↦ by
    rw [Function.comp_apply, List.cons_append, List.append_assoc, List.singleton_append])

theorem pieces_tag (h : Within (c :: cs)) (hc : c ≠ '!' ∧ c ≠ '?') (rest : List Char) :
    pieces ('<' :: (c :: cs ++ '>' :: rest)) = .ofTag (c :: cs) :: pieces rest := by
  have htag : Piece.tag? none (c :: cs ++ '>' :: rest) = some (c :: cs, rest) := by
    rw [h, Piece.tag?]
    exact congrArg (fun l ↦ some (l, rest)) (List.append_nil (c :: cs))
  have hmarkup : Piece.ofMarkup? (c :: cs ++ '>' :: rest) =
      some (some (.ofTag (c :: cs)), rest) := by
    have hbang {l : List Char} (hl : l.head? = some '!') :
        ¬ l.isPrefixOf (c :: cs ++ '>' :: rest) = true := by
      obtain ⟨l, rfl⟩ := List.head?_eq_some_iff.1 hl
      rw [List.cons_append, List.isPrefixOf_cons_cons, beq_false_of_ne hc.1.symm]
      exact Bool.false_ne_true
    have hcomment := hbang (l := "!--".toList) rfl
    have hcdata := hbang (l := "![CDATA[".toList) rfl
    rw [Piece.ofMarkup?, if_neg hcomment, if_neg hcdata, htag]
    · rfl
    · exact fun _ he ↦ hc.1 (List.cons.inj he).1
    · exact fun _ he ↦ hc.2 (List.cons.inj he).1
    · exact fun _ he ↦ hc.2 (List.cons.inj he).1
  have hnext : Piece.next? ('<' :: (c :: cs ++ '>' :: rest)) =
      some (some (.ofTag (c :: cs)), rest) := hmarkup
  rw [pieces_of_next? (List.cons_ne_nil _ _) hnext]
  rfl

namespace Builder

def read (ignored : List String) (b : Builder) (cs : List Char) : Except Error Builder :=
  (pieces cs).foldlM (add ignored) b

theorem read_nil : b.read ignored [] = .ok b := by
  rw [read, pieces]
  rfl

theorem read_blank (h : ∀ c ∈ ws, isSpace c = true) :
    b.read ignored (ws ++ cs) = b.read ignored cs := by
  rw [read, pieces_blank h, read]

theorem read_tag (h : Within (c :: cs)) (hc : c ≠ '!' ∧ c ≠ '?') (rest : List Char) :
    b.read ignored ('<' :: (c :: cs ++ '>' :: rest)) =
      b.add ignored (.ofTag (c :: cs)) >>= fun b' ↦ b'.read ignored rest := by
  rw [read, pieces_tag h hc, List.foldlM_cons]
  rfl

theorem addText_of_trim {ds : List Char} (h : Text.trim cs = Text.trim ds) :
    b.addText cs = b.addText ds := by
  simp only [addText, h]

theorem addText_blank (h : Text.trim cs = []) : b.addText cs = b := by
  unfold addText
  rw [h]
  split <;> rfl

end Builder

/-- Text whose first piece, if it is more than white space, is a tag. -/
def Markup (cs : List Char) : Prop := ∃ ws r, (∀ c ∈ ws, isSpace c = true) ∧ cs = ws ++ '<' :: r

theorem Markup.blank (h : Markup cs) (hws : ∀ c ∈ ws, isSpace c = true) : Markup (ws ++ cs) := by
  obtain ⟨ws', r, hws', rfl⟩ := h
  exact ⟨ws ++ ws', r, List.forall_mem_append.2 ⟨hws, hws'⟩, (List.append_assoc ..).symm⟩

theorem Builder.read_run {quoted : Bool} {ws' : List Char} (hws : ∀ c ∈ ws, isSpace c = true)
    (hws' : ∀ c ∈ ws', isSpace c = true) (h : Markup rest) :
    b.read ignored (ws ++ (Text.escaped quoted cs ++ (ws' ++ rest))) =
      (b.addText cs).read ignored rest := by
  obtain ⟨ws'', r, hws'', rfl⟩ := h
  have hend : ∀ c ∈ ws' ++ ws'', isSpace c = true := List.forall_mem_append.2 ⟨hws', hws''⟩
  -- the run reaches up to the next tag: nothing in it opens one
  have hrun : '<' ∉ ws ++ (Text.escaped quoted cs ++ (ws' ++ ws'')) := by
    have hblank {ws : List Char} (hws : ∀ c ∈ ws, isSpace c = true) : '<' ∉ ws := fun hm ↦
      absurd (hws _ hm) (by decide)
    rw [List.mem_append, List.mem_append]
    exact not_or.2 ⟨hblank hws, not_or.2 ⟨Text.not_mem_escaped (by decide), hblank hend⟩⟩
  have hstrip : strip isSpace (ws ++ (Text.escaped quoted cs ++ (ws' ++ ws''))) =
      Text.escaped quoted (strip isSpace cs) := by
    rw [strip_append_left hws, strip_append_right hend, Text.strip_escaped]
  have hpieces := pieces_run hrun r
  rw [hstrip] at hpieces
  simp only [List.append_assoc] at hpieces
  rw [read_blank hws'', read, hpieces]
  split
  · next he =>
    -- nothing but space, which adds no text
    have hnil : strip isSpace cs = [] := by
      have hback := Text.unescapeChars_escaped quoted (strip isSpace cs)
      rw [he, Text.unescapeChars, Option.some_inj] at hback
      exact hback.symm
    have htrim := Text.trim_strip cs
    rw [hnil] at htrim
    rw [addText_blank htrim.symm]
    rfl
  · have hadd : b.add ignored (.text (Text.escaped quoted (strip isSpace cs))) =
        .ok (b.addText cs) := by
      rw [add, Text.unescapeChars_escaped]
      exact congrArg Except.ok (addText_of_trim (Text.trim_strip cs))
    rw [List.singleton_append, List.foldlM_cons, hadd]
    rfl

end FlowMerge.Xml
