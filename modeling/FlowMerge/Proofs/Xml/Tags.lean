import FlowMerge.Proofs.Xml.Reading
import FlowMerge.Xml.Writer

namespace FlowMerge

def isNameChar (c : Char) : Bool := c.isAlphanum || c == '_' || c == '-' || c == '.'

def IsName (s : String) : Prop := s ≠ "" ∧ s.toList.all isNameChar = true

instance (s : String) : Decidable (IsName s) :=
  inferInstanceAs (Decidable (s ≠ "" ∧ s.toList.all isNameChar = true))

variable {c d : Char} {k : String}

theorem ne_of_isNameChar (h : isNameChar c = true) (hd : isNameChar d = false) : c ≠ d := by
  rintro rfl
  exact Bool.false_ne_true (hd.symm.trans h)

theorem IsName.of_mem (h : IsName k) (hc : c ∈ k.toList) : isNameChar c = true :=
  List.all_eq_true.1 h.2 c hc

theorem IsName.exists_cons (h : IsName k) : ∃ c cs, k.toList = c :: cs ∧
    isNameChar c = true ∧ ∀ d ∈ cs, isNameChar d = true := by
  obtain ⟨c, cs, hk⟩ := List.exists_cons_of_ne_nil fun hk : k.toList = [] ↦
    h.1 (String.toList_eq_nil_iff.1 hk)
  have hall := h.2
  rw [hk, List.all_eq_true, List.forall_mem_cons] at hall
  exact ⟨c, cs, hk, hall⟩

theorem IsName.not_mem (h : IsName k) (hd : isNameChar d = false) : d ∉ k.toList :=
  fun hm ↦ ne_of_isNameChar (h.of_mem hm) hd rfl

def Content.Named (c : Content) : Prop :=
  IsName c.label ∧ ∀ e ∈ c.attributes.entries, IsName e.1 ∧ e.1 ≠ "xmlns"

instance (c : Content) : Decidable c.Named :=
  inferInstanceAs
    (Decidable (IsName c.label ∧ ∀ e ∈ c.attributes.entries, IsName e.1 ∧ e.1 ≠ "xmlns"))

def Attributes.without (a : Attributes) (names : List String) : Attributes :=
  ⟨a.entries.filter fun e ↦ !names.contains e.1,
    (List.filter_sublist.map Prod.fst).nodup a.distinct⟩

theorem Attributes.entries_insert {a : Attributes}
    (h : k ∉ a.entries.map Prod.fst) (v : String) :
    (a.insert k v).entries = a.entries ++ [(k, v)] := by
  rw [insert, dif_neg h]

namespace Xml

variable {cs name more tail rest raw : List Char} {v : String} {a : Attributes}
  {es : List (String × String)} {ignored : List String} {seen : List (List Char)} {n : Nat}
  {quoted : Bool}

theorem isSpace_of_isNameChar (h : isNameChar c = true) : isSpace c = false := by
  simp only [isSpace, Bool.or_eq_false_iff, beq_eq_false_iff_ne]
  refine ⟨⟨⟨?_, ?_⟩, ?_⟩, ?_⟩ <;> exact ne_of_isNameChar h (by decide)

theorem within_name (h : IsName k) : Within k.toList :=
  within_of_forall fun _ hc ↦ ⟨ne_of_isNameChar (h.of_mem hc) (by decide),
    ne_of_isNameChar (h.of_mem hc) (by decide), ne_of_isNameChar (h.of_mem hc) (by decide)⟩

def attributeChars (quoted : Bool) (es : List (String × String)) : List Char :=
  es.flatMap fun e ↦
    ' ' :: (e.1.toList ++ '=' :: '"' :: (Text.escaped quoted e.2.toList ++ ['"']))

theorem attributeChars_cons (quoted : Bool) (k v : String) (es : List (String × String))
    (tail : List Char) : attributeChars quoted ((k, v) :: es) ++ tail =
      ' ' :: (k.toList ++ '=' :: '"' ::
        (Text.escaped quoted v.toList ++ '"' :: (attributeChars quoted es ++ tail))) := by
  simp [attributeChars]

theorem within_attributes (quoted : Bool) (h : ∀ e ∈ es, IsName e.1) :
    Within (attributeChars quoted es) := by
  induction es with
  | nil => exact within_nil
  | cons e es ih =>
    have hvalue : Within ('"' :: (Text.escaped quoted e.2.toList ++ ['"'])) :=
      within_quoted (Text.not_mem_escaped (by decide))
    have hsign : Within ['='] := within_singleton (by decide)
    have hspace : Within [' '] := within_singleton (by decide)
    have hname := within_name (h e List.mem_cons_self)
    have hall := (hspace.append (hname.append (hsign.append hvalue))).append
      (ih fun e he ↦ h e (List.mem_cons_of_mem _ he))
    exact hall

theorem length_le_attributeChars (quoted : Bool) (es : List (String × String)) :
    es.length ≤ (attributeChars quoted es).length := by
  induction es with
  | nil => exact Nat.le_refl _
  | cons e es ih =>
    have hcons : attributeChars quoted ([e] ++ es) =
        attributeChars quoted [e] ++ attributeChars quoted es := List.flatMap_append
    have hpos : 0 < (attributeChars quoted [e]).length := Nat.succ_pos _
    rw [List.singleton_append] at hcons
    rw [hcons, List.length_append, List.length_cons]
    omega

theorem ofTag_closing (h : IsName k) : Piece.ofTag ('/' :: k.toList) = .closing k.toList := by
  obtain ⟨c, cs, hk, hc, -⟩ := h.exists_cons
  have hblank : ¬ k.toList.all isSpace = true := by
    rw [hk, List.all_cons, isSpace_of_isNameChar hc]
    exact Bool.false_ne_true
  have hrev : k.toList.reverse.dropWhile isSpace = k.toList.reverse := by
    refine List.dropWhile_eq_self_iff.2 fun hl ↦ ?_
    rw [isSpace_of_isNameChar (h.of_mem (List.mem_reverse.1 (List.getElem_mem hl)))]
    exact Bool.false_ne_true
  rw [Piece.ofTag, Piece.closingName, if_neg hblank, Piece.trimEnd, hrev, List.reverse_reverse]

theorem takeWhile_name (h : IsName k) (hmore : ∀ c ∈ more.head?, isSpace c = true) :
    (k.toList ++ more).takeWhile (!isSpace ·) = k.toList ∧
      (k.toList ++ more).dropWhile (!isSpace ·) = more := by
  refine takeWhile_run (fun c hc ↦ ?_) fun c hc ↦ ?_
  · rw [isSpace_of_isNameChar (h.of_mem hc)]
    rfl
  · rw [hmore c hc]
    rfl

theorem ofTag_opening (h : IsName k) (hmore : ∀ c ∈ more.head?, isSpace c = true)
    (hlast : more.getLast? ≠ some '/') :
    Piece.ofTag (k.toList ++ more) = .opening k.toList more false := by
  obtain ⟨htake, hdrop⟩ := takeWhile_name h hmore
  have hend : ¬ (k.toList ++ more).getLast? = some '/' := fun he ↦ by
    rw [List.getLast?_append] at he
    cases hm : more.getLast? with
    | some c =>
      rw [hm] at he
      exact hlast (hm.trans he)
    | none =>
      rw [hm] at he
      exact h.not_mem (by decide) (List.mem_of_getLast? he)
  obtain ⟨c, cs, hk, hc, -⟩ := h.exists_cons
  rw [Piece.ofTag]
  · simp only [hend, decide_false, if_false, htake, hdrop]
  · intro name he
    rw [hk] at he
    exact ne_of_isNameChar hc (by decide) (List.cons.inj he).1

theorem ofTag_empty (h : IsName k) (hmore : ∀ c ∈ more.head?, isSpace c = true) :
    Piece.ofTag (k.toList ++ more ++ ['/']) = .opening k.toList more true := by
  obtain ⟨htake, hdrop⟩ := takeWhile_name h hmore
  obtain ⟨c, cs, hk, hc, -⟩ := h.exists_cons
  rw [Piece.ofTag]
  · simp only [List.getLast?_concat, decide_true, if_true, List.dropLast_concat, htake, hdrop]
  · intro name he
    rw [hk] at he
    exact ne_of_isNameChar hc (by decide) (List.cons.inj he).1

theorem localName_name (h : IsName k) : localName k.toList = k.toList := by
  have hall : ∀ c ∈ k.toList, (c != ':') = true := fun c hc ↦
    bne_iff_ne.2 (ne_of_isNameChar (h.of_mem hc) (by decide))
  rw [localName, List.dropWhile_eq_nil_iff.2 hall]

theorem declaresNamespace_name (h : IsName k) :
    declaresNamespace k.toList = (k == "xmlns") := by
  have hcolon : ¬ "xmlns:".toList.isPrefixOf k.toList = true := fun hp ↦
    h.not_mem (d := ':') (by decide) ((List.isPrefixOf_iff_prefix.1 hp).subset (by decide))
  rw [declaresNamespace, Bool.eq_false_iff.2 hcolon, Bool.or_false, Bool.eq_iff_iff, beq_iff_eq,
    beq_iff_eq, String.toList_inj]

def keeps (ignored : List String) (e : String × String) : Bool :=
  e.1 != "xmlns" && !ignored.contains e.1

theorem storeAttribute_name (h : IsName k) :
    storeAttribute ignored a k.toList (Text.escaped quoted v.toList) =
      .ok (if keeps ignored (k, v) = true then a.insert k v else a) := by
  rw [storeAttribute, localName_name h, declaresNamespace_name h, String.ofList_toList,
    Text.unescape?_escaped, keeps, bne]
  cases k == "xmlns" <;> cases ignored.contains k <;> rfl

theorem attributeKey?_name (h : ∀ d ∈ cs, isNameChar d = true) :
    attributeKey? c (cs ++ '=' :: rest) = some (c :: cs, rest) := by
  have hall : ∀ d ∈ cs, (!(d == '=' || isSpace d)) = true := fun d hd ↦ by
    rw [isSpace_of_isNameChar (h d hd), Bool.or_false, beq_false_of_ne
      (ne_of_isNameChar (h d hd) (by decide))]
    rfl
  have hdrop : (cs ++ '=' :: rest).dropWhile (fun d ↦ !(d == '=' || isSpace d)) = '=' :: rest :=
    List.dropWhile_append_of_pos hall
  have htake : (cs ++ '=' :: rest).takeWhile (fun d ↦ !(d == '=' || isSpace d)) = cs :=
    (List.takeWhile_append_of_pos hall).trans (List.append_nil cs)
  rw [attributeKey?]
  simp only [hdrop, htake]
  rfl

theorem attributeValue?_quoted (h : '"' ∉ raw) :
    attributeValue? ('"' :: (raw ++ '"' :: rest)) = some (raw, rest) := by
  have hall : ∀ c ∈ raw, (c != '"') = true := fun c hc ↦ bne_iff_ne.2 fun he ↦ h (he ▸ hc)
  have hdrop : (raw ++ '"' :: rest).dropWhile (· != '"') = '"' :: rest :=
    List.dropWhile_append_of_pos hall
  have htake : (raw ++ '"' :: rest).takeWhile (· != '"') = raw :=
    (List.takeWhile_append_of_pos hall).trans (List.append_nil raw)
  rw [attributeValue?, List.dropWhile_cons_of_neg (by decide)]
  simp only [or_true, if_true, hdrop, htake]

theorem attributesWithin_cons (h : IsName k) (hseen : k.toList ∉ seen) :
    attributesWithin ignored (n + 1) seen a (attributeChars quoted ((k, v) :: es) ++ tail) =
      attributesWithin ignored n (k.toList :: seen)
        (if keeps ignored (k, v) = true then a.insert k v else a)
        (attributeChars quoted es ++ tail) := by
  obtain ⟨c, cs, hk, hc, hcs⟩ := h.exists_cons
  have hstart : (attributeChars quoted ((k, v) :: es) ++ tail).dropWhile isSpace =
      c :: (cs ++ '=' :: ('"' ::
        (Text.escaped quoted v.toList ++ '"' :: (attributeChars quoted es ++ tail)))) := by
    rw [attributeChars_cons, List.dropWhile_cons_of_pos rfl, hk, List.cons_append,
      List.dropWhile_cons_of_neg (by rw [isSpace_of_isNameChar hc]; exact Bool.false_ne_true)]
  have hnew : ¬ seen.contains (c :: cs) = true := by rwa [← hk, List.contains_iff_mem]
  have hstore : storeAttribute ignored a k.toList (Text.escaped quoted v.toList) =
      .ok (if keeps ignored (k, v) = true then a.insert k v else a) := storeAttribute_name h
  have hquote : '"' ∉ Text.escaped quoted v.toList := Text.not_mem_escaped (by decide)
  rw [hk] at hstore
  rw [attributesWithin, hstart]
  simp only [attributeKey?_name hcs, if_neg hnew, hk, hstore, attributeValue?_quoted hquote]
  rfl

theorem attributesWithin_entries (hnames : ∀ e ∈ es, IsName e.1)
    (hdistinct : (es.map Prod.fst).Nodup) (htail : ∀ c ∈ tail, isSpace c = true)
    (hn : es.length < n) (hseen : ∀ e ∈ es, e.1.toList ∉ seen)
    (ha : ∀ e ∈ es, e.1 ∉ a.entries.map Prod.fst) :
    ∃ b, attributesWithin ignored n seen a (attributeChars quoted es ++ tail) = .ok b ∧
      b.entries = a.entries ++ es.filter (keeps ignored) := by
  induction es generalizing n seen a with
  | nil =>
    obtain ⟨n, rfl⟩ := Nat.exists_eq_succ_of_ne_zero (Nat.ne_of_gt hn)
    refine ⟨a, ?_, (List.append_nil _).symm⟩
    rw [attributesWithin, attributeChars, List.flatMap_nil, List.nil_append,
      List.dropWhile_eq_nil_iff.2 htail]
  | cons e es ih =>
    obtain ⟨n, rfl⟩ := Nat.exists_eq_succ_of_ne_zero (Nat.ne_of_gt (Nat.zero_lt_of_lt hn))
    obtain ⟨k, v⟩ := e
    rw [List.map_cons, List.nodup_cons] at hdistinct
    rw [List.forall_mem_cons] at hnames hseen ha
    have hother {e : String × String} (he : e ∈ es) : e.1 ≠ k := fun hk ↦
      hdistinct.1 (List.mem_map.2 ⟨e, he, hk⟩)
    have hunseen : ∀ e ∈ es, e.1.toList ∉ k.toList :: seen := fun e he hm ↦
      (List.mem_cons.1 hm).elim (fun hm ↦ hother he (String.toList_inj.1 hm)) (hseen.2 e he)
    rw [attributesWithin_cons hnames.1 hseen.1]
    cases hkeep : keeps ignored (k, v) with
    | true =>
      have hk := Attributes.entries_insert ha.1 v
      have hnew : ∀ e ∈ es, e.1 ∉ (a.insert k v).entries.map Prod.fst := fun e he hm ↦ by
        rw [hk, List.map_append, List.mem_append] at hm
        exact hm.elim (ha.2 e he) fun hm ↦ hother he (List.mem_singleton.1 hm)
      obtain ⟨b, hb, hentries⟩ :=
        ih hnames.2 hdistinct.2 (Nat.lt_of_succ_lt_succ hn) hunseen hnew
      refine ⟨b, hb, ?_⟩
      rw [hentries, hk, List.filter_cons_of_pos hkeep, List.append_assoc]
      rfl
    | false =>
      obtain ⟨b, hb, hentries⟩ :=
        ih hnames.2 hdistinct.2 (Nat.lt_of_succ_lt_succ hn) hunseen ha.2
      refine ⟨b, hb, ?_⟩
      rw [hentries, List.filter_cons_of_neg (by rw [hkeep]; exact Bool.false_ne_true)]

/-- A tag that can be written, and the attributes that are kept when it is read. -/
structure Denotes (ignored : List String) (k : String) (es : List (String × String))
    (a : Attributes) : Prop where
  name : IsName k
  names : ∀ e ∈ es, IsName e.1
  distinct : (es.map Prod.fst).Nodup
  kept : es.filter (keeps ignored) = a.entries

/-- The attributes of a written tag are read back, without those that are to be ignored. -/
theorem Denotes.readAttributes (h : Denotes ignored k es a) (htail : ∀ c ∈ tail, isSpace c = true) :
    readAttributes ignored (attributeChars quoted es ++ tail) = .ok a := by
  have hlength := length_le_attributeChars quoted es
  have hread : ∃ b, Xml.readAttributes ignored (attributeChars quoted es ++ tail) = .ok b ∧
      b.entries = [] ++ es.filter (keeps ignored) :=
    attributesWithin_entries h.names h.distinct htail (by rw [List.length_append]; omega)
      (fun _ _ ↦ List.not_mem_nil) fun _ _ ↦ List.not_mem_nil
  rw [h.kept] at hread
  obtain ⟨b, hb, hentries⟩ := hread
  cases a
  cases b
  cases hentries
  exact hb

variable {b : Builder} {t : Tree} {id : NodeId} {outer : List (List Char × NodeId)}

theorem Denotes.add_opening (h : Denotes ignored k es a) (htail : ∀ c ∈ tail, isSpace c = true)
    (isEmpty : Bool) :
    b.add ignored (.opening k.toList (attributeChars quoted es ++ tail) isEmpty) =
      b.addElement { label := k, attributes := a } >>= fun r ↦ .ok
        { tree := some r.1
          opened := if isEmpty then b.opened else (k.toList, r.2) :: b.opened } := by
  rw [Builder.add, h.readAttributes htail, localName_name h.name, String.ofList_toList]
  rfl

theorem isSpace_of_mem_head (quoted : Bool) (es : List (String × String))
    (htail : ∀ c ∈ tail, isSpace c = true) :
    ∀ c ∈ (attributeChars quoted es ++ tail).head?, isSpace c = true := by
  cases es with
  | nil => exact fun c hc ↦ htail c (List.mem_of_head? hc)
  | cons e es =>
    rw [attributeChars_cons]
    intro c hc
    rw [← Option.some_inj.1 hc]
    rfl

theorem getLast?_attributeChars (es : List (String × String)) :
    (attributeChars quoted es).getLast? ≠ some '/' := by
  rcases List.eq_nil_or_concat' es with rfl | ⟨es, e, rfl⟩
  · exact nofun
  · have hquote : attributeChars quoted (es ++ [e]) = attributeChars quoted es ++
        ' ' :: (e.1.toList ++ '=' :: '"' :: Text.escaped quoted e.2.toList) ++ ['"'] := by
      simp [attributeChars]
    rw [hquote, List.getLast?_concat]
    decide

theorem read_namedTag (hk : IsName k) (h : Within (k.toList ++ more)) (rest : List Char) :
    b.read ignored ('<' :: (k.toList ++ more ++ '>' :: rest)) =
      b.add ignored (.ofTag (k.toList ++ more)) >>= fun b' ↦ b'.read ignored rest := by
  obtain ⟨c, cs, hcs, hc, -⟩ := hk.exists_cons
  rw [hcs] at h ⊢
  exact Builder.read_tag h
    ⟨ne_of_isNameChar hc (by decide), ne_of_isNameChar hc (by decide)⟩ rest

theorem Denotes.read_start (h : Denotes ignored k es a) (rest : List Char) :
    b.read ignored ('<' :: (k.toList ++ (attributeChars quoted es ++ '>' :: rest))) =
      b.addElement { label := k, attributes := a } >>= fun r ↦ Builder.read ignored
        { tree := some r.1, opened := (k.toList, r.2) :: b.opened } rest := by
  have hwithin := (within_name h.name).append (within_attributes quoted h.names)
  have hblank : ∀ c ∈ [], isSpace c = true := List.forall_mem_nil _
  have hspace := isSpace_of_mem_head quoted es hblank
  rw [List.append_nil] at hspace
  rw [← List.append_assoc, read_namedTag h.name hwithin,
    ofTag_opening h.name hspace (getLast?_attributeChars _), ← List.append_nil (attributeChars _ _),
    h.add_opening hblank]
  cases b.addElement { label := k, attributes := a } <;> rfl

theorem Denotes.read_empty (h : Denotes ignored k es a) (rest : List Char) :
    b.read ignored ('<' :: (k.toList ++ (attributeChars quoted es ++ ' ' :: '/' :: '>' :: rest))) =
      b.addElement { label := k, attributes := a } >>= fun r ↦ Builder.read ignored
        { tree := some r.1, opened := b.opened } rest := by
  have hblank : ∀ c ∈ [' '], isSpace c = true := List.forall_mem_singleton.2 rfl
  have hslash : Within [' ', '/'] :=
    (within_singleton (by decide)).append (within_singleton (by decide))
  have hwithin := (within_attributes quoted h.names).append hslash
  have htag : '<' :: (k.toList ++ (attributeChars quoted es ++ ' ' :: '/' :: '>' :: rest)) =
      '<' :: (k.toList ++ (attributeChars quoted es ++ [' ', '/']) ++ '>' :: rest) := by simp
  have hempty := ofTag_empty h.name (isSpace_of_mem_head quoted es hblank)
  rw [List.append_assoc, List.append_assoc] at hempty
  rw [htag, read_namedTag h.name ((within_name h.name).append hwithin),
    show [' ', '/'] = [' '] ++ ['/'] from rfl, hempty, h.add_opening hblank]
  cases b.addElement { label := k, attributes := a } <;> rfl

theorem read_closeTag (hk : IsName k) (rest : List Char) :
    Builder.read ignored { tree := some t, opened := (k.toList, id) :: outer }
        ('<' :: '/' :: (k.toList ++ '>' :: rest)) =
      Builder.read ignored { tree := some t, opened := outer } rest := by
  have hwithin : Within ('/' :: k.toList) :=
    (within_singleton (by decide)).append (within_name hk)
  refine (Builder.read_tag hwithin (by decide) rest).trans ?_
  rw [ofTag_closing hk, Builder.add]
  simp only [if_true]
  rfl

variable {m : Node} {isRoot : Bool}

theorem elementName_plain (h : m.overlay = .plain) : elementName m = m.content.label := by
  rw [elementName, h]
  rfl

theorem attributes_plain (h : m.overlay = .plain) (isRoot : Bool) : attributes isRoot m =
    (if isRoot then [("xmlns", processNamespace)] else []) ++ m.content.attributes.entries := by
  rw [attributes, h, rootAttributes]
  simp [Overlay.delta?, Overlay.info?, Overlay.isPlain]

theorem toList_openTag (h : m.overlay = .plain) (isRoot : Bool) : (openTag isRoot m).toList =
    '<' :: (m.content.label.toList ++ attributeChars false (attributes isRoot m)) := by
  simp [openTag, elementName_plain h, attributeChars, Text.toList_escape, List.flatMap_map]

def tagContent (ignored : List String) (m : Node) : Content :=
  { label := m.content.label, attributes := m.content.attributes.without ignored }

theorem denotes_plain (h : m.overlay = .plain) (hm : m.content.Named) (isRoot : Bool) :
    Denotes ignored m.content.label (attributes isRoot m)
      (m.content.attributes.without ignored) where
  name := hm.1
  names := by
    rw [attributes_plain h, List.forall_mem_append]
    refine ⟨fun e he ↦ ?_, fun e he ↦ (hm.2 e he).1⟩
    cases isRoot with
    | true =>
      rw [List.mem_singleton.1 he]
      decide
    | false => cases he
  distinct := by
    rw [attributes_plain h]
    cases isRoot with
    | true =>
      refine List.nodup_cons.2 ⟨fun hx ↦ ?_, m.content.attributes.distinct⟩
      obtain ⟨e, he, hx⟩ := List.mem_map.1 hx
      exact (hm.2 e he).2 hx
    | false => exact m.content.attributes.distinct
  kept := by
    have hentries : m.content.attributes.entries.filter (keeps ignored) =
        (m.content.attributes.without ignored).entries :=
      List.filter_congr fun e he ↦ by rw [keeps, bne_iff_ne.2 (hm.2 e he).2, Bool.true_and]
    rw [attributes_plain h, List.filter_append, hentries]
    cases isRoot <;> rfl

theorem read_openTag (h : m.overlay = .plain) (hm : m.content.Named) (rest : List Char) :
    b.read ignored ((openTag isRoot m).toList ++ '>' :: rest) =
      b.addElement (tagContent ignored m) >>= fun r ↦ Builder.read ignored
        { tree := some r.1, opened := (m.content.label.toList, r.2) :: b.opened } rest := by
  rw [toList_openTag h, List.cons_append, List.append_assoc]
  exact (denotes_plain h hm isRoot).read_start rest

theorem read_emptyTag (h : m.overlay = .plain) (hm : m.content.Named) (rest : List Char) :
    b.read ignored ((openTag isRoot m).toList ++ ' ' :: '/' :: '>' :: rest) =
      b.addElement (tagContent ignored m) >>= fun r ↦ Builder.read ignored
        { tree := some r.1, opened := b.opened } rest := by
  rw [toList_openTag h, List.cons_append, List.append_assoc]
  exact (denotes_plain h hm isRoot).read_empty rest

end Xml

end FlowMerge
