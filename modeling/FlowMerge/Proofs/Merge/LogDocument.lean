import FlowMerge.Merge.Conflict
import FlowMerge.Proofs.Lists
import FlowMerge.Proofs.Path
import FlowMerge.Proofs.Xml.RoundTrip

namespace FlowMerge

open Xml (Builder Denotes Markup attributeChars isSpace standardIgnored)

theorem Text.mem_joinWith {sep : List Char} {xs : List (List Char)} {c : Char}
    (h : c ∈ joinWith sep xs) : c ∈ sep ∨ ∃ x ∈ xs, c ∈ x := by
  induction xs with
  | nil => cases h
  | cons x xs ih =>
    by_cases hxs : xs = []
    · rw [hxs] at h
      exact .inr ⟨x, List.mem_cons_self, h⟩
    · rw [joinWith_cons_of_ne_nil hxs, List.mem_append, List.mem_append] at h
      rcases h with (h | h) | h
      · exact .inr ⟨x, List.mem_cons_self, h⟩
      · exact .inl h
      · exact (ih h).imp id fun ⟨y, hy, hc⟩ ↦ ⟨y, List.mem_cons_of_mem x hy, hc⟩

theorem Path.escaped_text (p : Path) :
    Text.escaped true ('/' :: (Path.text p).toList) = '/' :: (Path.text p).toList := by
  have hchars : ∀ c ∈ '/' :: (Path.text p).toList, c = '/' ∨ c.isDigit = true := by
    intro c hc
    rcases List.mem_cons.1 hc with rfl | hc
    · exact .inl rfl
    rw [Path.text, String.toList_ofList] at hc
    rcases Text.mem_joinWith hc with hc | ⟨x, hx, hc⟩
    · exact .inl (List.mem_singleton.1 hc)
    · obtain ⟨n, -, rfl⟩ := List.mem_map.1 hx
      exact .inr (Decimal.isDigit_of_mem_digits hc)
  refine Text.escaped_eq_self fun c hc e he hce ↦ ?_
  have hall : ∀ e ∈ Text.entities, ¬ (e.2 = '/' ∨ e.2.isDigit = true) := by decide
  exact hall e he (hce ▸ hchars c hc)

namespace Conflict

def places (c : Conflict) : List (String × Path) :=
  ("merged", c.path) :: c.base.toList.map fun p ↦ ("base", p)

def entries (c : Conflict) : List (String × String) :=
  ("resolution", c.resolution.name) :: c.field.toList.map fun f ↦ ("field", f)

theorem distinct_entries (c : Conflict) : (c.entries.map Prod.fst).Nodup := by
  cases hf : c.field <;> simp [entries, hf]

def content (c : Conflict) : Content where
  label := c.kind.name
  attributes := ⟨c.entries, c.distinct_entries⟩
  text := Text.tidied c.text

def placeEntries (e : String × Path) : List (String × String) :=
  [("tree", e.1), ("path", "/" ++ Path.text e.2)]

def placeContent (e : String × Path) : Content where
  label := "node"
  attributes := ⟨placeEntries e, by simp [placeEntries]⟩

def placeChars (e : String × Path) : List Char :=
  "      ".toList ++ '<' :: ("node".toList ++
    (attributeChars true (placeEntries e) ++ ' ' :: '/' :: '>' :: ['\n']))

theorem markup_placeChars (e : String × Path) (rest : List Char) :
    Markup (placeChars e ++ rest) := by
  have hindent : ∀ c ∈ "      ".toList, isSpace c = true := List.all_eq_true.1 (by decide)
  unfold placeChars
  rw [List.append_assoc]
  exact Markup.blank ⟨[], _, List.forall_mem_nil _, rfl⟩ hindent

theorem toList_nodeElement {tree : String} (h : tree = "merged" ∨ tree = "base") (p : Path) :
    (nodeElement tree p).toList = placeChars (tree, p) := by
  have htree : Text.escaped true tree.toList = tree.toList := by
    rcases h with rfl | rfl <;> decide
  unfold nodeElement placeChars
  simp [attributeChars, placeEntries, htree, Path.escaped_text]

theorem toList_element (c : Conflict) (rest : List Char) : c.element.toList ++ rest =
    "    ".toList ++ '<' :: (c.kind.name.toList ++ (attributeChars true c.entries ++ '>' ::
      ("\n      ".toList ++ (Text.escaped true c.text.toList ++ (['\n'] ++
        (c.places.flatMap placeChars ++ ("    ".toList ++
          '<' :: '/' :: (c.kind.name.toList ++ '>' :: (['\n'] ++ rest))))))))) := by
  have hname : Text.escaped true c.resolution.name.toList = c.resolution.name.toList := by
    cases c.resolution <;> decide
  have hentries : attributeChars true c.entries =
      (" resolution=\"" ++ c.resolution.name ++ "\"" ++
        ((c.field.map fun f ↦ " field=\"" ++ Text.escapeInQuotes f ++ "\"").getD "")).toList := by
    rw [entries]
    cases c.field <;> simp [attributeChars, hname, Text.toList_escapeInQuotes]
  have hplaces : c.places.flatMap placeChars = (nodeElement "merged" c.path).toList ++
      ((c.base.map (nodeElement "base")).getD "").toList := by
    rw [places, List.flatMap_cons, toList_nodeElement (.inl rfl)]
    cases c.base with
    | none => rfl
    | some p => simp [toList_nodeElement (.inr rfl)]
  rw [hentries, hplaces]
  unfold element
  simp [Text.toList_escapeInQuotes]

theorem denotes_entries (c : Conflict) :
    Denotes standardIgnored c.kind.name c.entries ⟨c.entries, c.distinct_entries⟩ where
  name := by cases c.kind <;> decide
  names := by
    have hresolution : IsName "resolution" := by decide
    have hfield : IsName "field" := by decide
    intro e he
    rcases List.mem_cons.1 he with rfl | he
    · exact hresolution
    · obtain ⟨f, -, rfl⟩ := List.mem_map.1 he
      exact hfield
  distinct := c.distinct_entries
  kept := by
    change c.entries.filter _ = c.entries
    rw [entries]
    cases c.field <;> rfl

theorem denotes_placeEntries (e : String × Path) :
    Denotes standardIgnored "node" (placeEntries e) (placeContent e).attributes where
  name := by decide
  names := by
    have htree : IsName "tree" := by decide
    have hpath : IsName "path" := by decide
    exact List.forall_mem_cons.2 ⟨htree, List.forall_mem_singleton.2 hpath⟩
  distinct := (placeContent e).attributes.distinct
  kept := rfl

end Conflict

namespace Tree

open Conflict (placeContent)

variable {t : Tree} {p x y : NodeId} {c : Conflict} {cs : List Conflict}

def enter (t : Tree) (p : NodeId) (c : Conflict) : Tree :=
  (t.addLast p c.content .plain).addAll t.size .plain (c.places.map placeContent)

def entryAt (t : Tree) (x : NodeId) : Content × List Content :=
  (t.content x, (t.children x).map t.content)

/-- A plain tree whose root has one child, below which some conflicts are entered. -/
structure Lists (t : Tree) (p : NodeId) (cs : List Conflict) : Prop where
  wellFormed : t.WellFormed
  plain : ∀ y, t.overlay y = .plain
  label : ∀ y, t.label y ≠ "description"
  root : t.children root = [p]
  heading : t.label p = "resolved"
  entries : (t.children p).map t.entryAt =
    cs.map fun c ↦ (c.content, c.places.map placeContent)

theorem children_enter (hp : p < t.size) (y : NodeId) : (t.enter p c).children y =
    if y = t.size then List.range' (t.size + 1) c.places.length
    else if y = p then t.children p ++ [t.size] else t.children y := by
  rw [enter, children_addAll (size_lt_addLast ..), children_addLast hp, children_addLast hp,
    if_neg (Nat.ne_of_gt hp), children_of_size_le (Nat.le_refl _), List.nil_append, size_addLast,
    List.length_map]

theorem content_enter (hy : y < t.size) : (t.enter p c).content y = t.content y := by
  rw [enter, (data_addAll _ _ _ _ (lt_size_addLast hy ..)).1, content_addLast,
    if_neg (Nat.ne_of_lt hy)]

theorem entryAt_enter_new (hp : p < t.size) :
    (t.enter p c).entryAt t.size = (c.content, c.places.map placeContent) := by
  have hnew := size_lt_addLast t p c.content .plain
  have hplaces := map_content_addAll (t.addLast p c.content .plain) t.size .plain
    (c.places.map placeContent)
  rw [size_addLast, List.length_map, ← enter] at hplaces
  rw [entryAt, children_enter hp, if_pos rfl, hplaces, enter, (data_addAll _ _ _ _ hnew).1,
    content_addLast, if_pos rfl]

theorem entryAt_enter (w : t.WellFormed) (hp : p < t.size) (hx : t.parent? x = some p) :
    (t.enter p c).entryAt x = t.entryAt x := by
  have hlt := lt_size_of_parent? hx
  have hne : x ≠ p := (w.parent_ne hx).symm
  have hcontents : (t.children x).map (t.enter p c).content = (t.children x).map t.content :=
    List.map_congr_left fun y hy ↦ content_enter (w.child_lt hy)
  rw [entryAt, content_enter hlt, children_enter hp, if_neg (Nat.ne_of_lt hlt), if_neg hne,
    hcontents, entryAt]

theorem data_enter (hplain : ∀ y, t.overlay y = .plain) (hlabel : ∀ y, t.label y ≠ "description")
    (y : NodeId) :
    (t.enter p c).overlay y = .plain ∧ (t.enter p c).label y ≠ "description" := by
  have hfirst : (t.addLast p c.content .plain).overlay y = .plain ∧
      (t.addLast p c.content .plain).label y ≠ "description" := by
    have hkind : c.kind.name ≠ "description" := by cases c.kind <;> decide
    rw [overlay_addLast, label, content_addLast]
    split
    · exact ⟨rfl, hkind⟩
    · exact ⟨hplain y, hlabel y⟩
  rcases data_addAll_cases (t.addLast p c.content .plain) t.size .plain
    (c.places.map placeContent) y with ⟨hc, ha⟩ | ⟨hc, ha⟩
  · rw [enter, ha, label, hc]
    exact hfirst
  · have hnode : "node" ≠ "description" := by decide
    obtain ⟨e, -, he⟩ := List.mem_map.1 hc
    rw [enter, ha, label, ← he]
    exact ⟨rfl, hnode⟩

namespace Lists

theorem enter (h : t.Lists p cs) (c : Conflict) : (t.enter p c).Lists p (cs ++ [c]) := by
  have w := h.wellFormed
  have hpr : t.parent? p = some Tree.root := by
    rw [← w.mem_children, h.root]
    exact List.mem_cons_self
  have hp : p < t.size := lt_size_of_parent? hpr
  have hnew := size_lt_addLast t p c.content .plain
  have hdata := data_enter (p := p) (c := c) h.plain h.label
  exact {
    wellFormed := (w.addLast hp _ _).addAll hnew _ _
    plain y := (hdata y).1
    label y := (hdata y).2
    root := by
      rw [children_enter hp, if_neg (Nat.ne_of_lt w.root_lt), if_neg (w.parent_ne hpr), h.root]
    heading := by
      rw [Tree.label, content_enter hp]
      exact h.heading
    entries := by
      have hold : (t.children p).map (t.enter p c).entryAt = (t.children p).map t.entryAt :=
        List.map_congr_left fun x hx ↦ entryAt_enter w hp (w.mem_children.1 hx)
      rw [children_enter hp, if_neg (Nat.ne_of_lt hp), if_pos rfl, List.map_append, hold, h.entries,
        List.map_singleton, entryAt_enter_new hp, List.map_append, List.map_singleton] }

theorem enterAll (h : t.Lists p cs) (more : List Conflict) :
    (more.foldl (fun t c ↦ t.enter p c) t).Lists p (cs ++ more) := by
  induction more generalizing t cs with
  | nil => rwa [List.append_nil]
  | cons c more ih =>
    have hrest := ih (h.enter c)
    rwa [List.append_assoc, List.singleton_append] at hrest

end Lists

def emptyLog : Tree :=
  (leaf { label := "conflictlist" }).addLast root { label := "resolved" } .plain

theorem lists_emptyLog : emptyLog.Lists 1 [] := by
  have hroot : root < (leaf { label := "conflictlist" }).size := Nat.one_pos
  have hdata (y : NodeId) : (leaf { label := "conflictlist" }).overlay y = .plain ∧
      (leaf { label := "conflictlist" }).label y ≠ "description" := by
    have hnames : "conflictlist" ≠ "description" ∧ "" ≠ "description" := by decide
    cases y with
    | zero => exact ⟨rfl, hnames.1⟩
    | succ y => exact ⟨rfl, hnames.2⟩
  have hresolved : "resolved" ≠ "description" := by decide
  refine ⟨(wellFormed_rootedAt _ _).addLast hroot _ _, fun y ↦ ?_, fun y ↦ ?_, rfl, rfl, rfl⟩
  · rw [emptyLog, overlay_addLast, (hdata y).1, ite_self]
  · rw [emptyLog, label, content_addLast]
    split
    · exact hresolved
    · exact (hdata y).2

structure Locates (t : Tree) (x : NodeId) (e : String × Path) : Prop where
  label : t.label x = "node"
  tree : (t.content x).attributes.get? "tree" = some e.1
  path : (t.content x).attributes.get? "path" = some ("/" ++ Path.text e.2)

structure Records (t : Tree) (x : NodeId) (c : Conflict) : Prop where
  label : t.label x = c.kind.name
  resolution : (t.content x).attributes.get? "resolution" = some c.resolution.name
  field : (t.content x).attributes.get? "field" = c.field
  text : (t.content x).text = Text.tidied c.text
  places : List.Forall₂ t.Locates (t.children x) c.places

theorem locates_of_content {e : String × Path} (h : t.content x = placeContent e) :
    t.Locates x e := by
  refine ⟨?_, ?_, ?_⟩
  · rw [label, h]
    rfl
  · rw [h]
    rfl
  · rw [h]
    rfl

theorem records_of_entryAt (h : t.entryAt x = (c.content, c.places.map placeContent)) :
    t.Records x c := by
  obtain ⟨hcontent, hplaces⟩ := Prod.mk.inj h
  exact {
    label := by
      rw [label, hcontent]
      rfl
    resolution := by
      rw [hcontent]
      rfl
    field := by
      have hfield : (c.entries.find? fun e ↦ e.1 == "field").map Prod.snd = c.field := by
        rw [Conflict.entries]
        cases c.field <;> rfl
      rw [hcontent]
      exact hfield
    text := by
      rw [hcontent]
      rfl
    places := forall₂_of_map_eq hplaces fun _ _ ↦ locates_of_content }

theorem Lists.records (h : t.Lists p cs) : List.Forall₂ t.Records (t.children p) cs :=
  forall₂_of_map_eq h.entries fun _ _ ↦ records_of_entryAt

end Tree

namespace Xml.Builder

open Conflict (placeContent placeChars)

variable {t : Tree} {p : NodeId} {name rest : List Char} {outer : List (List Char × NodeId)}

theorem addElement_plain (hp : t.overlay p = .plain) (d : Content) :
    addElement { tree := some t, opened := (name, p) :: outer } d =
      .ok (t.addLast p d .plain, t.size) := by
  have ha : t.addChild p d = (t.addLast p d (t.overlay p).blank, t.size) := rfl
  rw [hp] at ha
  exact congrArg Except.ok ha

theorem addText_new {d : Content} (hd : d.text = none) (s : String) :
    addText { tree := some (t.addLast p d .plain), opened := (name, t.size) :: outer } s.toList =
      { tree := some (t.addLast p { d with text := Text.tidied s } .plain)
        opened := (name, t.size) :: outer } := by
  by_cases hrun : (Text.trim s.toList).isEmpty = true
  · have hsame : { d with text := Text.tidied s } = d := by
      rw [Text.tidied, if_pos hrun, ← hd]
    rw [addText_blank (List.isEmpty_iff.1 hrun), hsame]
  · have hnone : ((t.addLast p d .plain).content t.size).text = none := by
      rw [Tree.content_addLast, if_pos rfl, hd]
    simp only [addText, if_neg hrun, hnone, Tree.modifyContent_addLast, Text.tidied]

theorem read_place (hp : t.overlay p = .plain) (e : String × Path) (rest : List Char) :
    read standardIgnored { tree := some t, opened := (name, p) :: outer } (placeChars e ++ rest) =
      read standardIgnored
        { tree := some (t.addLast p (placeContent e) .plain), opened := (name, p) :: outer }
        rest := by
  have hindent : ∀ c ∈ "      ".toList, isSpace c = true := List.all_eq_true.1 (by decide)
  have hline : ∀ c ∈ ['\n'], isSpace c = true := List.forall_mem_singleton.2 rfl
  have hform : placeChars e ++ rest = "      ".toList ++ '<' :: ("node".toList ++
      (attributeChars true (Conflict.placeEntries e) ++ ' ' :: '/' :: '>' :: (['\n'] ++ rest))) := by
    unfold placeChars
    simp
  rw [hform, read_blank hindent, (Conflict.denotes_placeEntries e).read_empty,
    addElement_plain hp]
  exact read_blank hline

theorem read_places (hp : t.overlay p = .plain) (es : List (String × Path))
    (rest : List Char) :
    read standardIgnored { tree := some t, opened := (name, p) :: outer }
        (es.flatMap placeChars ++ rest) =
      read standardIgnored
        { tree := some (t.addAll p .plain (es.map placeContent)), opened := (name, p) :: outer }
        rest := by
  induction es generalizing t with
  | nil => rfl
  | cons e es ih =>
    have hp' : (t.addLast p (placeContent e) .plain).overlay p = .plain := by
      rw [Tree.overlay_addLast, hp, ite_self]
    rw [List.flatMap_cons, List.append_assoc, read_place hp, ih hp', List.map_cons,
      Tree.addAll_cons]

theorem read_conflict (hplain : ∀ y, t.overlay y = .plain) (c : Conflict) (rest : List Char) :
    read standardIgnored { tree := some t, opened := (name, p) :: outer }
        (c.element.toList ++ rest) =
      read standardIgnored { tree := some (t.enter p c), opened := (name, p) :: outer } rest := by
  have hindent : ∀ c ∈ "    ".toList, isSpace c = true := List.all_eq_true.1 (by decide)
  have hbefore : ∀ c ∈ "\n      ".toList, isSpace c = true := List.all_eq_true.1 (by decide)
  have hline : ∀ c ∈ ['\n'], isSpace c = true := List.forall_mem_singleton.2 rfl
  have hmarkup (more : List Char) : Markup (c.places.flatMap placeChars ++ more) := by
    rw [Conflict.places, List.flatMap_cons, List.append_assoc]
    exact Conflict.markup_placeChars _ _
  have hnew : (t.addLast p c.content .plain).overlay t.size = .plain := by
    rw [Tree.overlay_addLast, if_pos rfl]
  rw [c.toList_element, read_blank hindent, c.denotes_entries.read_start,
    addElement_plain (hplain p)]
  refine (read_run hbefore hline (hmarkup _)).trans ?_
  rw [addText_new rfl]
  refine (read_places hnew _ _).trans ?_
  rw [read_blank hindent]
  exact (Xml.read_closeTag c.denotes_entries.name _).trans (read_blank hline)

theorem read_conflicts {cs : List Conflict} (h : t.Lists p cs) (more : List Conflict)
    (rest : List Char) :
    read standardIgnored { tree := some t, opened := (name, p) :: outer }
        (more.flatMap (fun c ↦ c.element.toList) ++ rest) =
      read standardIgnored
        { tree := some (more.foldl (fun t c ↦ t.enter p c) t), opened := (name, p) :: outer }
        rest := by
  induction more generalizing t cs with
  | nil => rfl
  | cons c more ih =>
    rw [List.flatMap_cons, List.append_assoc, read_conflict h.plain, ih (h.enter c),
      List.foldl_cons]

end Xml.Builder

namespace ConflictLog

def bodyChars (cs : List Conflict) : List Char :=
  '<' :: ("conflictlist".toList ++ (attributeChars true [] ++ '>' ::
    ("\n  ".toList ++ '<' :: ("resolved".toList ++ (attributeChars true [] ++ '>' ::
      (['\n'] ++ (cs.flatMap (fun c ↦ c.element.toList) ++ ("  ".toList ++
        '<' :: '/' :: ("resolved".toList ++ '>' :: (['\n'] ++
          '<' :: '/' :: ("conflictlist".toList ++ '>' :: ['\n'])))))))))))

theorem toList_document {cs : List Conflict} (h : cs ≠ []) :
    (document ⟨[], cs⟩).toList = Xml.declaration.toList ++ bodyChars cs := by
  have hempty : cs.isEmpty = false := List.isEmpty_eq_false_iff.2 h
  unfold document part bodyChars
  simp [hempty, attributeChars, Xml.declaration, List.flatMap_map, String.toList_join]

theorem read_body (cs : List Conflict) : Builder.read standardIgnored {} (bodyChars cs) =
    .ok { tree := some (cs.foldl (fun t c ↦ t.enter 1 c) Tree.emptyLog), opened := [] } := by
  have hdenotes {k : String} (hk : IsName k) : Denotes standardIgnored k [] .empty :=
    ⟨hk, nofun, List.nodup_nil, rfl⟩
  have hlist : IsName "conflictlist" := by decide
  have hresolved : IsName "resolved" := by decide
  have hindent : ∀ c ∈ "\n  ".toList, isSpace c = true := List.all_eq_true.1 (by decide)
  have hoff : ∀ c ∈ "  ".toList, isSpace c = true := List.all_eq_true.1 (by decide)
  have hline : ∀ c ∈ ['\n'], isSpace c = true := List.forall_mem_singleton.2 rfl
  unfold bodyChars
  rw [(hdenotes hlist).read_start]
  refine (Builder.read_blank hindent).trans ?_
  rw [(hdenotes hresolved).read_start]
  refine (Builder.read_blank hline).trans ?_
  refine (Builder.read_conflicts Tree.lists_emptyLog cs _).trans ?_
  refine (Builder.read_blank hoff).trans ?_
  refine (Xml.read_closeTag hresolved _).trans ?_
  refine (Builder.read_blank hline).trans ?_
  refine (Xml.read_closeTag hlist _).trans ?_
  rw [← List.append_nil ['\n'], Builder.read_blank hline, Builder.read_nil]

/-- The document of a log without open conflicts is read back, and it lists all conflicts in their
order. -/
theorem parse_document {l : ConflictLog} (hpending : l.pending = []) (h : l.resolved ≠ []) :
    ∃ t x, Xml.parse l.document = .ok t ∧ t.children Tree.root = [x] ∧ t.label x = "resolved" ∧
      List.Forall₂ t.Records (t.children x) l.resolved := by
  obtain ⟨pending, cs⟩ := l
  obtain rfl : pending = [] := hpending
  have hlists := Tree.lists_emptyLog.enterAll cs
  refine ⟨_, 1, ?_, hlists.root, hlists.heading, hlists.records⟩
  have hmark (cs : List Char) :
      Xml.withoutByteOrderMark (Xml.declaration.toList ++ cs) = Xml.declaration.toList ++ cs := rfl
  have hread := read_body cs
  rw [Builder.read] at hread
  rw [Xml.parse, Xml.parseIgnoring, toList_document h, hmark, Xml.pieces_declaration, hread]
  exact congrArg Except.ok (Xml.narrow_eq (.inr fun y _ ↦ hlists.label y))

def quotedLog : ConflictLog where
  resolved := [
    { kind := .update, text := "\u00a0'a' & \"b\" set <x y=\"1\">\n", path := [0, 12],
      resolution := .branchA, base := some [3], field := some "<x y='\"'>&amp;" },
    { kind := .deletion, text := " \u2003", path := [], resolution := .deleted }]

theorem parse_document_quotedLog : quotedLog.pending = [] ∧ quotedLog.resolved ≠ [] ∧
    ∃ t x, Xml.parse quotedLog.document = .ok t ∧ t.children Tree.root = [x] ∧
      t.label x = "resolved" ∧ List.Forall₂ t.Records (t.children x) quotedLog.resolved :=
  ⟨rfl, List.cons_ne_nil _ _, parse_document rfl (List.cons_ne_nil _ _)⟩

end ConflictLog

end FlowMerge
