import FlowMerge.Proofs.Tree.Transcripts
import FlowMerge.Proofs.Xml.Tags

namespace FlowMerge

open Function (update)

def Text.tidied (s : String) : Option String :=
  let run := Text.trim s.toList
  if run.isEmpty then none else some (String.ofList run)

def Content.tidied (ignored : List String) (c : Content) : Content :=
  { label := c.label
    attributes := c.attributes.without ignored
    text := c.text.bind Text.tidied }

namespace Tree

structure Printable (t : Tree) : Prop where
  wellFormed : t.WellFormed
  plain : ∀ x ∈ t.live, (t.overlay x).isPlain = true
  named : ∀ x ∈ t.live, (t.content x).Named

theorem Printable.overlay_eq {t : Tree} {x : NodeId} (h : t.Printable) (hx : x ∈ t.live) :
    t.overlay x = .plain := by
  have hplain := h.plain x hx
  cases ho : t.overlay x with
  | plain => rfl
  | changed d => rw [ho] at hplain; cases hplain
  | merged d i => rw [ho] at hplain; cases hplain

/-- The plain tree `u` is the tree `t` with its contents tidied up, and its nodes stand in the
pre-order of `t`. -/
structure Tidies (ignored : List String) (t u : Tree) : Prop extends Embeds t.place t u where
  wellFormed : u.WellFormed
  size : u.size = t.live.length
  plain : ∀ y, u.overlay y = .plain
  content : ∀ x ∈ t.live, u.content (t.place x) = (t.content x).tidied ignored

end Tree

namespace Xml

open FlowMerge.Tree (Printable Tidies Transcribes lt_size_of_parent?)

variable {t u : Tree} {x p : NodeId} {c : Char} {pre post : List NodeId} {cs rest : List Char}
  {ignored : List String} {layout : Layout} {b : Builder} {outer : List (List Char × NodeId)}
  {g : NodeId → Content} {m n depth : Nat} {s : String}

structure Layout.Blank (layout : Layout) : Prop where
  newline : ∀ c ∈ layout.newline.toList, isSpace c = true
  indent : ∀ depth, ∀ c ∈ (layout.indent depth).toList, isSpace c = true

theorem blank_compact : Layout.compact.Blank := ⟨nofun, nofun⟩

theorem blank_pretty : Layout.pretty.Blank := by
  refine ⟨List.all_eq_true.1 (by decide), fun depth c hc ↦ ?_⟩
  rw [Layout.pretty, String.toList_join, List.mem_flatMap] at hc
  obtain ⟨s, hs, hc⟩ := hc
  rw [List.eq_of_mem_replicate hs] at hc
  have hindent : "  ".toList.all isSpace = true := by decide
  exact List.all_eq_true.1 hindent c hc

def between (t : Tree) (x : NodeId) (blank : String) : List Char :=
  if (t.children x).isEmpty then [] else blank.toList

def inner (layout : Layout) (t : Tree) (n depth : Nat) (x : NodeId) : List Char :=
  between t x layout.newline ++
    (((t.content x).text.map fun s ↦ between t x (layout.indent (depth + 1)) ++
      (Text.escaped false s.toList ++ between t x layout.newline)).getD []) ++
    (t.children x).flatMap (fun c ↦ (element layout t n (depth + 1) c).toList) ++
    between t x (layout.indent depth)

theorem toList_element_empty (htext : (t.content x).text = none) (hchildren : t.children x = []) :
    (element layout t (n + 1) depth x).toList = (layout.indent depth).toList ++
      ((openTag (x == Tree.root) (t.node x)).toList ++ ' ' :: '/' :: '>' ::
        layout.newline.toList) := by
  have htext' : (t.node x).content.text = none := htext
  have hchildren' : (t.node x).children = [] := hchildren
  simp [element, htext', hchildren']

theorem toList_element (hplain : t.overlay x = .plain)
    (h : (t.content x).text ≠ none ∨ t.children x ≠ []) :
    (element layout t (n + 1) depth x).toList = (layout.indent depth).toList ++
      ((openTag (x == Tree.root) (t.node x)).toList ++ '>' :: (inner layout t n depth x ++
        '<' :: '/' :: ((t.label x).toList ++ '>' :: layout.newline.toList))) := by
  have hname : elementName (t.node x) = t.label x := elementName_plain hplain
  have htext : (t.node x).content.text = (t.content x).text := rfl
  have hchildren : (t.node x).children = t.children x := rfl
  rw [element, inner]
  simp only [hname, htext, hchildren, between]
  cases hs : (t.content x).text with
  | none =>
    cases hc : t.children x with
    | nil => exact absurd h (by simp [hs, hc])
    | cons c cs => simp [List.flatMap_map]
  | some s => cases hc : t.children x <;> simp [Text.toList_escape, List.flatMap_map]

theorem isSpace_of_mem_between {blank : String} (h : ∀ c ∈ blank.toList, isSpace c = true) :
    ∀ c ∈ between t x blank, isSpace c = true := by
  rw [between]
  split
  · exact List.forall_mem_nil _
  · exact h

theorem markup_element (hl : layout.Blank) (hplain : t.overlay x = .plain) (h : Markup rest) :
    Markup ((element layout t n depth x).toList ++ rest) := by
  cases n with
  | zero => simpa [element] using h
  | succ n =>
    have htag (more : List Char) :
        Markup ((layout.indent depth).toList ++ ('<' :: more)) :=
      Markup.blank ⟨[], more, List.forall_mem_nil _, rfl⟩ (hl.indent depth)
    by_cases he : (t.content x).text = none ∧ t.children x = []
    · rw [toList_element_empty he.1 he.2, toList_openTag hplain, List.append_assoc]
      exact htag _
    · rw [toList_element hplain (by tauto), toList_openTag hplain, List.append_assoc]
      exact htag _

theorem markup_elements (hl : layout.Blank) {ids : List NodeId}
    (hplain : ∀ c ∈ ids, t.overlay c = .plain) (h : Markup rest) :
    Markup (ids.flatMap (fun c ↦ (element layout t n depth c).toList) ++ rest) := by
  induction ids with
  | nil => exact h
  | cons c ids ih =>
    rw [List.flatMap_cons, List.append_assoc]
    exact markup_element hl (hplain c List.mem_cons_self)
      (ih fun d hd ↦ hplain d (List.mem_cons_of_mem c hd))

def tidiedAt (ignored : List String) (t : Tree) (x : NodeId) : Content :=
  (t.content x).tidied ignored

theorem tagContent_eq (h : (t.content x).text.bind Text.tidied = none) :
    tagContent ignored (t.node x) = tidiedAt ignored t x := by
  rw [tidiedAt, Content.tidied, h]
  rfl

def Begun (ignored : List String) (t : Tree) (pre : List NodeId) (x : NodeId) (u : Tree) : Prop :=
  Transcribes t (update (tidiedAt ignored t) x (tagContent ignored (t.node x))) (fun _ ↦ .plain)
    (pre ++ [x]) u

theorem Begun.done (h : Begun ignored t pre x u)
    (htext : (t.content x).text.bind Text.tidied = none) :
    Transcribes t (tidiedAt ignored t) (fun _ ↦ .plain) (pre ++ [x]) u := by
  rwa [Begun, tagContent_eq htext, Function.update_eq_self] at h

theorem Begun.text (h : Begun ignored t pre x u) (w : t.WellFormed) (hpre : pre ++ [x] <+: t.live)
    (name : List Char) (outer : List (List Char × NodeId)) :
    ∃ u', ((t.content x).text.elim { tree := some u, opened := (name, t.place x) :: outer } fun s ↦
        Builder.addText { tree := some u, opened := (name, t.place x) :: outer } s.toList) =
      { tree := some u', opened := (name, t.place x) :: outer } ∧
        Transcribes t (tidiedAt ignored t) (fun _ ↦ .plain) (pre ++ [x]) u' := by
  have hx : x ∈ pre ++ [x] := List.mem_append_right pre List.mem_cons_self
  cases hs : (t.content x).text with
  | none => exact ⟨u, rfl, h.done (by rw [hs]; rfl)⟩
  | some s =>
    by_cases hrun : (Text.trim s.toList).isEmpty = true
    · refine ⟨u, ?_, h.done ?_⟩
      · rw [Option.elim_some, Builder.addText_blank (List.isEmpty_iff.1 hrun)]
      · rw [hs, Option.bind_some, Text.tidied, if_pos hrun]
    · have hnone : (u.content (t.place x)).text = none := by
        rw [Transcribes.content h x hx, Function.update_self]
        rfl
      have hwrite := Transcribes.modifyContent h w hpre hx fun c ↦
        { c with text := some (String.ofList (Text.trim s.toList)) }
      have hsame : { tagContent ignored (t.node x) with
          text := some (String.ofList (Text.trim s.toList)) } = tidiedAt ignored t x := by
        rw [tidiedAt, Content.tidied, hs, Option.bind_some, Text.tidied, if_neg hrun]
        rfl
      rw [Function.update_idem, Function.update_self, hsame, Function.update_eq_self] at hwrite
      refine ⟨_, ?_, hwrite⟩
      simp only [Option.elim_some, Builder.addText, if_neg hrun, hnone]

/-- Whether an element that is written for a node adds the subtree of that node when it is read. -/
def ReadsBack (ignored : List String) (layout : Layout) (t : Tree) (x : NodeId) : Prop :=
  ∀ (n depth : Nat) (b : Builder) (u : Tree) (pre post : List NodeId) (rest : List Char),
    t.size ≤ n + t.depth x → t.live = pre ++ (t.preorder x ++ post) →
    b.addElement (tagContent ignored (t.node x)) = .ok (u, t.place x) →
    Begun ignored t pre x u →
    ∃ u', b.read ignored ((element layout t n depth x).toList ++ rest) =
        Builder.read ignored { tree := some u', opened := b.opened } rest ∧
      Transcribes t (tidiedAt ignored t) (fun _ ↦ .plain) (pre ++ t.preorder x) u'

theorem read_elements (w : t.WellFormed) {name : List Char} {ids : List NodeId}
    (hids : ∀ c ∈ ids, t.parent? c = some p ∧ ReadsBack ignored layout t c)
    (hn : t.size ≤ n + (t.depth p + 1)) (hlive : t.live = pre ++ (ids.flatMap t.preorder ++ post))
    (hu : Transcribes t (tidiedAt ignored t) (fun _ ↦ .plain) pre u) (rest : List Char) :
    ∃ u', Builder.read ignored { tree := some u, opened := (name, t.place p) :: outer }
          (ids.flatMap (fun c ↦ (element layout t n depth c).toList) ++ rest) =
        Builder.read ignored { tree := some u', opened := (name, t.place p) :: outer } rest ∧
      Transcribes t (tidiedAt ignored t) (fun _ ↦ .plain) (pre ++ ids.flatMap t.preorder) u' := by
  induction ids generalizing pre u with
  | nil => exact ⟨u, rfl, by rwa [List.flatMap_nil, List.append_nil]⟩
  | cons c ids ih =>
    obtain ⟨hp, hread⟩ := hids c List.mem_cons_self
    rw [List.flatMap_cons, List.append_assoc] at hlive
    have hsplit : t.live = pre ++ c :: ((t.children c).flatMap t.preorder ++
        (ids.flatMap t.preorder ++ post)) := by
      rw [hlive, w.preorder_eq (lt_size_of_parent? hp)]
      rfl
    obtain ⟨hplace, hadd⟩ := hu.addChild w hsplit hp rfl (tagContent ignored (t.node c))
    have hopen : Builder.addElement { tree := some u, opened := (name, t.place p) :: outer }
        (tagContent ignored (t.node c)) =
          .ok ((u.addChild (t.place p) (tagContent ignored (t.node c))).1, t.place c) := by
      rw [← hplace]
      rfl
    obtain ⟨u₁, hfirst, hu₁⟩ := hread n depth _ _ pre _
      (ids.flatMap (fun c ↦ (element layout t n depth c).toList) ++ rest)
      (by rwa [w.depth_of_parent hp]) hlive hopen hadd
    obtain ⟨u₂, hrest, hu₂⟩ := ih (fun d hd ↦ hids d (List.mem_cons_of_mem c hd))
      (hlive.trans (List.append_assoc ..).symm) hu₁
    refine ⟨u₂, ?_, ?_⟩
    · rw [List.flatMap_cons, List.append_assoc, hfirst, hrest]
    · rwa [List.flatMap_cons, ← List.append_assoc]

theorem read_text {ws ws' : List Char} (hws : ∀ c ∈ ws, isSpace c = true)
    (hws' : ∀ c ∈ ws', isSpace c = true) (h : Markup rest) (text : Option String) :
    b.read ignored
        (((text.map fun s ↦ ws ++ (Text.escaped false s.toList ++ ws')).getD []) ++ rest) =
      (text.elim b fun s ↦ b.addText s.toList).read ignored rest := by
  cases text with
  | none => rfl
  | some s =>
    rw [Option.map_some, Option.getD_some, List.append_assoc, List.append_assoc]
    exact Builder.read_run hws hws' h

/-- What stands between the tags of an element adds the text and the subtrees of the children. -/
theorem read_inner (h : Printable t) (hl : layout.Blank) (hx : x ∈ t.live)
    (ih : ∀ c ∈ t.children x, ReadsBack ignored layout t c) (hn : t.size ≤ n + (t.depth x + 1))
    (hlive : t.live = pre ++ (t.preorder x ++ post)) (hu : Begun ignored t pre x u)
    (name : List Char) (outer : List (List Char × NodeId)) (rest : List Char) :
    ∃ u', Builder.read ignored { tree := some u, opened := (name, t.place x) :: outer }
          (inner layout t n depth x ++ '<' :: rest) =
        Builder.read ignored { tree := some u', opened := (name, t.place x) :: outer }
          ('<' :: rest) ∧
      Transcribes t (tidiedAt ignored t) (fun _ ↦ .plain) (pre ++ t.preorder x) u' := by
  have w := h.wellFormed
  rw [w.preorder_eq (w.live_lt hx)] at hlive ⊢
  have hsplit : t.live = pre ++ [x] ++ ((t.children x).flatMap t.preorder ++ post) := by
    rw [hlive]
    simp
  obtain ⟨u₁, htext, hu₁⟩ := hu.text w ⟨_, hsplit.symm⟩ name outer
  have hend : Markup (between t x (layout.indent depth) ++ '<' :: rest) :=
    Markup.blank ⟨[], rest, List.forall_mem_nil _, rfl⟩
      (isSpace_of_mem_between (hl.indent depth))
  obtain ⟨u₂, hchildren, hu₂⟩ := read_elements w
    (fun c hc ↦ ⟨w.mem_children.1 hc, ih c hc⟩) hn hsplit hu₁
    (between t x (layout.indent depth) ++ '<' :: rest)
  refine ⟨u₂, ?_, by rwa [List.append_assoc] at hu₂⟩
  have hplain : ∀ c ∈ t.children x, t.overlay c = .plain := fun c hc ↦
    h.overlay_eq (w.child_live hx hc)
  rw [inner, List.append_assoc, List.append_assoc, List.append_assoc,
    Builder.read_blank (isSpace_of_mem_between hl.newline),
    read_text (isSpace_of_mem_between (hl.indent _)) (isSpace_of_mem_between hl.newline)
      (markup_elements hl hplain hend), htext, hchildren,
    Builder.read_blank (isSpace_of_mem_between (hl.indent depth))]

/-- Down from a node, every element adds its subtree. -/
theorem readsBack (h : Printable t) (hl : layout.Blank) (hx : x ∈ t.live) :
    ReadsBack ignored layout t x := by
  have w := h.wellFormed
  induction x using w.down_induction with
  | h x ih =>
    intro n depth b u pre post rest hn hlive hadd hu
    have hd := w.depth_lt (w.live_lt hx)
    obtain ⟨n, rfl⟩ := Nat.exists_eq_succ_of_ne_zero (show n ≠ 0 by omega)
    have hplain := h.overlay_eq hx
    have hnamed := h.named x hx
    by_cases he : (t.content x).text = none ∧ t.children x = []
    · have hform : (element layout t (n + 1) depth x).toList ++ rest =
          (layout.indent depth).toList ++ ((openTag (x == Tree.root) (t.node x)).toList ++
            ' ' :: '/' :: '>' :: (layout.newline.toList ++ rest)) := by
        rw [toList_element_empty he.1 he.2]
        simp
      refine ⟨u, ?_, ?_⟩
      · rw [hform, Builder.read_blank (hl.indent depth), read_emptyTag hplain hnamed, hadd]
        exact Builder.read_blank hl.newline
      · rw [w.preorder_eq (w.live_lt hx), he.2]
        exact hu.done (by rw [he.1]; rfl)
    · have hform : (element layout t (n + 1) depth x).toList ++ rest =
          (layout.indent depth).toList ++ ((openTag (x == Tree.root) (t.node x)).toList ++ '>' ::
            (inner layout t n depth x ++ '<' :: '/' :: ((t.label x).toList ++ '>' ::
              (layout.newline.toList ++ rest)))) := by
        rw [toList_element hplain (by tauto)]
        simp
      -- what fuel is left is enough one level further down
      have hbelow : t.size ≤ n + (t.depth x + 1) := by omega
      obtain ⟨u', hinner, hu'⟩ := read_inner h hl hx (fun c hc ↦ ih c hc (w.child_live hx hc))
        hbelow hlive hu (t.label x).toList b.opened
        ('/' :: ((t.label x).toList ++ '>' :: (layout.newline.toList ++ rest)))
      refine ⟨u', ?_, hu'⟩
      rw [hform, Builder.read_blank (hl.indent depth), read_openTag hplain hnamed, hadd]
      refine hinner.trans ?_
      exact (read_closeTag hnamed.1 _).trans (Builder.read_blank hl.newline)

theorem pieces_declaration (cs : List Char) : pieces (declaration.toList ++ cs) = pieces cs := by
  have hnext : Piece.next? (declaration.toList ++ cs) = some (none, '\n' :: cs) := rfl
  have hblank : ∀ c ∈ ['\n'], isSpace c = true := List.forall_mem_singleton.2 rfl
  have hline : pieces ('\n' :: cs) = pieces cs := pieces_blank hblank cs
  have hne : declaration.toList ++ cs ≠ [] :=
    List.append_ne_nil_of_left_ne_nil (List.cons_ne_nil '<' _) cs
  rw [pieces_of_next? hne hnext]
  exact hline

/-- Nothing is cut out of a document that is a process model, or that holds none. -/
theorem narrow_eq (h : u.label Tree.root = "description" ∨
    ∀ y ∈ u.live, u.label y ≠ "description") : narrow u = u := by
  rw [narrow]
  rcases h with h | h
  · rw [if_pos h]
  · have hnone : u.live.find? (fun id ↦ u.label id == "description") = none :=
      List.find?_eq_none.2 fun y hy he ↦ h y hy (beq_iff_eq.1 he)
    rw [hnone, ite_self]

theorem tidies_of_transcribes (w : t.WellFormed)
    (hu : Transcribes t (tidiedAt ignored t) (fun _ ↦ .plain) t.live u) : Tidies ignored t u where
  toEmbeds := hu.embeds w
  wellFormed := hu.wellFormed
  size := hu.size
  plain := hu.plain w
  content := hu.content

/-- A tidied tree is narrowed to no part of it if the tree itself would not be. -/
theorem narrow_of_tidies (w : t.WellFormed) (hu : Tidies ignored t u)
    (h : t.label Tree.root = "description" ∨ ∀ x ∈ t.live, t.label x ≠ "description") :
    narrow u = u := by
  have hlabel {x : NodeId} (hx : x ∈ t.live) : u.label (t.place x) = t.label x := by
    rw [Tree.label, hu.content x hx]
    rfl
  refine narrow_eq (h.imp (fun hroot ↦ ?_) fun hall y hy ↦ ?_)
  · have hr := hlabel w.root_mem_live
    rwa [w.place_root, hroot] at hr
  · rw [hu.toEmbeds.live_map w hu.wellFormed] at hy
    obtain ⟨x, hx, rfl⟩ := List.mem_map.1 hy
    rw [hlabel hx]
    exact hall x hx

theorem parseIgnoring_document (h : Printable t) (hl : layout.Blank)
    (hroot : t.label Tree.root = "description" ∨ ∀ x ∈ t.live, t.label x ≠ "description")
    (hs : ∀ c ∈ s.toList, isSpace c = true) :
    ∃ u, parseIgnoring ignored (declaration ++ fragment layout t ++ s) = .ok u ∧
      Tidies ignored t u := by
  have w := h.wellFormed
  have hadd : Builder.addElement {} (tagContent ignored (t.node Tree.root)) =
      .ok (.leaf (tagContent ignored (t.node Tree.root)), t.place Tree.root) := by
    rw [w.place_root]
    rfl
  have hstart : Begun ignored t [] Tree.root (.leaf (tagContent ignored (t.node Tree.root))) :=
    Transcribes.rootedAt w (Function.update_self ..)
  obtain ⟨u, hread, hu⟩ := readsBack h hl w.root_mem_live t.size 0 {} _ [] [] s.toList
    (Nat.le_add_right ..) (List.append_nil _).symm hadd hstart
  have htidies := tidies_of_transcribes w hu
  refine ⟨u, ?_, htidies⟩
  have hdocument : (declaration ++ fragment layout t ++ s).toList =
      declaration.toList ++ ((element layout t t.size 0 Tree.root).toList ++ s.toList) := by
    simp [fragment]
  have hmark (cs : List Char) :
      withoutByteOrderMark (declaration.toList ++ cs) = declaration.toList ++ cs := rfl
  have hend : Builder.read ignored { tree := some u, opened := [] } (s.toList ++ []) =
      .ok { tree := some u, opened := [] } := (Builder.read_blank hs).trans Builder.read_nil
  rw [List.append_nil] at hend
  have hall := hread.trans hend
  rw [Builder.read] at hall
  rw [parseIgnoring, hdocument, hmark, pieces_declaration, hall]
  exact congrArg Except.ok (narrow_of_tidies w htidies hroot)

/-- A plain tree that is printed on one line or laid out is read back as it was, but for the
attributes that are dropped and the blanks around its texts. -/
theorem tidies_parse (h : Printable t)
    (hroot : t.label Tree.root = "description" ∨ ∀ x ∈ t.live, t.label x ≠ "description") :
    (∃ u, parse (print t) = .ok u ∧ Tidies standardIgnored t u) ∧
      ∃ u, parse (printPretty t) = .ok u ∧ Tidies standardIgnored t u := by
  constructor
  · exact parseIgnoring_document h blank_compact hroot (List.all_eq_true.1 (by decide))
  · rw [printPretty, ← String.append_empty (s := declaration ++ fragment .pretty t)]
    exact parseIgnoring_document h blank_pretty hroot nofun

def guardedCall : Tree :=
  .ofList { label := "description" } [
    (0, { label := "call"
          attributes := .ofList [("id", "a1"), ("condition", "x < 5 && y == \"]]>\"")] }),
    (1, { label := "parameters", text := some "\n'as given' \u00a0" }),
    (2, { label := "label", text := some "\u2003\t" })]

theorem printable_guardedCall : guardedCall.Printable where
  wellFormed := Tree.wellFormed_ofList _ _ (by decide)
  plain := by decide +kernel
  named := by decide +kernel

theorem tidies_parse_guardedCall :
    (∃ u, parse (print guardedCall) = .ok u ∧ Tidies standardIgnored guardedCall u) ∧
      ∃ u, parse (printPretty guardedCall) = .ok u ∧ Tidies standardIgnored guardedCall u :=
  tidies_parse printable_guardedCall (.inl (by decide +kernel))

end Xml

end FlowMerge
