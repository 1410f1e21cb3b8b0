import FlowMerge.Proofs.Fields
import FlowMerge.Proofs.Lists
import FlowMerge.Proofs.Tree.Copies
import FlowMerge.Proofs.Tree.Walks
import FlowMerge.Tree.Fingerprint

namespace FlowMerge

def IsClear (s : String) : Prop := ∀ c ∈ s.toList, 6 ≤ c.toNat

instance (s : String) : Decidable (IsClear s) :=
  List.decidableBAll (fun c : Char ↦ 6 ≤ c.toNat) s.toList

def isTextByte (b : UInt8) : Bool := decide (6 ≤ b.toNat)

theorem utf8_inj {s t : String} (h : utf8 s = utf8 t) : s = t := by
  have he : s.toList.utf8Encode = t.toList.utf8Encode := congrArg List.toByteArray h
  rwa [String.utf8Encode_toList, String.utf8Encode_toList, String.toByteArray_inj] at he

theorem isTextByte_of_mem_utf8 {s : String} (h : IsClear s) :
    ∀ b ∈ utf8 s, isTextByte b = true := by
  intro b hb
  obtain ⟨c, hc, hb⟩ := List.mem_flatMap.1 hb
  have hcode : 6 ≤ c.val.toNat := h c hc
  have hbyte {n : Nat} (hn : 6 ≤ n % 256) : isTextByte (UInt8.ofNat n) = true := by
    rwa [isTextByte, decide_eq_true_eq, UInt8.toNat_ofNat']
  unfold String.utf8EncodeChar at hb
  dsimp only at hb
  split_ifs at hb <;> simp only [List.mem_cons, List.not_mem_nil, or_false] at hb
  · subst hb
    exact hbyte (by omega)
  · rcases hb with rfl | rfl <;> exact hbyte (by omega)
  · rcases hb with rfl | rfl | rfl <;> exact hbyte (by omega)
  · rcases hb with rfl | rfl | rfl | rfl <;> exact hbyte (by omega)

theorem separates {b : UInt8} (h : isTextByte b = false) (l : List UInt8) :
    ∀ x ∈ (b :: l).head?, isTextByte x = false := fun _ hx ↦ Option.some_inj.1 hx ▸ h

namespace Attributes

theorem entryLe_iff {x y : String × String} :
    entryLe x y = true ↔ x.1 < y.1 ∨ x.1 = y.1 ∧ x.2 ≤ y.2 := by
  simp [entryLe]

theorem entryLe_trans (x y z : String × String) (h : entryLe x y = true) (h' : entryLe y z = true) :
    entryLe x z = true := by
  rw [entryLe_iff] at h h' ⊢
  rcases h with h | ⟨h, hle⟩
  · rcases h' with h' | ⟨h', -⟩
    · exact .inl (String.lt_trans h h')
    · exact .inl (h' ▸ h)
  · rcases h' with h' | ⟨h', hle'⟩
    · exact .inl (h ▸ h')
    · exact .inr ⟨h.trans h', String.le_trans hle hle'⟩

theorem entryLe_total (x y : String × String) : (entryLe x y || entryLe y x) = true := by
  rw [Bool.or_eq_true, entryLe_iff, entryLe_iff]
  by_cases hxy : x.1 < y.1
  · exact .inl (.inl hxy)
  by_cases hyx : y.1 < x.1
  · exact .inr (.inl hyx)
  have he : x.1 = y.1 := String.le_antisymm (String.not_lt.1 hyx) (String.not_lt.1 hxy)
  exact (String.le_total x.2 y.2).imp (fun h ↦ .inr ⟨he, h⟩) fun h ↦ .inr ⟨he.symm, h⟩

theorem entryLe_antisymm {x y : String × String} (h : entryLe x y = true)
    (h' : entryLe y x = true) : x = y := by
  rw [entryLe_iff] at h h'
  rcases h with h | ⟨h, hle⟩
  · rcases h' with h' | ⟨h', -⟩
    · exact absurd h' (String.lt_asymm h)
    · exact absurd (h' ▸ h) (String.lt_irrefl _)
  · rcases h' with h' | ⟨-, hle'⟩
    · exact absurd (h ▸ h') (String.lt_irrefl _)
    · exact Prod.ext h (String.le_antisymm hle hle')

theorem sorted_eq_iff {a b : Attributes} : a.sorted = b.sorted ↔ (a == b) = true := by
  have hperm : a.entries.Perm b.entries ↔ ∀ k, a.get? k = b.get? k := by
    constructor
    · intro h k
      refine Option.ext fun v ↦ ?_
      rw [get?_eq_some, get?_eq_some, h.mem_iff]
    · intro h
      refine (List.perm_ext_iff_of_nodup a.distinct.of_map b.distinct.of_map).2 fun e ↦ ?_
      rw [← get?_eq_some, ← get?_eq_some, h]
  rw [same_iff, ← hperm, sorted, sorted]
  constructor
  · intro h
    have hb := List.mergeSort_perm b.entries entryLe
    rw [← h] at hb
    exact (List.mergeSort_perm _ _).symm.trans hb
  · intro h
    refine List.Perm.eq_of_pairwise (fun _ _ _ _ ↦ entryLe_antisymm)
      (List.pairwise_mergeSort entryLe_trans entryLe_total _)
      (List.pairwise_mergeSort entryLe_trans entryLe_total _) ?_
    exact (List.mergeSort_perm _ _).trans (h.trans (List.mergeSort_perm _ _).symm)

end Attributes

namespace Content

variable {c d : Content} {r s : List UInt8} {x y : Option String} {k v : String}
  {es es' : List (String × String)}

structure IsClear (c : Content) : Prop where
  label : FlowMerge.IsClear c.label
  attributes : ∀ e ∈ c.attributes.entries, FlowMerge.IsClear e.1 ∧ FlowMerge.IsClear e.2
  text : ∀ s ∈ c.text, FlowMerge.IsClear s

instance (c : Content) : Decidable c.IsClear :=
  decidable_of_iff
    (FlowMerge.IsClear c.label ∧
      (∀ e ∈ c.attributes.entries, FlowMerge.IsClear e.1 ∧ FlowMerge.IsClear e.2) ∧
      ∀ s ∈ c.text, FlowMerge.IsClear s)
    ⟨fun ⟨label, attributes, text⟩ ↦ ⟨label, attributes, text⟩,
      fun h ↦ ⟨h.label, h.attributes, h.text⟩⟩

/-- A text that is followed by a separator ends there. -/
theorem utf8_append_inj (hk : FlowMerge.IsClear k) (hv : FlowMerge.IsClear v)
    (hr : ∀ b ∈ r.head?, isTextByte b = false) (hs : ∀ b ∈ s.head?, isTextByte b = false)
    (h : utf8 k ++ r = utf8 v ++ s) : k = v ∧ r = s := by
  obtain ⟨he, hrs⟩ := append_inj_of_run (isTextByte_of_mem_utf8 hk) (isTextByte_of_mem_utf8 hv)
    hr hs h
  exact ⟨utf8_inj he, hrs⟩

theorem head_textBytes (x : Option String) (r : List UInt8) :
    ∃ b l, textBytes x ++ r = b :: l ∧ isTextByte b = false ∧ b ≠ 1 := by
  cases x with
  | none => exact ⟨3, r, rfl, by decide⟩
  | some s => exact ⟨2, utf8 s ++ r, rfl, by decide⟩

/-- No attribute begins like what comes after the last one. -/
theorem attribute_ne_text (hk : FlowMerge.IsClear k) (l : List UInt8) :
    utf8 k ++ 1 :: l ≠ textBytes x ++ r := by
  obtain ⟨b, l', hb, hsep, hne⟩ := head_textBytes x r
  rw [hb]
  intro h
  have hsplit : utf8 k ++ 1 :: l = [] ++ b :: l' := h
  have hrest := (append_inj_of_run (isTextByte_of_mem_utf8 hk) (List.forall_mem_nil _)
    (separates rfl _) (separates hsep _) hsplit).2
  exact hne (List.cons.inj hrest).1.symm

theorem attributeBytes_append (e : String × String) (l : List UInt8) :
    attributeBytes e ++ l = utf8 e.1 ++ 1 :: (utf8 e.2 ++ 0 :: l) := by
  simp [attributeBytes]

theorem attributes_append_inj (hes : ∀ e ∈ es, FlowMerge.IsClear e.1 ∧ FlowMerge.IsClear e.2)
    (hes' : ∀ e ∈ es', FlowMerge.IsClear e.1 ∧ FlowMerge.IsClear e.2)
    (h : es.flatMap attributeBytes ++ (textBytes x ++ r) =
      es'.flatMap attributeBytes ++ (textBytes y ++ s)) :
    es = es' ∧ textBytes x ++ r = textBytes y ++ s := by
  induction es generalizing es' with
  | nil =>
    cases es' with
    | nil => exact ⟨rfl, h⟩
    | cons e' es' =>
      rw [List.flatMap_cons, List.append_assoc, attributeBytes_append] at h
      exact absurd h.symm (attribute_ne_text (hes' e' List.mem_cons_self).1 _)
  | cons e es ih =>
    rw [List.forall_mem_cons] at hes
    rw [List.flatMap_cons, List.append_assoc, attributeBytes_append] at h
    cases es' with
    | nil => exact absurd h (attribute_ne_text hes.1.1 _)
    | cons e' es' =>
      rw [List.forall_mem_cons] at hes'
      rw [List.flatMap_cons, List.append_assoc, attributeBytes_append] at h
      obtain ⟨hname, h⟩ := utf8_append_inj hes.1.1 hes'.1.1 (separates rfl _) (separates rfl _) h
      obtain ⟨hvalue, h⟩ := utf8_append_inj hes.1.2 hes'.1.2 (separates rfl _) (separates rfl _)
        (List.cons.inj h).2
      obtain ⟨hrest, h⟩ := ih hes.2 hes'.2 (List.cons.inj h).2
      exact ⟨by rw [Prod.ext hname hvalue, hrest], h⟩

theorem text_append_inj (hx : ∀ s ∈ x, FlowMerge.IsClear s) (hy : ∀ s ∈ y, FlowMerge.IsClear s)
    (hr : ∀ b ∈ r.head?, isTextByte b = false) (hs : ∀ b ∈ s.head?, isTextByte b = false)
    (h : textBytes x ++ r = textBytes y ++ s) : x = y ∧ r = s := by
  cases x with
  | none =>
    cases y with
    | none => exact ⟨rfl, (List.cons.inj h).2⟩
    | some v => exact absurd (List.cons.inj h).1 (by decide)
  | some k =>
    cases y with
    | none => exact absurd (List.cons.inj h).1 (by decide)
    | some v =>
      obtain ⟨rfl, hrs⟩ := utf8_append_inj (hx k rfl) (hy v rfl) hr hs (List.cons.inj h).2
      exact ⟨rfl, hrs⟩

theorem bytes_append (c : Content) (r : List UInt8) : c.bytes ++ r =
    utf8 c.label ++ 0 ::
      (c.attributes.sorted.flatMap attributeBytes ++ (textBytes c.text ++ r)) := by
  simp [bytes]

theorem bytes_append_inj (hc : c.IsClear) (hd : d.IsClear)
    (hr : ∀ b ∈ r.head?, isTextByte b = false) (hs : ∀ b ∈ s.head?, isTextByte b = false)
    (h : c.bytes ++ r = d.bytes ++ s) : (c == d) = true ∧ r = s := by
  have hsorted {c : Content} (hc : c.IsClear) : ∀ e ∈ c.attributes.sorted,
      FlowMerge.IsClear e.1 ∧ FlowMerge.IsClear e.2 := fun e he ↦
    hc.attributes e ((List.mergeSort_perm _ _).mem_iff.1 he)
  rw [bytes_append, bytes_append] at h
  obtain ⟨hlabel, h⟩ := utf8_append_inj hc.label hd.label (separates rfl _) (separates rfl _) h
  obtain ⟨hattributes, h⟩ := attributes_append_inj (hsorted hc) (hsorted hd) (List.cons.inj h).2
  obtain ⟨htext, hrs⟩ := text_append_inj hc.text hd.text hr hs h
  exact ⟨same_iff.2 ⟨hlabel, Attributes.same_iff.1 (Attributes.sorted_eq_iff.1 hattributes), htext⟩,
    hrs⟩

theorem bytes_eq_of_same (h : (c == d) = true) : c.bytes = d.bytes := by
  obtain ⟨hlabel, hattributes, htext⟩ := same_iff.1 h
  rw [bytes, hlabel, Attributes.sorted_eq_iff.2 (Attributes.same_iff.2 hattributes), htext, bytes]

end Content

namespace Tree

variable {t u : Tree} {a b x : NodeId} {r s : List UInt8}

def propertyChildren (t : Tree) (x : NodeId) : List NodeId :=
  (t.children x).filter fun c ↦ !t.isControlFlow c

/-- Whether two nodes hold the same, and so do the properties that belong to them, one by one. -/
inductive AgreeAt (t u : Tree) : NodeId → NodeId → Prop
  | intro {a b : NodeId} (content : (t.content a == u.content b) = true)
      (properties : List.Forall₂ (AgreeAt t u) (t.propertyChildren a) (u.propertyChildren b)) :
      AgreeAt t u a b

def ClearAt (t : Tree) (x : NodeId) : Prop := ∀ y ∈ x :: t.properties x, (t.content y).IsClear

instance (t : Tree) (x : NodeId) : Decidable (t.ClearAt x) :=
  inferInstanceAs (Decidable (∀ y ∈ x :: t.properties x, (t.content y).IsClear))

theorem fingerprintBytes_eq (w : t.WellFormed) (hx : x < t.size) :
    t.fingerprintBytes x = (t.content x).bytes ++
      (t.propertyChildren x).flatMap fun c ↦ 4 :: t.fingerprintBytes c ++ [5] := by
  have hbound : t.fingerprintBytesWithin t.size x = t.fingerprintBytesWithin (t.size + 1) x := by
    refine w.within_eq (fun n m y ih ↦ ?_) hx (by omega) (by omega)
    rw [fingerprintBytesWithin, fingerprintBytesWithin]
    refine congrArg (_ ++ ·) (List.flatMap_congr fun c hc ↦ ?_)
    rw [ih c (List.mem_of_mem_filter hc)]
  rw [fingerprintBytes, hbound, fingerprintBytesWithin]
  rfl

theorem properties_eq (w : t.WellFormed) (hx : x < t.size) :
    t.properties x = (t.propertyChildren x).flatMap fun c ↦ c :: t.properties c := by
  have hbound : t.propertiesWithin t.size x = t.propertiesWithin (t.size + 1) x := by
    refine w.within_eq (fun n m y ih ↦ ?_) hx (by omega) (by omega)
    rw [propertiesWithin, propertiesWithin]
    refine List.flatMap_congr fun c hc ↦ ?_
    rw [ih c (List.mem_of_mem_filter hc)]
  rw [properties, hbound, propertiesWithin]
  rfl

theorem ClearAt.child (h : t.ClearAt x) (w : t.WellFormed) (hx : x < t.size) {c : NodeId}
    (hc : c ∈ t.propertyChildren x) : t.ClearAt c := by
  intro y hy
  refine h y (List.mem_cons_of_mem x ?_)
  rw [properties_eq w hx]
  exact List.mem_flatMap.2 ⟨c, hc, hy⟩

theorem child_lt_of_property (w : t.WellFormed) {c : NodeId} (hc : c ∈ t.propertyChildren x) :
    c < t.size := w.child_lt (List.mem_of_mem_filter hc)

theorem fingerprintBytes_of_agreeAt (wt : t.WellFormed) (wu : u.WellFormed) (ha : a < t.size)
    (hb : b < u.size) (h : AgreeAt t u a b) : t.fingerprintBytes a = u.fingerprintBytes b := by
  induction a using wt.down_induction generalizing b with
  | h a ih =>
    obtain ⟨hcontent, hproperties⟩ := h
    rw [fingerprintBytes_eq wt ha, fingerprintBytes_eq wu hb, Content.bytes_eq_of_same hcontent]
    have hchildren : ∀ c ∈ t.propertyChildren a, ∀ d ∈ u.propertyChildren b, AgreeAt t u c d →
        t.fingerprintBytes c = u.fingerprintBytes d := fun c hc d hd ↦
      ih c (List.mem_of_mem_filter hc) (child_lt_of_property wt hc) (child_lt_of_property wu hd)
    congr 1
    generalize t.propertyChildren a = cs at hproperties hchildren
    generalize u.propertyChildren b = ds at hproperties hchildren
    induction hproperties with
    | nil => rfl
    | @cons c d cs ds hcd _ ih =>
      rw [List.flatMap_cons, List.flatMap_cons,
        hchildren c List.mem_cons_self d List.mem_cons_self hcd,
        ih fun c hc d hd ↦ hchildren c (List.mem_cons_of_mem _ hc) d (List.mem_cons_of_mem _ hd)]

/-- The bytes of properties are told apart one by one, if those of each of them are. -/
theorem properties_append_inj {f g : NodeId → List UInt8} {R : NodeId → NodeId → Prop}
    {cs ds : List NodeId} (hr : ∀ b ∈ r.head?, b = 5) (hs : ∀ b ∈ s.head?, b = 5)
    (hR : ∀ c ∈ cs, ∀ d ∈ ds, ∀ r s : List UInt8,
      f c ++ 5 :: r = g d ++ 5 :: s → R c d ∧ r = s)
    (h : cs.flatMap (fun c ↦ 4 :: f c ++ [5]) ++ r = ds.flatMap (fun d ↦ 4 :: g d ++ [5]) ++ s) :
    List.Forall₂ R cs ds ∧ r = s := by
  have happend (bytes l more : List UInt8) :
      (4 :: bytes ++ [5] ++ l) ++ more = 4 :: (bytes ++ 5 :: (l ++ more)) := by simp
  induction cs generalizing ds with
  | nil =>
    cases ds with
    | nil => exact ⟨.nil, h⟩
    | cons d ds =>
      rw [List.flatMap_cons, happend] at h
      exact absurd (hr 4 (by rw [show r = _ from h]; rfl)) (by decide)
  | cons c cs ih =>
    rw [List.flatMap_cons, happend] at h
    cases ds with
    | nil => exact absurd (hs 4 (by rw [← show _ = s from h]; rfl)) (by decide)
    | cons d ds =>
      rw [List.flatMap_cons, happend] at h
      obtain ⟨hcd, h⟩ := hR c List.mem_cons_self d List.mem_cons_self _ _ (List.cons.inj h).2
      obtain ⟨hrest, hrs⟩ := ih
        (fun c hc d hd ↦ hR c (List.mem_cons_of_mem _ hc) d (List.mem_cons_of_mem _ hd)) h
      exact ⟨.cons hcd hrest, hrs⟩

theorem agreeAt_of_append (wt : t.WellFormed) (wu : u.WellFormed) (ha : a < t.size)
    (hb : b < u.size) (hca : t.ClearAt a) (hcb : u.ClearAt b) (hr : ∀ b ∈ r.head?, b = 5)
    (hs : ∀ b ∈ s.head?, b = 5) (h : t.fingerprintBytes a ++ r = u.fingerprintBytes b ++ s) :
    AgreeAt t u a b ∧ r = s := by
  induction a using wt.down_induction generalizing b r s with
  | h a ih =>
    have hsep {f : NodeId → List UInt8} {l : List UInt8} (hl : ∀ b ∈ l.head?, b = 5)
        (cs : List NodeId) : ∀ b ∈ (cs.flatMap (fun c ↦ 4 :: f c ++ [5]) ++ l).head?,
          isTextByte b = false := by
      cases cs with
      | nil => exact fun b hb ↦ hl b hb ▸ rfl
      | cons c cs => exact separates rfl _
    rw [fingerprintBytes_eq wt ha, fingerprintBytes_eq wu hb, List.append_assoc,
      List.append_assoc] at h
    obtain ⟨hcontent, h⟩ := Content.bytes_append_inj (hca a List.mem_cons_self)
      (hcb b List.mem_cons_self) (hsep hr _) (hsep hs _) h
    have hproperty : ∀ c ∈ t.propertyChildren a, ∀ d ∈ u.propertyChildren b, ∀ r s : List UInt8,
        t.fingerprintBytes c ++ 5 :: r = u.fingerprintBytes d ++ 5 :: s →
          AgreeAt t u c d ∧ r = s := by
      intro c hc d hd r s hcd
      have hfive (l : List UInt8) : ∀ b ∈ (5 :: l).head?, b = 5 := fun b hb ↦
        (Option.some_inj.1 hb).symm
      obtain ⟨hagree, he⟩ := ih c (List.mem_of_mem_filter hc) (child_lt_of_property wt hc)
        (child_lt_of_property wu hd) (hca.child wt ha hc) (hcb.child wu hb hd) (hfive r) (hfive s)
        hcd
      exact ⟨hagree, (List.cons.inj he).2⟩
    obtain ⟨hproperties, hrs⟩ := properties_append_inj hr hs hproperty h
    exact ⟨⟨hcontent, hproperties⟩, hrs⟩

/-- The bytes identify a node: only nodes that hold the same, with properties that do, have the same
bytes. -/
theorem fingerprintBytes_eq_iff (wt : t.WellFormed) (wu : u.WellFormed) (ha : a < t.size)
    (hb : b < u.size) (hca : t.ClearAt a) (hcb : u.ClearAt b) :
    t.fingerprintBytes a = u.fingerprintBytes b ↔ AgreeAt t u a b := by
  refine ⟨fun h ↦ ?_, fingerprintBytes_of_agreeAt wt wu ha hb⟩
  have happend : t.fingerprintBytes a ++ [] = u.fingerprintBytes b ++ [] := by rw [h]
  exact (agreeAt_of_append wt wu ha hb hca hcb (r := []) (s := []) nofun nofun happend).1

def sectionAround (attributes : List (String × String)) (run : String) : Tree :=
  ofList { label := "description" } [
    (0, { label := "critical", attributes := .ofList attributes }),
    (1, { label := "_probes" }),
    (2, { label := "probe", text := some "x \u2264 5" }),
    (1, { label := run }),
    (1, { label := "_note" })]

theorem wellFormed_sectionAround (attributes : List (String × String)) (run : String) :
    (sectionAround attributes run).WellFormed := wellFormed_ofList _ _ (by simp)

/-- The order of the attributes and what the section runs do not matter, its identifier does. -/
theorem fingerprintBytes_eq_iff_sectionAround :
    (sectionAround [("id", "a"), ("sid", "s")] "call").fingerprintBytes 1 =
        (sectionAround [("sid", "s"), ("id", "a")] "loop").fingerprintBytes 1 ∧
      (sectionAround [("id", "a"), ("sid", "s")] "call").fingerprintBytes 1 ≠
        (sectionAround [("sid", "s"), ("id", "b")] "call").fingerprintBytes 1 := by
  have hreordered : AgreeAt (sectionAround [("id", "a"), ("sid", "s")] "call")
      (sectionAround [("sid", "s"), ("id", "a")] "loop") 1 1 :=
    .intro rfl (.cons (.intro rfl (.cons (.intro rfl .nil) .nil)) (.cons (.intro rfl .nil) .nil))
  have hrenamed : ¬ AgreeAt (sectionAround [("id", "a"), ("sid", "s")] "call")
      (sectionAround [("sid", "s"), ("id", "b")] "call") 1 1 := by
    rintro ⟨hcontent, -⟩
    exact absurd hcontent (by decide +kernel)
  constructor
  · exact (fingerprintBytes_eq_iff (wellFormed_sectionAround _ _) (wellFormed_sectionAround _ _)
      (by decide +kernel) (by decide +kernel) (by decide +kernel) (by decide +kernel)).2 hreordered
  · exact mt (fingerprintBytes_eq_iff (wellFormed_sectionAround _ _) (wellFormed_sectionAround _ _)
      (by decide +kernel) (by decide +kernel) (by decide +kernel) (by decide +kernel)).1 hrenamed

end Tree

end FlowMerge
