import FlowMerge.Proofs.Script.Groundwork
import Mathlib.Tactic.Tauto

namespace FlowMerge.Script

open FlowMerge.Tree

variable {old new d d' g : Tree} {m : Matching} {n o c p q s x y : NodeId}
  {pre post : List NodeId} {K P : NodeId → Prop} {f : NodeId → NodeId}

def Visited (new : Tree) (m : Matching) (pre : List NodeId) (x : NodeId) : Prop :=
  ∃ v ∈ pre, x = v ∨ (wholeNew new m v = true ∧ new.Above v x)

/-- What is known of a node when its turn comes after those of `pre`. -/
structure Turn (new : Tree) (m : Matching) (pre : List NodeId) (n : NodeId) : Prop where
  live : n ∈ new.live
  unvisited : ∀ x, new.Above n x → ¬ Visited new m pre x
  above : ∀ a, new.Above a n → a ≠ n → Visited new m pre a ∧ wholeNew new m a = false
  earlier : ∀ a p s, new.Above a n → new.parent? a = some p → new.parent? s = some p →
    new.position s < new.position a → Visited new m pre s

theorem reached_sibling {stop : NodeId → Bool} (wn : new.WellFormed) (ha : new.Above x n)
    (hxp : new.parent? x = some p) (hsp : new.parent? s = some p)
    (hreached : ∀ b, new.Above b n → b ≠ n → stop b = false) : new.Reached stop s := by
  intro b hb hbs
  rcases above_iff.1 hb with rfl | ⟨p', hp', hbp⟩
  · exact absurd rfl hbs
  · obtain rfl := Option.some_inj.1 (hp'.symm.trans hsp)
    refine hreached b ((hbp.tail hxp).trans ha) ?_
    rintro rfl
    exact wn.not_above_of_parent hxp (ha.trans hbp)

theorem turn_of_split (wn : new.WellFormed)
    (h : new.pruned (wholeNew new m) = pre ++ n :: post) : Turn new m pre n := by
  have hmem {x : NodeId} : x ∈ pre ++ n :: post ↔
      x ∈ new.live ∧ new.Reached (wholeNew new m) x := h ▸ wn.mem_pruned
  have hnd : (pre ++ n :: post).Nodup := h ▸ wn.nodup_pruned _
  have hpw : (pre ++ n :: post).Pairwise new.Precedes := h ▸ wn.pairwise_pruned _
  obtain ⟨hlive, hreached⟩ := hmem.1 (List.mem_append_right _ List.mem_cons_self)
  have hpre {x : NodeId} (hx : x ∈ pre ++ n :: post) (hne : x ≠ n)
      (hbefore : ¬ new.Precedes n x) : x ∈ pre := mem_left_of_not_rel hpw hx hne hbefore
  have habove : ∀ a, new.Above a n → a ≠ n → a ∈ pre := by
    intro a ha hne
    refine hpre (hmem.2 ⟨wn.above_live hlive ha, fun b hb hba ↦ ?_⟩) hne fun hp ↦
      hp.not_above ha
    refine hreached b (hb.trans ha) ?_
    rintro rfl
    exact hba (wn.above_antisymm hb ha)
  rw [List.nodup_append, List.nodup_cons] at hnd
  rw [List.pairwise_append, List.pairwise_cons] at hpw
  exact {
    live := hlive
    unvisited := by
      rintro x hx ⟨v, hv, rfl | ⟨hw, hvx⟩⟩
      · exact (hpw.2.2 x hv n List.mem_cons_self).not_above hx
      · rcases WellFormed.above_total hvx hx with hvn | hnv
        · have hne : v ≠ n := fun he ↦ hnd.2.2 v hv n List.mem_cons_self he
          rw [hreached v hvn hne] at hw
          cases hw
        · exact (hpw.2.2 v hv n List.mem_cons_self).not_above hnv
    above a ha hne := ⟨⟨a, habove a ha hne, .inl rfl⟩, hreached a ha hne⟩
    earlier := by
      intro a p s ha hap hsp hlt
      have hne : s ≠ a := by
        rintro rfl
        exact Nat.lt_irrefl _ hlt
      have hpl := wn.parent_live (wn.above_live hlive ha) hap
      have hs : s ∈ pre ++ n :: post := hmem.2 ⟨wn.child_live hpl (wn.mem_children.2 hsp),
        reached_sibling wn ha hap hsp hreached⟩
      refine ⟨s, ?_, .inl rfl⟩
      by_cases han : a = n
      · subst han
        exact hpre hs hne fun hp ↦ Nat.lt_asymm hlt (hp.siblings p hap hsp)
      · -- an ancestor has had its turn, and its earlier siblings came before
        rcases List.mem_append.1 hs with hs | hs
        · exact hs
        · have := (hpw.2.2 a (habove a ha han) s hs).siblings p hap hsp
          omega }

open Classical in
noncomputable def shown (old new : Tree) (m : Matching) (P : NodeId → Prop) (n : NodeId) :
    List NodeId :=
  (new.children n).filter fun c ↦ decide (P c) || (inOrder old new m n).contains c

theorem mem_shown : c ∈ shown old new m P n ↔
    c ∈ new.children n ∧ (P c ∨ c ∈ inOrder old new m n) := by
  classical
  rw [shown, List.mem_filter, Bool.or_eq_true, decide_eq_true_iff, List.contains_iff_mem]

theorem shown_congr {Q : NodeId → Prop} (h : ∀ c ∈ new.children n,
    (P c ∨ c ∈ inOrder old new m n) ↔ (Q c ∨ c ∈ inOrder old new m n)) :
    shown old new m P n = shown old new m Q n := by
  classical
  refine List.filter_congr fun c hc ↦ ?_
  rw [Bool.eq_iff_iff, Bool.or_eq_true, Bool.or_eq_true, decide_eq_true_iff, decide_eq_true_iff,
    List.contains_iff_mem]
  exact h c hc

theorem shown_eq_children (h : ∀ c ∈ new.children n, P c ∨ c ∈ inOrder old new m n) :
    shown old new m P n = new.children n := by
  classical
  refine List.filter_eq_self.2 fun c hc ↦ ?_
  rw [Bool.or_eq_true, decide_eq_true_iff, List.contains_iff_mem]
  exact h c hc

/-- Among the children that are shown the new position is the place of the node. -/
theorem shown_insert (wn : new.WellFormed) (hp : new.parent? n = some p) (hPn : ¬ P n)
    (hord : n ∉ ordered old new m n)
    (hearlier : ∀ s, new.parent? s = some p → new.position s < new.position n → P s) :
    new.position n ≤ (shown old new m P p).length ∧
      (shown old new m P p).insertIdx (new.position n) n =
        shown old new m (fun x ↦ P x ∨ x = n) p := by
  classical
  rw [ordered, hp] at hord
  obtain ⟨hlen, hins⟩ := insertIdx_filter (q := fun c ↦ decide (P c) ||
      (inOrder old new m p).contains c) (wn.nodup_children p) (wn.getElem?_position hp)
    (fun j hj b hb ↦ by
      obtain ⟨hbp, rfl⟩ := (wn.linked p b j).1 hb
      rw [Bool.or_eq_true, decide_eq_true_iff]
      exact .inl (hearlier b hbp hj))
    (by simpa [hPn] using hord)
  refine ⟨hlen, hins.trans (List.filter_congr fun c _ ↦ ?_)⟩
  rw [Bool.eq_iff_iff]
  simp only [Bool.or_eq_true, decide_eq_true_iff, beq_iff_eq]
  tauto

theorem shown_insert_of_ne (wn : new.WellFormed) (hp : new.parent? n = some p) (hx : x ≠ p) :
    shown old new m (fun y ↦ P y ∨ y = n) x = shown old new m P x := by
  refine shown_congr fun b hb ↦ ?_
  have hbn : b ≠ n := by
    rintro rfl
    exact hx (Option.some_inj.1 ((wn.mem_children.1 hb).symm.trans hp))
  rw [or_iff_left hbn]

/-- The tree `d` has grown from `g`. Known nodes of the new tree have their images along `f`, and
the children of an image are the images of the children that are placed or kept their order. -/
structure Grown (old new : Tree) (m : Matching) (g : Tree) (K P : NodeId → Prop)
    (f : NodeId → NodeId) (d : Tree) : Prop where
  wellFormed : d.WellFormed
  size_le : g.size ≤ d.size
  root : f Tree.root = Tree.root
  known : ∀ n o, m.old? n = some o → K n
  placed : ∀ n, P n → K n
  live : ∀ n, K n → n ∈ new.live
  matched : ∀ n o, m.old? n = some o → f n = old.place o
  fresh : ∀ n, K n → m.old? n = none → g.size ≤ f n
  lt : ∀ n, K n → f n < d.size
  inj : ∀ x y, K x → K y → f x = f y → x = y
  children : ∀ n, K n → d.children (f n) = (shown old new m P n).map f
  top : ∀ n, K n → ¬ P n → n ≠ Tree.root → n ∉ ordered old new m n → d.parent? (f n) = none
  content : ∀ n, K n → m.old? n = none → d.content (f n) = new.content n
  data : ∀ y < g.size, d.content y = g.content y ∧ d.overlay y = g.overlay y
  inserted : ∀ y, g.size ≤ y → y < d.size → d.delta? y = some { mark := .inserted }

namespace Grown

variable (h : Grown old new m g K P f d)
include h

theorem getElem?_children (wn : new.WellFormed) (hq : K q) (hc : new.parent? c = some q)
    (hplaced : P c) (hbefore : ∀ s, new.parent? s = some q →
      new.position s < new.position c → P s) :
    (d.children (f q))[new.position c]? = some (f c) := by
  classical
  rw [h.children q hq, List.getElem?_map, shown,
    getElem?_filter_of_before (wn.getElem?_position hc)]
  · rfl
  · intro j hj b hb
    obtain ⟨hbp, rfl⟩ := (wn.linked q b j).1 hb
    rw [Bool.or_eq_true, decide_eq_true_iff]
    rcases Nat.eq_or_lt_of_le hj with he | hlt
    · have hcc := wn.getElem?_position hc
      rw [← he, hb] at hcc
      exact .inl (Option.some_inj.1 hcc ▸ hplaced)
    · exact .inl (hbefore b hbp hlt)

/-- The way to a node whose ancestors are all placed. -/
theorem resolve_path (wn : new.WellFormed) (hp : p ∈ new.live)
    (habove : ∀ a, new.Above a p → P a)
    (hearlier : ∀ a q s, new.Above a p → new.parent? a = some q → new.parent? s = some q →
      new.position s < new.position a → P s) :
    d.resolve (new.path p) = .ok (f p) ∧ d.Above Tree.root (f p) := by
  have hedge (c q : NodeId) (hc : new.Above c p) (hq : new.parent? c = some q) :
      (d.children (f q))[new.position c]? = some (f c) :=
    h.getElem?_children wn (h.placed q (habove q (hc.head hq))) hq (habove c hc)
      fun s hs hlt ↦ hearlier c q s hc hq hs hlt
  refine ⟨Tree.resolve_path wn f h.root hp hedge, ?_⟩
  have hup : ∀ a, new.Above a p → d.Above Tree.root (f a) := by
    intro a
    induction a using wn.up_induction with
    | h a ih =>
      intro ha
      cases hq : new.parent? a with
      | none =>
        obtain rfl := above_of_top hq (wn.mem_live.1 (wn.above_live hp ha))
        rw [h.root]
      | some q =>
        refine (ih q hq (ha.head hq)).tail (h.wellFormed.mem_children.1 ?_)
        exact List.mem_of_getElem? (hedge a q ha hq)
  exact hup p .refl

omit h in
theorem attach_eq {path : Path} {i : Nat} {c : Change} (hc : c.new = some (path ++ [i]))
    (hr : d.resolve path = .ok q) (hi : i ≤ (d.children q).length) :
    Script.attach d c n = .ok (d.insertChild q i n) := by
  have hp : Path.parent? (path ++ [i]) = some path := by
    rw [Path.parent?, List.dropLast_concat]
    cases path <;> rfl
  have hins : d.insertChild? q i n = some (d.insertChild q i n) := if_pos hi
  rw [Script.attach, hc]
  simp only [hp, List.getLast?_concat, hr, bind, Except.bind, hins]

theorem not_above_of_top (hroot : K Tree.root) (hn : K n) (hnr : n ≠ Tree.root)
    (htop : d.parent? (f n) = none) (hy : d.Above Tree.root y) : ¬ d.Above (f n) y := by
  intro ha
  rcases WellFormed.above_total ha hy with ha | ha
  · refine hnr (h.inj n _ hn hroot ?_)
    exact (above_of_top h.wellFormed.root_top ha).trans h.root.symm
  · refine hnr (h.inj n _ hn hroot ?_)
    exact (above_of_top htop ha).symm.trans h.root.symm

theorem insertChild (wn : new.WellFormed) (hn : K n) (hPn : ¬ P n)
    (hord : n ∉ ordered old new m n) (hp : new.parent? n = some p) (hKp : K p)
    (hearlier : ∀ s, new.parent? s = some p → new.position s < new.position n → P s)
    (w : (d.insertChild (f p) (new.position n) (f n)).WellFormed) :
    Grown old new m g K (fun x ↦ P x ∨ x = n) f
      (d.insertChild (f p) (new.position n) (f n)) := by
  have hins := (shown_insert wn hp hPn hord hearlier).2
  have hchildren := children_insertChild (h.lt p hKp) (h.lt n hn) (new.position n)
  have hparent := parent?_insertChild (h.lt p hKp) (h.lt n hn) (new.position n)
  have hsize := size_insertChild d (f p) (new.position n) (f n)
  have hdata := sameData_insertChild d (f p) (new.position n) (f n)
  exact {
    wellFormed := w
    size_le := hsize ▸ h.size_le
    root := h.root
    known := h.known
    placed x hx := hx.elim (h.placed x) fun he ↦ he ▸ hn
    live := h.live
    matched := h.matched
    fresh := h.fresh
    lt x hx := hsize ▸ h.lt x hx
    inj := h.inj
    children x hx := by
      rw [hchildren]
      by_cases hxp : x = p
      · subst hxp
        rw [if_pos rfl, h.children x hx, ← List.map_insertIdx, hins]
      · rw [if_neg fun he ↦ hxp (h.inj x p hx hKp he), h.children x hx,
          shown_insert_of_ne wn hp hxp]
    top x hx hPx hxr hxo := by
      rw [hparent, if_neg fun he ↦ hPx (.inr (h.inj x n hx hn he))]
      exact h.top x hx (fun hP ↦ hPx (.inl hP)) hxr hxo
    content x hx hxn := by
      rw [hdata.content]
      exact h.content x hx hxn
    data y hy := by
      rw [hdata.content, hdata.overlay]
      exact h.data y hy
    inserted y hy hy' := by
      rw [hdata.delta?]
      exact h.inserted y hy (hsize ▸ hy') }

/-- A known node takes its place when all above it and all its earlier siblings have theirs. -/
theorem attach (wn : new.WellFormed) (hn : K n) (hPn : ¬ P n) (hord : n ∉ ordered old new m n)
    (hp : new.parent? n = some p) (habove : ∀ a, new.Above a n → a ≠ n → P a)
    (hearlier : ∀ a q s, new.Above a n → new.parent? a = some q → new.parent? s = some q →
      new.position s < new.position a → P s) {c : Change} (hc : c.new = some (new.path n)) :
    ∃ d', attach d c (f n) = .ok d' ∧
      Grown old new m g K (fun x ↦ P x ∨ x = n) f d' := by
  have hpn : n ≠ Tree.root := wn.child_ne_root hp
  have hp_above {a : NodeId} (ha : new.Above a p) : P a := by
    refine habove a (ha.tail hp) ?_
    rintro rfl
    exact wn.not_above_of_parent hp ha
  have hKp := h.placed p (hp_above .refl)
  have hKr := h.placed _ (habove Tree.root (wn.mem_live.1 (h.live n hn)) hpn.symm)
  obtain ⟨hres, hroot⟩ := h.resolve_path wn (wn.parent_live (h.live n hn) hp)
    (fun a ha ↦ hp_above ha) fun a q s ha ↦ hearlier a q s (ha.tail hp)
  have htop : d.parent? (f n) = none := h.top n hn hPn hpn hord
  have hfr : f n ≠ Tree.root := fun he ↦ hpn (h.inj n _ hn hKr (he.trans h.root.symm))
  have hsiblings (s : NodeId) (hs : new.parent? s = some p) :
      new.position s < new.position n → P s := hearlier n p s .refl hp hs
  have hcount : new.position n ≤ (d.children (f p)).length := by
    rw [h.children p hKp, List.length_map]
    exact (shown_insert wn hp hPn hord hsiblings).1
  refine ⟨d.insertChild (f p) (new.position n) (f n), ?_,
    h.insertChild wn hn hPn hord hp hKp hsiblings ?_⟩
  · exact attach_eq (hc.trans (congrArg some (wn.path_of_parent hp))) hres hcount
  · exact h.wellFormed.insertChild (h.lt p hKp) (h.lt n hn) hfr htop
      (h.not_above_of_top hKr hn hpn htop hroot) hcount

end Grown

def Came (new : Tree) (whole : Bool) (n x : NodeId) : Prop :=
  x = n ∨ (whole = true ∧ new.Above n x)

theorem Came.above {whole : Bool} (h : Came new whole n x) : new.Above n x := by
  rcases h with rfl | ⟨-, hx⟩
  · exact .refl
  · exact hx

theorem Came.eq (h : Came new false n x) : x = n := h.resolve_right fun h ↦ Bool.false_ne_true h.1

theorem shown_of_came (wn : new.WellFormed) {whole : Bool} (hx : Came new whole n x)
    (hfree : m.old? x = none) (hP : ∀ c ∈ new.children n, ¬ P c) :
    shown old new m (fun y ↦ P y ∨ (Came new whole n y ∧ y ≠ n)) x =
      if whole then new.children x else [] := by
  cases whole with
  | true =>
    refine shown_eq_children fun c hc ↦ .inl (.inr ?_)
    have hpar := wn.mem_children.1 hc
    refine ⟨.inr ⟨rfl, hx.above.tail hpar⟩, ?_⟩
    rintro rfl
    exact wn.not_above_of_parent hpar hx.above
  | false =>
    obtain rfl := hx.eq
    refine List.eq_nil_iff_forall_not_mem.2 fun c hc ↦ ?_
    rw [mem_shown, inOrder_of_free hfree] at hc
    rcases hc with ⟨hc, (hPc | ⟨hcame, hne⟩) | hin⟩
    · exact hP c hc hPc
    · exact hne hcame.eq
    · cases hin

theorem shown_of_not_came (wn : new.WellFormed) {whole : Bool} (hx : ¬ Came new whole n x) :
    shown old new m (fun y ↦ P y ∨ (Came new whole n y ∧ y ≠ n)) x = shown old new m P x := by
  refine shown_congr fun c hc ↦ or_congr_left ⟨fun hPc ↦ ?_, .inl⟩
  rcases hPc with hPc | ⟨rfl | ⟨hw, hcame⟩, hne⟩
  · exact hPc
  · exact absurd rfl hne
  · rcases above_iff.1 hcame with rfl | ⟨q, hq, hnq⟩
    · exact absurd rfl hne
    · obtain rfl := Option.some_inj.1 (hq.symm.trans (wn.mem_children.1 hc))
      exact absurd (.inr ⟨hw, hnq⟩) hx

/-- The tree `d'` is `d` with a detached copy of a new node, by itself or with all that is below
it. The copies are marked, and `k` leads to them. -/
structure Planted (new : Tree) (whole : Bool) (n : NodeId) (d d' : Tree)
    (k : NodeId → NodeId) : Prop where
  wellFormed : d'.WellFormed
  size_le : d.size ≤ d'.size
  first : k n = d.size
  detached : d'.parent? d.size = none
  children : ∀ x, Came new whole n x →
    d'.children (k x) = if whole then (new.children x).map k else []
  content : ∀ x, Came new whole n x → d'.content (k x) = new.content x
  fresh : ∀ x, Came new whole n x → d.size ≤ k x ∧ k x < d'.size
  inj : ∀ x y, Came new whole n x → Came new whole n y → k x = k y → x = y
  others : ∀ y < d.size, d'.children y = d.children y ∧ d'.parent? y = d.parent? y
  data : ∀ y < d.size, d'.content y = d.content y ∧ d'.overlay y = d.overlay y
  inserted : ∀ y, d.size ≤ y → y < d'.size → d'.delta? y = some { mark := .inserted }

theorem Planted.of_copied {src : Tree} {r : NodeId} {a : Overlay} {k e : NodeId → NodeId}
    {whole : Bool} (w : d.WellFormed) (ws : src.WellFormed) (h : Copied src r a d d' k)
    (ha : a.delta? = some {}) (hr : e n = r)
    (he : ∀ x, Came new whole n x → src.Above r (e x) ∧ src.content (e x) = new.content x ∧
      src.children (e x) = if whole then (new.children x).map e else [])
    (hinj : ∀ x y, Came new whole n x → Came new whole n y → e x = e y → x = y) :
    Planted new whole n d (d'.markSubtree d.size .inserted) (k ∘ e) := by
  have hshape := sameShape_markSubtree d' d.size .inserted
  exact {
    wellFormed := hshape.wellFormed h.wellFormed
    size_le := hshape.size ▸ Nat.le_of_lt h.size_lt
    first := (congrArg k hr).trans h.top
    detached := (hshape.parent? _).trans h.detached
    children x hx := by
      obtain ⟨hab, -, hch⟩ := he x hx
      rw [hshape.children, Function.comp_apply, h.children _ hab, hch]
      split
      · rw [List.map_map]
      · rfl
    content x hx := by
      obtain ⟨hab, hco, -⟩ := he x hx
      rw [content_markSubtree, Function.comp_apply, h.content _ hab, hco]
    fresh x hx := by
      rw [hshape.size]
      exact h.fresh _ (he x hx).1
    inj x y hx hy hxy := hinj x y hx hy (h.inj ws (he x hx).1 (he y hy).1 hxy)
    others y hy := by
      rw [hshape.children, hshape.parent?]
      exact h.others y hy
    data y hy := h.data_markSubtree ws w .inserted hy
    inserted y hy hy' := h.delta?_markSubtree_size ws w .inserted ha hy (hshape.size ▸ hy') }

theorem planted_whole (w : d.WellFormed) (wn : new.WellFormed) (hn : n ∈ new.live)
    (hd : d.delta? Tree.root ≠ none) : ∃ k, Planted new true n d
      ((d.importSubtree (new.subtreeCopy n) Tree.root).1.markSubtree d.size .inserted) k := by
  obtain ⟨k, h⟩ := copied_import_subtreeCopy wn w (wn.live_lt hn)
  refine ⟨_, Planted.of_copied (e := id) w wn h (Overlay.delta?_blank hd) rfl (fun x hx ↦ ?_)
    fun x y _ _ hxy ↦ hxy⟩
  exact ⟨hx.above, rfl, (List.map_id _).symm⟩

theorem planted_single (w : d.WellFormed) (new : Tree) (n : NodeId)
    (hd : d.delta? Tree.root ≠ none) : ∃ k, Planted new false n d
      ((d.importSubtree (new.nodeCopy n) Tree.root).1.markSubtree d.size .inserted) k := by
  have ws : (new.nodeCopy n).WellFormed := wellFormed_rootedAt _ _
  obtain ⟨k, h⟩ := copied_importSubtree ws w ws.root_lt
  refine ⟨_, Planted.of_copied (e := fun _ ↦ Tree.root) w ws h (Overlay.delta?_blank hd) rfl
    (fun x hx ↦ ?_) fun x y hx hy _ ↦ hx.eq.trans hy.eq.symm⟩
  rw [hx.eq]
  exact ⟨.refl, rfl, rfl⟩

theorem Grown.known_of_shown (h : Grown old new m g K P f d) (wo : old.WellFormed)
    (hc : c ∈ shown old new m P x) : K c := by
  rcases (mem_shown.1 hc).2 with hPc | hin
  · exact h.placed c hPc
  · obtain ⟨po, oc, -, -, hoc, -⟩ := mem_inOrder wo hin
    exact h.known c oc hoc

open Classical in
noncomputable def joined (new : Tree) (whole : Bool) (n : NodeId) (k f : NodeId → NodeId)
    (x : NodeId) : NodeId :=
  if Came new whole n x then k x else f x

section Plant

variable {whole : Bool} {k : NodeId → NodeId} (h : Grown old new m g K P f d)
  (h' : Planted new whole n d d' k) (hK : ∀ x, Came new whole n x → ¬ K x)

theorem joined_of_came (hx : Came new whole n x) : joined new whole n k f x = k x := if_pos hx

include hK in
theorem joined_of_known (hx : K x) : joined new whole n k f x = f x :=
  if_neg fun hc ↦ hK x hc hx

include h h' hK

theorem Grown.joined_inj (hx : K x ∨ Came new whole n x) (hy : K y ∨ Came new whole n y)
    (he : joined new whole n k f x = joined new whole n k f y) : x = y := by
  have hapart {a b : NodeId} (ha : K a) (hb : Came new whole n b) :
      joined new whole n k f a ≠ joined new whole n k f b := by
    rw [joined_of_known hK ha, joined_of_came hb]
    exact Nat.ne_of_lt (Nat.lt_of_lt_of_le (h.lt a ha) (h'.fresh b hb).1)
  rcases hx with hx | hx <;> rcases hy with hy | hy
  · rw [joined_of_known hK hx, joined_of_known hK hy] at he
    exact h.inj x y hx hy he
  · exact absurd he (hapart hx hy)
  · exact absurd he.symm (hapart hy hx)
  · rw [joined_of_came hx, joined_of_came hy] at he
    exact h'.inj x y hx hy he

theorem Grown.children_joined (wo : old.WellFormed) (wn : new.WellFormed)
    (hfree : ∀ x, Came new whole n x → m.old? x = none) (hP : ∀ c ∈ new.children n, ¬ P c)
    (hx : K x ∨ Came new whole n x) : d'.children (joined new whole n k f x) =
      (shown old new m (fun x ↦ P x ∨ (Came new whole n x ∧ x ≠ n)) x).map
        (joined new whole n k f) := by
  by_cases hc : Came new whole n x
  · rw [joined_of_came hc, h'.children x hc, shown_of_came wn hc (hfree x hc) hP]
    cases whole with
    | true =>
      refine List.map_congr_left fun c hcx ↦ (joined_of_came (.inr ⟨rfl, ?_⟩)).symm
      exact hc.above.tail (wn.mem_children.1 hcx)
    | false => rfl
  · have hKx := hx.resolve_right hc
    rw [joined_of_known hK hKx, (h'.others _ (h.lt x hKx)).1, h.children x hKx,
      shown_of_not_came wn hc]
    exact List.map_congr_left fun c hcx ↦ (joined_of_known hK (h.known_of_shown wo hcx)).symm

/-- A new node becomes known. All that comes with it is placed, and its own place is still to
fill. -/
theorem Grown.plant (wo : old.WellFormed) (wn : new.WellFormed) (hroot : K Tree.root)
    (hn : n ∈ new.live) (hfree : ∀ x, Came new whole n x → m.old? x = none)
    (hP : ∀ c ∈ new.children n, ¬ P c) :
    ∃ f', f' n = d.size ∧ Grown old new m g (fun x ↦ K x ∨ Came new whole n x)
      (fun x ↦ P x ∨ (Came new whole n x ∧ x ≠ n)) f' d' := by
  refine ⟨joined new whole n k f, (joined_of_came (.inl rfl)).trans h'.first, ?_⟩
  exact {
    wellFormed := h'.wellFormed
    size_le := Nat.le_trans h.size_le h'.size_le
    root := (joined_of_known hK hroot).trans h.root
    known x o hx := .inl (h.known x o hx)
    placed x hx := hx.imp (h.placed x) And.left
    live x hx := by
      rcases hx with hx | hx
      · exact h.live x hx
      · exact wn.mem_live.2 ((wn.mem_live.1 hn).trans hx.above)
    matched x o hx := by
      rw [joined_of_known hK (h.known x o hx), h.matched x o hx]
    fresh x hx hxn := by
      rcases hx with hx | hx
      · rw [joined_of_known hK hx]
        exact h.fresh x hx hxn
      · rw [joined_of_came hx]
        exact Nat.le_trans h.size_le (h'.fresh x hx).1
    lt x hx := by
      rcases hx with hx | hx
      · rw [joined_of_known hK hx]
        exact Nat.lt_of_lt_of_le (h.lt x hx) h'.size_le
      · rw [joined_of_came hx]
        exact (h'.fresh x hx).2
    inj x y hx hy := h.joined_inj h' hK hx hy
    children x hx := h.children_joined h' hK wo wn hfree hP hx
    top x hx hPx hxr hxo := by
      rcases hx with hx | hx
      · rw [joined_of_known hK hx, (h'.others _ (h.lt x hx)).2]
        exact h.top x hx (fun hp ↦ hPx (.inl hp)) hxr hxo
      · have hxn : x = n := by
          by_contra hne
          exact hPx (.inr ⟨hx, hne⟩)
        subst hxn
        rw [joined_of_came hx, h'.first, h'.detached]
    content x hx hxn := by
      rcases hx with hx | hx
      · rw [joined_of_known hK hx, (h'.data _ (h.lt x hx)).1]
        exact h.content x hx hxn
      · rw [joined_of_came hx, h'.content x hx]
    data y hy := by
      have h₁ := h'.data y (Nat.lt_of_lt_of_le hy h.size_le)
      have h₂ := h.data y hy
      exact ⟨h₁.1.trans h₂.1, h₁.2.trans h₂.2⟩
    inserted y hy hy' := by
      by_cases hyd : y < d.size
      · rw [delta?, (h'.data y hyd).2]
        exact h.inserted y hy hyd
      · exact h'.inserted y (Nat.le_of_not_lt hyd) hy' }

end Plant

end FlowMerge.Script
