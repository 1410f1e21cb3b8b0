import FlowMerge.Proofs.Tree.Mirror

namespace FlowMerge.Tree

variable {t u v src : Tree} {p c k x y : NodeId} {a : Overlay} {g g' : NodeId → NodeId} {n : Nat}

def addLast (t : Tree) (p : NodeId) (c : Content) (a : Overlay) : Tree :=
  (t.alloc c a).1.appendChild p t.size

theorem addLast_eq (t : Tree) (p : NodeId) (c : Content) (a : Overlay) :
    t.addLast p c a = (t.alloc c a).1.insertChild p (t.children p).length t.size := by
  rw [addLast, appendChild, children_alloc]

@[simp] theorem size_addLast (t : Tree) (p : NodeId) (c : Content) (a : Overlay) :
    (t.addLast p c a).size = t.size + 1 := by
  rw [addLast_eq, size_insertChild, size_alloc]

theorem size_lt_addLast (t : Tree) (p : NodeId) (c : Content) (a : Overlay) :
    t.size < (t.addLast p c a).size := by
  rw [size_addLast]
  exact Nat.lt_succ_self _

theorem lt_size_addLast (hx : x < t.size) (p : NodeId) (c : Content) (a : Overlay) :
    x < (t.addLast p c a).size := Nat.lt_trans hx (size_lt_addLast ..)

theorem children_addLast (hp : p < t.size) (c : Content) (a : Overlay) (x : NodeId) :
    (t.addLast p c a).children x =
      if x = p then t.children p ++ [t.size] else t.children x := by
  have hs := size_alloc t c a
  rw [addLast_eq, children_insertChild (by rw [hs]; exact Nat.lt_succ_of_lt hp)
    (by rw [hs]; exact Nat.lt_succ_self _), children_alloc, children_alloc,
    List.insertIdx_length_self]

theorem parent?_addLast (hp : p < t.size) (c : Content) (a : Overlay) (x : NodeId) :
    (t.addLast p c a).parent? x = if x = t.size then some p else t.parent? x := by
  have hs := size_alloc t c a
  rw [addLast_eq, parent?_insertChild (by rw [hs]; exact Nat.lt_succ_of_lt hp)
    (by rw [hs]; exact Nat.lt_succ_self _), parent?_alloc]

theorem content_addLast (t : Tree) (p : NodeId) (c : Content) (a : Overlay) (x : NodeId) :
    (t.addLast p c a).content x = if x = t.size then c else t.content x := by
  rw [addLast_eq, (sameData_insertChild _ _ _ _).content, content_alloc]

theorem overlay_addLast (t : Tree) (p : NodeId) (c : Content) (a : Overlay) (x : NodeId) :
    (t.addLast p c a).overlay x = if x = t.size then a else t.overlay x := by
  rw [addLast_eq, (sameData_insertChild _ _ _ _).overlay, overlay_alloc]

theorem modifyContent_addLast (t : Tree) (p : NodeId) (c : Content) (a : Overlay)
    (g : Content → Content) :
    (t.addLast p c a).modifyContent t.size g = t.addLast p (g c) a := by
  have halloc : (t.alloc c a).1.modifyContent t.size g = (t.alloc (g c) a).1 := by
    refine congrArg Tree.mk (Array.ext (by simp [alloc]) fun i h₁ h₂ ↦ ?_)
    have hi : i < t.nodes.size + 1 := by simpa [alloc] using h₂
    rw [Array.getElem_modify]
    rcases Nat.lt_succ_iff_lt_or_eq.1 hi with hi | rfl
    · simp [alloc, Array.getElem_push, hi, size, Nat.ne_of_gt hi]
    · simp [alloc, size]
  rw [addLast_eq, ← insertChild_modifyContent, halloc, ← addLast_eq]

theorem WellFormed.not_above_size (w : t.WellFormed) (hp : p < t.size) : ¬ t.Above t.size p :=
  fun h ↦ Nat.lt_irrefl _ (h.lt_size w hp)

theorem WellFormed.addLast (w : t.WellFormed) (hp : p < t.size) (c : Content) (a : Overlay) :
    (t.addLast p c a).WellFormed := by
  have hs := size_alloc t c a
  have htop : (t.alloc c a).1.parent? t.size = none := by
    rw [parent?_alloc, parent?_of_size_le (Nat.le_refl _)]
  rw [addLast_eq]
  refine (w.alloc c a).insertChild (by rw [hs]; exact Nat.lt_succ_of_lt hp)
    (by rw [hs]; exact Nat.lt_succ_self _) (Nat.ne_of_gt w.root_lt) htop ?_ ?_
  · have hshape : (t.alloc c a).1.IsParent = t.IsParent := by
      funext q d
      rw [IsParent, parent?_alloc, IsParent]
    rw [Above, hshape]
    exact w.not_above_size hp
  · exact Nat.le_of_eq (congrArg List.length (children_alloc ..).symm)

theorem wellFormed_rootedAt (c : Content) (a : Overlay) : (rootedAt c a).WellFormed := by
  have hn (x : NodeId) : (rootedAt c a).children x = [] ∧ (rootedAt c a).parent? x = none := by
    rcases Nat.eq_zero_or_pos x with rfl | hx
    · exact ⟨rfl, rfl⟩
    · have hs : (rootedAt c a).size ≤ x := hx
      exact ⟨children_of_size_le hs, parent?_of_size_le hs⟩
  refine ⟨Nat.one_pos, (hn _).2, fun p c i ↦ ?_, ⟨id, fun c p h ↦ ?_⟩⟩
  · rw [(hn p).1, (hn c).2]
    simp
  · rw [(hn c).2] at h
    cases h

theorem WellFormed.addChild (w : t.WellFormed) (hp : p < t.size) (c : Content) :
    (t.addChild p c).1.WellFormed := w.addLast hp c _

def ofList (c : Content) (below : List (NodeId × Content)) : Tree :=
  below.foldl (fun t e ↦ (t.addChild e.1 e.2).1) (leaf c)

theorem wellFormed_ofList (c : Content) (below : List (NodeId × Content))
    (h : ∀ e ∈ below.zipIdx, e.1.1 ≤ e.2) : (ofList c below).WellFormed := by
  suffices hs : ∀ (t : Tree) (i : Nat), t.WellFormed → t.size = i + 1 →
      (∀ e ∈ below.zipIdx i, e.1.1 ≤ e.2) →
        (below.foldl (fun t e ↦ (t.addChild e.1 e.2).1) t).WellFormed from
    hs (leaf c) 0 (wellFormed_rootedAt c .plain) rfl h
  clear h
  induction below with
  | nil => exact fun _ _ w _ _ ↦ w
  | cons e below ih =>
    intro t i w hi h
    have he : e.1 < t.size := by
      rw [hi]
      exact Nat.lt_succ_of_le (h (e, i) List.mem_cons_self)
    refine ih _ (i + 1) (w.addChild he e.2) ?_ fun e' he' ↦ h e' (List.mem_cons_of_mem _ he')
    exact (size_addLast ..).trans (congrArg Nat.succ hi)

def addAll (t : Tree) (p : NodeId) (a : Overlay) (cs : List Content) : Tree :=
  cs.foldl (fun t c ↦ t.addLast p c a) t

theorem addAll_cons (t : Tree) (p : NodeId) (a : Overlay) (c : Content) (cs : List Content) :
    t.addAll p a (c :: cs) = (t.addLast p c a).addAll p a cs := rfl

@[simp] theorem size_addAll (t : Tree) (p : NodeId) (a : Overlay) (cs : List Content) :
    (t.addAll p a cs).size = t.size + cs.length := by
  induction cs generalizing t with
  | nil => rfl
  | cons c cs ih => rw [addAll_cons, ih, size_addLast, List.length_cons]; omega

theorem WellFormed.addAll (w : t.WellFormed) (hp : p < t.size) (a : Overlay)
    (cs : List Content) : (t.addAll p a cs).WellFormed := by
  induction cs generalizing t with
  | nil => exact w
  | cons c cs ih =>
    exact ih (w.addLast hp c a) (lt_size_addLast hp ..)

theorem children_addAll (hp : p < t.size) (a : Overlay) (cs : List Content) (x : NodeId) :
    (t.addAll p a cs).children x =
      if x = p then t.children p ++ List.range' t.size cs.length else t.children x := by
  induction cs generalizing t with
  | nil =>
    rw [List.length_nil, List.range'_zero, List.append_nil]
    split
    · next h => rw [h]; rfl
    · rfl
  | cons c cs ih =>
    rw [addAll_cons, ih (lt_size_addLast hp ..), children_addLast hp,
      children_addLast hp, if_pos rfl, size_addLast, List.length_cons, List.range'_succ,
      List.append_assoc]
    split <;> rfl

theorem parent?_addAll (hp : p < t.size) (a : Overlay) (cs : List Content) (hx : x < t.size) :
    (t.addAll p a cs).parent? x = t.parent? x := by
  induction cs generalizing t with
  | nil => rfl
  | cons c cs ih =>
    rw [addAll_cons, ih (lt_size_addLast hp ..) (lt_size_addLast hx ..), parent?_addLast hp,
      if_neg (Nat.ne_of_lt hx)]

theorem data_addAll (t : Tree) (p : NodeId) (a : Overlay) (cs : List Content) (hx : x < t.size) :
    (t.addAll p a cs).content x = t.content x ∧ (t.addAll p a cs).overlay x = t.overlay x := by
  induction cs generalizing t with
  | nil => exact ⟨rfl, rfl⟩
  | cons c cs ih =>
    have h := ih (t.addLast p c a) (lt_size_addLast hx ..)
    rwa [content_addLast, overlay_addLast, if_neg (Nat.ne_of_lt hx),
      if_neg (Nat.ne_of_lt hx)] at h

theorem data_addAll_new (t : Tree) (p : NodeId) (a : Overlay) {cs : List Content} {i : Nat}
    {c : Content} (h : cs[i]? = some c) :
    (t.addAll p a cs).content (t.size + i) = c ∧ (t.addAll p a cs).overlay (t.size + i) = a := by
  induction cs generalizing t i with
  | nil => cases h
  | cons d cs ih =>
    rw [addAll_cons]
    cases i with
    | zero =>
      obtain rfl : d = c := Option.some_inj.1 h
      have hd := data_addAll (t.addLast p d a) p a cs (x := t.size)
        (size_lt_addLast ..)
      rwa [content_addLast, overlay_addLast, if_pos rfl, if_pos rfl] at hd
    | succ i =>
      have hd := ih (t.addLast p d a) h
      rwa [size_addLast, Nat.add_assoc, Nat.add_comm 1] at hd

theorem map_content_addAll (t : Tree) (p : NodeId) (a : Overlay) (cs : List Content) :
    (List.range' t.size cs.length).map (t.addAll p a cs).content = cs := by
  refine List.ext_getElem (by simp) fun i _ h ↦ ?_
  rw [List.getElem_map, List.getElem_range', Nat.one_mul,
    (data_addAll_new t p a (List.getElem?_eq_getElem h)).1]

theorem data_addAll_cases (t : Tree) (p : NodeId) (a : Overlay) (cs : List Content) (x : NodeId) :
    ((t.addAll p a cs).content x = t.content x ∧ (t.addAll p a cs).overlay x = t.overlay x) ∨
      (t.addAll p a cs).content x ∈ cs ∧ (t.addAll p a cs).overlay x = a := by
  induction cs generalizing t with
  | nil => exact .inl ⟨rfl, rfl⟩
  | cons c cs ih =>
    rw [addAll_cons]
    rcases ih (t.addLast p c a) with ⟨hc, ha⟩ | ⟨hc, ha⟩
    · rw [hc, ha, content_addLast, overlay_addLast]
      split
      · exact .inr ⟨List.mem_cons_self, rfl⟩
      · exact .inl ⟨rfl, rfl⟩
    · exact .inr ⟨List.mem_cons_of_mem c hc, ha⟩

theorem importChildren_eq (src : Tree) (id : NodeId) (a : Overlay) (t : Tree) (p : NodeId) :
    importChildren src id a t p =
      (t.addAll p a ((src.children id).map src.content),
        ((src.children id).zip (List.range' t.size (src.children id).length)).reverse) := by
  suffices hs : ∀ (cs : List NodeId) (t : Tree) (acc : List (NodeId × NodeId)),
      cs.foldl (fun (s : Tree × List (NodeId × NodeId)) c ↦
        ((s.1.alloc (src.content c) a).1.appendChild p s.1.size, (c, s.1.size) :: s.2)) (t, acc) =
      (t.addAll p a (cs.map src.content),
        (cs.zip (List.range' t.size cs.length)).reverse ++ acc) by
    rw [← List.append_nil (List.reverse _)]
    exact hs (src.children id) t []
  intro cs
  induction cs with
  | nil => exact fun t acc ↦ rfl
  | cons c cs ih =>
    intro t acc
    rw [List.foldl_cons, ih, List.map_cons, addAll_cons, List.length_cons, List.range'_succ,
      List.zip_cons_cons, List.reverse_cons, List.append_assoc, ← addLast, size_addLast]
    rfl

def Inside (t : Tree) (ids : List NodeId) (x : NodeId) : Prop := ∃ i ∈ ids, t.Above i x

theorem inside_singleton : t.Inside [c] x ↔ t.Above c x := by simp [Inside]

theorem inside_cons {ids : List NodeId} :
    t.Inside (c :: ids) x ↔ t.Above c x ∨ t.Inside ids x := by simp [Inside]

theorem WellFormed.inside_children (w : t.WellFormed) {ids : List NodeId}
    (hids : ∀ d, d ∈ ids ↔ d ∈ t.children c) (hx : x ≠ c) : t.Inside ids x ↔ t.Above c x := by
  constructor
  · rintro ⟨d, hd, hdx⟩
    exact hdx.head (w.mem_children.1 ((hids d).1 hd))
  · intro h
    rcases Relation.ReflTransGen.cases_head h with he | ⟨d, hd, hdx⟩
    · exact absurd he.symm hx
    · exact ⟨d, (hids d).2 (w.mem_children.2 hd), hdx⟩

/-- The tree `u` is `t` with copies of all that is below some nodes of `src`. Nodes lead to their
copies along `g`. The copies of the nodes themselves were there before. -/
structure Grafted (src : Tree) (ids : List NodeId) (a : Overlay) (t u : Tree)
    (g : NodeId → NodeId) : Prop where
  wellFormed : u.WellFormed
  size_le : t.size ≤ u.size
  children : ∀ x, src.Inside ids x → u.children (g x) = (src.children x).map g
  content : ∀ x, src.Inside ids x → x ∉ ids → u.content (g x) = src.content x
  overlay : ∀ x, src.Inside ids x → x ∉ ids → u.overlay (g x) = a
  fresh : ∀ x, src.Inside ids x → x ∉ ids → t.size ≤ g x ∧ g x < u.size
  onto : ∀ y, t.size ≤ y → y < u.size → ∃ x, src.Inside ids x ∧ x ∉ ids ∧ g x = y
  others : ∀ y < t.size, (∀ i ∈ ids, y ≠ g i) → u.children y = t.children y
  parent? : ∀ y < t.size, u.parent? y = t.parent? y
  data : ∀ y < t.size, u.content y = t.content y ∧ u.overlay y = t.overlay y

structure NewCopy (src : Tree) (a : Overlay) (t u : Tree) (x y : NodeId) : Prop where
  fresh : t.size ≤ y ∧ y < u.size
  content : u.content y = src.content x
  overlay : u.overlay y = a

theorem NewCopy.earlier (h : NewCopy src a u v x y) (hle : t.size ≤ u.size) :
    NewCopy src a t v x y := { h with fresh := ⟨Nat.le_trans hle h.fresh.1, h.fresh.2⟩ }

namespace Grafted

theorem nil (w : t.WellFormed) (src : Tree) (a : Overlay) (g : NodeId → NodeId) :
    Grafted src [] a t t g := by
  have hn {x : NodeId} (h : src.Inside [] x) : False := by
    obtain ⟨i, hi, -⟩ := h
    cases hi
  exact {
    wellFormed := w
    size_le := Nat.le_refl _
    children _ h := (hn h).elim
    content _ h := (hn h).elim
    overlay _ h := (hn h).elim
    fresh _ h := (hn h).elim
    onto _ h h' := absurd h (Nat.not_le_of_lt h')
    others _ _ _ := rfl
    parent? _ _ := rfl
    data _ _ := ⟨rfl, rfl⟩ }

theorem lt_size {ids : List NodeId} (h : Grafted src ids a t u g) (hi : ∀ i ∈ ids, g i < t.size)
    (hx : src.Inside ids x) : g x < u.size := by
  by_cases hm : x ∈ ids
  · exact Nat.lt_of_lt_of_le (hi x hm) h.size_le
  · exact (h.fresh x hx hm).2

theorem copy {ids : List NodeId} (h : Grafted src ids a t u g) (hx : src.Inside ids x)
    (hn : x ∉ ids) : NewCopy src a t u x (g x) :=
  ⟨h.fresh x hx hn, h.content x hx hn, h.overlay x hx hn⟩

theorem ne_of_old (h : Grafted src [c] a t u g) (hx : src.Above c x) (hy : y < t.size)
    (hne : y ≠ g c) : g x ≠ y := by
  rintro rfl
  by_cases hxc : x = c
  · exact hne (congrArg g hxc)
  · have hf := h.fresh x (inside_singleton.2 hx) (by simpa using hxc)
    exact Nat.not_lt_of_le hf.1 hy

open Classical in
noncomputable def spliced (src : Tree) (c : NodeId) (g g' : NodeId → NodeId) (x : NodeId) :
    NodeId :=
  if src.Above c x then g x else g' x

theorem spliced_of_above (hx : src.Above c x) : spliced src c g g' x = g x := if_pos hx

section Splice

variable {ids : List NodeId} (h : Grafted src [c] a t u g) (h' : Grafted src ids a u v g')
  (hapart : ∀ x, src.Above c x → ¬ src.Inside ids x)

include hapart

theorem spliced_of_inside (hx : src.Inside ids x) : spliced src c g g' x = g' x :=
  if_neg fun hcx ↦ hapart x hcx hx

include h h'

theorem copy_spliced (hx : src.Inside (c :: ids) x) (hn : x ∉ c :: ids) :
    NewCopy src a t v x (spliced src c g g' x) := by
  obtain ⟨hxc, hxi⟩ := not_or.1 (mt List.mem_cons.2 hn)
  rcases inside_cons.1 hx with hx | hx
  · have hcopy := h.copy (inside_singleton.2 hx) (mt List.mem_singleton.1 hxc)
    obtain ⟨hcontent, hoverlay⟩ := h'.data _ hcopy.fresh.2
    rw [spliced_of_above hx]
    exact {
      fresh := ⟨hcopy.fresh.1, Nat.lt_of_lt_of_le hcopy.fresh.2 h'.size_le⟩
      content := hcontent.trans hcopy.content
      overlay := hoverlay.trans hcopy.overlay }
  · rw [spliced_of_inside hapart hx]
    exact (h'.copy hx hxi).earlier h.size_le

theorem children_spliced (ws : src.WellFormed) (hc : g c < t.size)
    (hids : ∀ i ∈ ids, g' i < t.size) (hne : ∀ i ∈ ids, g' i ≠ g c)
    (hx : src.Inside (c :: ids) x) :
    v.children (spliced src c g g' x) = (src.children x).map (spliced src c g g') := by
  rcases inside_cons.1 hx with hx | hx
  · have hlt : g x < u.size := h.lt_size (by simpa using hc) (inside_singleton.2 hx)
    rw [spliced_of_above hx,
      h'.others _ hlt fun i hi ↦ h.ne_of_old hx (hids i hi) (hne i hi),
      h.children x (inside_singleton.2 hx)]
    exact List.map_congr_left fun d hd ↦
      (spliced_of_above (hx.tail (ws.mem_children.1 hd))).symm
  · rw [spliced_of_inside hapart hx, h'.children x hx]
    obtain ⟨i, hi, hix⟩ := hx
    exact List.map_congr_left fun d hd ↦
      (spliced_of_inside hapart ⟨i, hi, hix.tail (ws.mem_children.1 hd)⟩).symm

theorem onto_spliced (hy : t.size ≤ y) (hy' : y < v.size) :
    ∃ x, src.Inside (c :: ids) x ∧ x ∉ c :: ids ∧ spliced src c g g' x = y := by
  by_cases hyu : y < u.size
  · obtain ⟨x, hx, hxc, rfl⟩ := h.onto y hy hyu
    rw [inside_singleton] at hx
    refine ⟨x, inside_cons.2 (.inl hx), fun hm ↦ ?_, spliced_of_above hx⟩
    rcases List.mem_cons.1 hm with rfl | hm
    · exact hxc List.mem_cons_self
    · exact hapart x hx ⟨x, hm, .refl⟩
  · obtain ⟨x, hx, hxi, rfl⟩ := h'.onto y (Nat.le_of_not_lt hyu) hy'
    refine ⟨x, inside_cons.2 (.inr hx), fun hm ↦ ?_, spliced_of_inside hapart hx⟩
    rcases List.mem_cons.1 hm with rfl | hm
    · exact hapart x .refl hx
    · exact hxi hm

theorem cons (ws : src.WellFormed) (hc : g c < t.size) (hids : ∀ i ∈ ids, g' i < t.size)
    (hne : ∀ i ∈ ids, g' i ≠ g c) :
    ∃ f, f c = g c ∧ (∀ i ∈ ids, f i = g' i) ∧ Grafted src (c :: ids) a t v f := by
  have hfc : spliced src c g g' c = g c := spliced_of_above .refl
  have hfi (i : NodeId) (hi : i ∈ ids) : spliced src c g g' i = g' i :=
    spliced_of_inside hapart ⟨i, hi, .refl⟩
  refine ⟨spliced src c g g', hfc, hfi, ?_⟩
  exact {
    wellFormed := h'.wellFormed
    size_le := Nat.le_trans h.size_le h'.size_le
    children _ hx := children_spliced h h' hapart ws hc hids hne hx
    content _ hx hn := (copy_spliced h h' hapart hx hn).content
    overlay _ hx hn := (copy_spliced h h' hapart hx hn).overlay
    fresh _ hx hn := (copy_spliced h h' hapart hx hn).fresh
    onto _ hy hy' := onto_spliced h h' hapart hy hy'
    others y hy hn := by
      have hyu := Nat.lt_of_lt_of_le hy h.size_le
      rw [h'.others y hyu fun i hi ↦ hfi i hi ▸ hn i (List.mem_cons_of_mem _ hi)]
      refine h.others y hy fun i hi ↦ ?_
      obtain rfl := List.mem_singleton.1 hi
      exact hfc ▸ hn i List.mem_cons_self
    parent? y hy := by
      rw [h'.parent? y (Nat.lt_of_lt_of_le hy h.size_le), h.parent? y hy]
    data y hy := by
      have h₁ := h'.data y (Nat.lt_of_lt_of_le hy h.size_le)
      have h₂ := h.data y hy
      exact ⟨h₁.1.trans h₂.1, h₁.2.trans h₂.2⟩ }

end Splice

theorem foldl {f : Tree → NodeId × NodeId → Tree} (ws : src.WellFormed)
    (copies : List (NodeId × NodeId))
    (hstep : ∀ e ∈ copies, ∀ t : Tree, t.WellFormed → e.2 < t.size → t.children e.2 = [] →
      ∃ g, g e.1 = e.2 ∧ Grafted src [e.1] a t (f t e) g)
    (hapart : copies.Pairwise fun e e' ↦ ∀ x, src.Above e.1 x → ¬ src.Above e'.1 x)
    (hk : (copies.map Prod.snd).Nodup) (t : Tree) (w : t.WellFormed)
    (hlt : ∀ e ∈ copies, e.2 < t.size ∧ t.children e.2 = []) :
    ∃ g, (∀ e ∈ copies, g e.1 = e.2) ∧
      Grafted src (copies.map Prod.fst) a t (copies.foldl f t) g := by
  induction copies generalizing t with
  | nil => exact ⟨id, fun e he ↦ absurd he List.not_mem_nil, nil w src a id⟩
  | cons e copies ih =>
    rw [List.map_cons, List.nodup_cons] at hk
    rw [List.pairwise_cons] at hapart
    obtain ⟨het, hec⟩ := hlt e List.mem_cons_self
    obtain ⟨g, hg, h⟩ := hstep e List.mem_cons_self t w het hec
    have hother {e' : NodeId × NodeId} (he' : e' ∈ copies) : e'.2 ≠ e.2 := by
      intro heq
      exact hk.1 (List.mem_map.2 ⟨e', he', heq⟩)
    have hold {e' : NodeId × NodeId} (he' : e' ∈ copies) : e'.2 < t.size :=
      (hlt e' (List.mem_cons_of_mem _ he')).1
    obtain ⟨g', hg', h'⟩ := ih (fun e' he' ↦ hstep e' (List.mem_cons_of_mem _ he')) hapart.2 hk.2
      (f t e) h.wellFormed fun e' he' ↦ ⟨Nat.lt_of_lt_of_le (hold he') h.size_le, by
        rw [h.others _ (hold he') (by simpa [hg] using hother he')]
        exact (hlt e' (List.mem_cons_of_mem _ he')).2⟩
    -- the subtrees of the originals are apart, so that the ways to their copies can be joined
    have hfar (x : NodeId) (hx : src.Above e.1 x) : ¬ src.Inside (copies.map Prod.fst) x := by
      rintro ⟨i, hi, hix⟩
      obtain ⟨e', he', rfl⟩ := List.mem_map.1 hi
      exact hapart.1 e' he' x hx hix
    have hids : ∀ i ∈ copies.map Prod.fst, g' i < t.size ∧ g' i ≠ g e.1 := by
      intro i hi
      obtain ⟨e', he', rfl⟩ := List.mem_map.1 hi
      rw [hg' e' he', hg]
      exact ⟨hold he', hother he'⟩
    obtain ⟨k, hkc, hki, hk⟩ := h.cons h' hfar ws (by rwa [hg]) (fun i hi ↦ (hids i hi).1)
      fun i hi ↦ (hids i hi).2
    refine ⟨k, fun e' he' ↦ ?_, hk⟩
    rcases List.mem_cons.1 he' with rfl | he'
    · rw [hkc, hg]
    · rw [hki _ (List.mem_map_of_mem he'), hg' e' he']

section Children

variable {ids : List NodeId}
  (h : Grafted src ids a (t.addAll p a ((src.children c).map src.content)) u g)
include h

theorem copy_child {i : Nat} (hi : (src.children c)[i]? = some x) (hg : g x = t.size + i) :
    NewCopy src a t u x (g x) := by
  have hlt : t.size + i < (t.addAll p a ((src.children c).map src.content)).size := by
    rw [size_addAll, List.length_map]
    exact Nat.add_lt_add_left (List.getElem?_eq_some_iff.1 hi).1 _
  have hcontent : ((src.children c).map src.content)[i]? = some (src.content x) := by
    rw [List.getElem?_map, hi]
    rfl
  have hnew := data_addAll_new t p a hcontent
  have hold := h.data _ hlt
  rw [hg]
  exact {
    fresh := ⟨Nat.le_add_right .., Nat.lt_of_lt_of_le hlt h.size_le⟩
    content := hold.1.trans hnew.1
    overlay := hold.2.trans hnew.2 }

theorem children_top (hp : p < t.size) (hempty : t.children p = []) (hkeep : ∀ i ∈ ids, p ≠ g i)
    (hg : ∀ i d, (src.children c)[i]? = some d → g d = t.size + i) :
    u.children p = (src.children c).map g := by
  have hpt : p < (t.addAll p a ((src.children c).map src.content)).size := by
    rw [size_addAll]
    exact Nat.lt_add_right _ hp
  rw [h.others p hpt hkeep, children_addAll hp, if_pos rfl, hempty, List.nil_append,
    List.length_map]
  refine List.ext_getElem? fun i ↦ ?_
  rw [List.getElem?_map]
  by_cases hi : i < (src.children c).length
  · have hd := List.getElem?_eq_getElem hi
    rw [List.getElem?_range' hi, hd, Option.map_some, hg i _ hd, Nat.one_mul]
  · rw [List.getElem?_eq_none (Nat.le_of_not_lt hi),
      List.getElem?_eq_none (by rw [List.length_range']; exact Nat.le_of_not_lt hi)]
    rfl

end Children

theorem mem_fst_of_copies {l : List NodeId} {copies : List (NodeId × NodeId)}
    (h : ∀ e, e ∈ copies ↔ ∃ i, l[i]? = some e.1 ∧ e.2 = k + i) :
    x ∈ copies.map Prod.fst ↔ x ∈ l := by
  rw [List.mem_map, List.mem_iff_getElem?]
  constructor
  · rintro ⟨e, he, rfl⟩
    obtain ⟨i, hi, -⟩ := (h e).1 he
    exact ⟨i, hi⟩
  · rintro ⟨i, hi⟩
    exact ⟨(x, k + i), (h _).2 ⟨i, hi, rfl⟩, rfl⟩

section Filled

variable {copies : List (NodeId × NodeId)}
  (hcopies : ∀ e, e ∈ copies ↔ ∃ i, (src.children c)[i]? = some e.1 ∧ e.2 = t.size + i)
  (hg : ∀ e ∈ copies, g e.1 = e.2)
  (h : Grafted src (copies.map Prod.fst) a (t.addAll p a ((src.children c).map src.content)) u g)
include hcopies hg

theorem place_child {i : Nat} (hi : (src.children c)[i]? = some x) : g x = t.size + i :=
  hg (x, t.size + i) ((hcopies _).2 ⟨i, hi, rfl⟩)

include h

theorem copy_of_mem (hx : x ∈ copies.map Prod.fst) : NewCopy src a t u x (g x) := by
  obtain ⟨i, hi⟩ := List.mem_iff_getElem?.1 ((mem_fst_of_copies hcopies).1 hx)
  exact h.copy_child hi (place_child hcopies hg hi)

theorem copy_below (ws : src.WellFormed) (hx : src.Above c x) (hxc : x ≠ c) :
    NewCopy src a t u x (g x) := by
  by_cases hxi : x ∈ copies.map Prod.fst
  · exact copy_of_mem hcopies hg h hxi
  · have hx' := (ws.inside_children (fun _ ↦ mem_fst_of_copies hcopies) hxc).2 hx
    refine (h.copy hx' hxi).earlier ?_
    rw [size_addAll]
    exact Nat.le_add_right ..

theorem onto_below (ws : src.WellFormed) (hy : t.size ≤ y) (hy' : y < u.size) :
    ∃ x, src.Above c x ∧ x ≠ c ∧ g x = y := by
  by_cases hyt : y < (t.addAll p a ((src.children c).map src.content)).size
  · rw [size_addAll, List.length_map] at hyt
    obtain ⟨i, rfl⟩ := Nat.exists_eq_add_of_le hy
    have hi : i < (src.children c).length := Nat.lt_of_add_lt_add_left hyt
    have hx := List.getElem?_eq_getElem hi
    have hd := ws.mem_children.1 (List.mem_of_getElem? hx)
    exact ⟨_, .single hd, fun he ↦ ws.not_above_of_parent (he ▸ hd) .refl,
      place_child hcopies hg hx⟩
  · obtain ⟨x, ⟨d, hd, hdx⟩, -, rfl⟩ := h.onto y (Nat.le_of_not_lt hyt) hy'
    have hdc := ws.mem_children.1 ((mem_fst_of_copies hcopies).1 hd)
    refine ⟨x, hdx.head hdc, ?_, rfl⟩
    rintro rfl
    exact ws.not_above_of_parent hdc hdx

theorem of_children (ws : src.WellFormed) (hp : p < t.size) (hempty : t.children p = []) :
    ∃ f, f c = p ∧ Grafted src [c] a t u f := by
  have hle : t.size ≤ (t.addAll p a ((src.children c).map src.content)).size := by
    rw [size_addAll]
    exact Nat.le_add_right ..
  -- the copies of the children are new, so that no node of `t` is one of them
  have hlast (y : NodeId) (hy : y < t.size) : ∀ i ∈ copies.map Prod.fst, y ≠ g i := by
    intro i hi he
    exact absurd (he ▸ (copy_of_mem hcopies hg h hi).fresh.1) (Nat.not_le_of_lt hy)
  have hf {x : NodeId} (hx : x ≠ c) : Function.update g c p x = g x :=
    Function.update_of_ne hx ..
  have hcopy (x : NodeId) (hx : src.Inside [c] x) (hn : x ∉ [c]) :
      NewCopy src a t u x (Function.update g c p x) := by
    have hxc : x ≠ c := by simpa using hn
    rw [hf hxc]
    exact copy_below hcopies hg h ws (inside_singleton.1 hx) hxc
  refine ⟨Function.update g c p, Function.update_self .., ?_⟩
  exact {
    wellFormed := h.wellFormed
    size_le := Nat.le_trans hle h.size_le
    children x hx := by
      rw [inside_singleton] at hx
      have hmap : (src.children x).map (Function.update g c p) = (src.children x).map g := by
        refine List.map_congr_left fun d hd ↦ hf ?_
        rintro rfl
        exact ws.not_above_of_parent (ws.mem_children.1 hd) hx
      rw [hmap]
      by_cases hxc : x = c
      · subst hxc
        rw [Function.update_self]
        exact h.children_top hp hempty (hlast p hp) fun _ _ ↦ place_child hcopies hg
      · rw [hf hxc]
        exact h.children x ((ws.inside_children (fun _ ↦ mem_fst_of_copies hcopies) hxc).2 hx)
    content x hx hn := (hcopy x hx hn).content
    overlay x hx hn := (hcopy x hx hn).overlay
    fresh x hx hn := (hcopy x hx hn).fresh
    onto y hy hy' := by
      obtain ⟨x, hx, hxc, hxy⟩ := onto_below hcopies hg h ws hy hy'
      exact ⟨x, inside_singleton.2 hx, by simpa using hxc, (hf hxc).trans hxy⟩
    others y hy hn := by
      have hyp : y ≠ p := by simpa using hn
      rw [h.others y (Nat.lt_of_lt_of_le hy hle) (hlast y hy), children_addAll hp, if_neg hyp]
    parent? y hy := by
      rw [h.parent? y (Nat.lt_of_lt_of_le hy hle), parent?_addAll hp a _ hy]
    data y hy := by
      have h₁ := h.data y (Nat.lt_of_lt_of_le hy hle)
      have h₂ := data_addAll t p a ((src.children c).map src.content) hy
      exact ⟨h₁.1.trans h₂.1, h₁.2.trans h₂.2⟩ }

end Filled

end Grafted

theorem mem_copies {l : List NodeId} {k : NodeId} {e : NodeId × NodeId} :
    e ∈ (l.zip (List.range' k l.length)).reverse ↔ ∃ i, l[i]? = some e.1 ∧ e.2 = k + i := by
  rw [List.mem_reverse, List.mem_iff_getElem?]
  refine exists_congr fun i ↦ ?_
  rw [List.getElem?_zip_eq_some]
  refine and_congr_right fun hi ↦ ?_
  rw [List.getElem?_range' (List.getElem?_eq_some_iff.1 hi).1, Option.some_inj, Nat.one_mul,
    eq_comm]

theorem nodup_copies {l : List NodeId} (hl : l.Nodup) (k : NodeId) :
    ((l.zip (List.range' k l.length)).reverse.map Prod.fst).Nodup ∧
      ((l.zip (List.range' k l.length)).reverse.map Prod.snd).Nodup := by
  rw [List.map_reverse, List.map_reverse, List.map_fst_zip (Nat.le_of_eq List.length_range'.symm),
    List.map_snd_zip (Nat.le_of_eq List.length_range'), List.nodup_reverse, List.nodup_reverse]
  exact ⟨hl, List.nodup_range'⟩

theorem grafted_importBelow (ws : src.WellFormed) (a : Overlay) (n : Nat) (t : Tree)
    (w : t.WellFormed) (hc : c < src.size) (hp : p < t.size) (hempty : t.children p = [])
    (hn : src.size ≤ n + src.depth c) :
    ∃ g, g c = p ∧ Grafted src [c] a t (importBelow src a n t c p) g := by
  induction n generalizing t c p with
  | zero =>
    have := ws.depth_lt hc
    omega
  | succ n ih =>
    rw [importBelow, importChildren_eq]
    have hcopies (e : NodeId × NodeId) := mem_copies (l := src.children c) (k := t.size) (e := e)
    obtain ⟨hfst, hsnd⟩ := nodup_copies (ws.nodup_children c) t.size
    generalize ((src.children c).zip
      (List.range' t.size (src.children c).length)).reverse = copies at hcopies hfst hsnd ⊢
    have hparent {e : NodeId × NodeId} (he : e ∈ copies) : src.parent? e.1 = some c := by
      obtain ⟨i, hi, -⟩ := (hcopies e).1 he
      exact ws.mem_children.1 (List.mem_of_getElem? hi)
    obtain ⟨g, hg, h⟩ := Grafted.foldl (f := fun t e ↦ importBelow src a n t e.1 e.2) ws copies
      (fun e he t w het hee ↦ ih t w (lt_size_of_parent? (hparent he)) het hee (by
        have := ws.depth_of_parent (hparent he)
        omega))
      ((List.pairwise_map.1 hfst).imp_of_mem fun {e e'} he he' hne x hx ↦
        ws.siblings_apart (hparent he) (hparent he') hne hx) hsnd
      (t.addAll p a ((src.children c).map src.content)) (w.addAll hp a _) (by
        intro e he
        obtain ⟨i, hi, hk⟩ := (hcopies e).1 he
        have hlt := (List.getElem?_eq_some_iff.1 hi).1
        have hep : e.2 ≠ p := by
          rintro rfl
          rw [hk] at hp
          exact Nat.not_lt_of_le (Nat.le_add_right ..) hp
        rw [hk] at hep ⊢
        rw [size_addAll, List.length_map, children_addAll hp, if_neg hep,
          children_of_size_le (Nat.le_add_right ..)]
        exact ⟨Nat.add_lt_add_left hlt _, rfl⟩)
    exact Grafted.of_children hcopies hg h ws hp hempty

/-- The store `u` is `t` with a detached copy of a subtree of `src`. Its top is the first new node,
and `g` leads from the originals to their copies. -/
structure Copied (src : Tree) (c : NodeId) (a : Overlay) (t u : Tree) (g : NodeId → NodeId) :
    Prop where
  wellFormed : u.WellFormed
  top : g c = t.size
  detached : u.parent? t.size = none
  children : ∀ x, src.Above c x → u.children (g x) = (src.children x).map g
  content : ∀ x, src.Above c x → u.content (g x) = src.content x
  overlay : ∀ x, src.Above c x → u.overlay (g x) = a
  fresh : ∀ x, src.Above c x → t.size ≤ g x ∧ g x < u.size
  onto : ∀ y, t.size ≤ y → y < u.size → ∃ x, src.Above c x ∧ g x = y
  others : ∀ y < t.size, u.children y = t.children y ∧ u.parent? y = t.parent? y
  data : ∀ y < t.size, u.content y = t.content y ∧ u.overlay y = t.overlay y

namespace Copied

theorem map_parent (h : Copied src c a t u g) (ws : src.WellFormed) (hp : src.Above c p)
    (hx : src.parent? x = some p) : u.parent? (g x) = some (g p) := by
  rw [← h.wellFormed.mem_children, h.children p hp]
  exact List.mem_map_of_mem (ws.mem_children.2 hx)

theorem inj (h : Copied src c a t u g) (ws : src.WellFormed) (hx : src.Above c x)
    (hy : src.Above c y) (he : g x = g y) : x = y := by
  have hchild {q z : NodeId} (hq : src.Above c q) (hz : src.parent? z = some q) :
      g z ≠ t.size := by
    intro hs
    have hpar := h.map_parent ws hq hz
    rw [hs, h.detached] at hpar
    cases hpar
  induction hx generalizing y with
  | refl =>
    cases hy with
    | refl => rfl
    | tail hq hz => exact absurd (he.symm.trans h.top) (hchild hq hz)
  | @tail p x hp hx ih =>
    cases hy with
    | refl => exact absurd (he.trans h.top) (hchild hp hx)
    | @tail q y hq hy =>
      have h₁ := h.map_parent ws hp hx
      rw [he, h.map_parent ws hq hy] at h₁
      obtain rfl := ih hq (Option.some_inj.1 h₁).symm
      have hn := h.wellFormed.nodup_children (g p)
      rw [h.children p hp] at hn
      exact List.inj_on_of_nodup_map hn (ws.mem_children.2 hx) (ws.mem_children.2 hy) he

theorem above_iff (h : Copied src c a t u g) (ws : src.WellFormed) (w : t.WellFormed) :
    u.Above t.size y ↔ t.size ≤ y ∧ y < u.size := by
  constructor
  · intro hy
    induction hy with
    | refl =>
      have hf := h.fresh c .refl
      rwa [h.top] at hf
    | @tail p y _ hp ih =>
      refine ⟨Nat.le_of_not_lt fun hlt ↦ ?_, lt_size_of_parent? hp⟩
      rw [IsParent, (h.others y hlt).2] at hp
      exact Nat.not_lt_of_le ih.1 (w.parent_lt hp)
  · rintro ⟨hy, hy'⟩
    obtain ⟨x, hx, rfl⟩ := h.onto y hy hy'
    rw [← h.top]
    induction hx with
    | refl => exact .refl
    | @tail p x hp hx ih =>
      have hf := h.fresh p hp
      exact (ih hf.1 hf.2).tail (h.map_parent ws hp hx)

theorem size_lt (h : Copied src c a t u g) : t.size < u.size := by
  have hf := h.fresh c .refl
  rw [h.top] at hf
  exact hf.2

variable (h : Copied src c a t u g) (ws : src.WellFormed) (w : t.WellFormed) (m : Mark)
include h ws w

theorem mem_preorder_size : y ∈ u.preorder t.size ↔ t.size ≤ y ∧ y < u.size := by
  rw [h.wellFormed.mem_preorder h.size_lt, h.above_iff ws w]

theorem data_markSubtree (hy : y < t.size) : (u.markSubtree t.size m).content y = t.content y ∧
    (u.markSubtree t.size m).overlay y = t.overlay y := by
  rw [content_markSubtree, overlay_markSubtree,
    if_neg fun hm ↦ Nat.not_lt_of_le ((h.mem_preorder_size ws w).1 hm).1 hy]
  exact h.data y hy

theorem delta?_markSubtree_size (ha : a.delta? = some {}) (hy : t.size ≤ y) (hy' : y < u.size) :
    (u.markSubtree t.size m).delta? y = some { mark := m } := by
  obtain ⟨x, hx, rfl⟩ := h.onto y hy hy'
  rw [delta?_markSubtree, if_pos ((h.mem_preorder_size ws w).2 ⟨hy, hy'⟩), delta?, h.overlay x hx,
    ha]
  rfl

end Copied

theorem importSubtree_eq (ht : root < t.size) (src : Tree) (c : NodeId) : t.importSubtree src c =
    (importBelow src (t.overlay root).blank src.size
      (t.alloc (src.content c) (t.overlay root).blank).1 c t.size, t.size) := by
  have ho := overlay_alloc t (src.content c) (t.overlay root).blank root
  rw [if_neg (Nat.ne_of_lt ht)] at ho
  show (importBelow src ((t.alloc (src.content c) (t.overlay root).blank).1.overlay root).blank
    src.size (t.alloc (src.content c) (t.overlay root).blank).1 c t.size, t.size) = _
  rw [ho]

theorem copied_importSubtree (ws : src.WellFormed) (w : t.WellFormed) (hc : c < src.size) :
    ∃ g, Copied src c (t.overlay root).blank t (t.importSubtree src c).1 g := by
  generalize ha : (t.overlay root).blank = a
  have hsize := size_alloc t (src.content c) a
  obtain ⟨g, hg, h⟩ := grafted_importBelow ws a src.size (t.alloc (src.content c) a).1
    (w.alloc _ a) hc (by rw [hsize]; exact Nat.lt_succ_self t.size)
    (by rw [children_alloc, children_of_size_le (Nat.le_refl _)]) (Nat.le_add_right ..)
  have hle : t.size ≤ (t.alloc (src.content c) a).1.size := by
    rw [hsize]
    exact Nat.le_succ _
  have hlt : t.size < (t.alloc (src.content c) a).1.size := by
    rw [hsize]
    exact Nat.lt_succ_self _
  have htop := h.data t.size hlt
  rw [content_alloc, overlay_alloc, if_pos rfl, if_pos rfl] at htop
  rw [importSubtree_eq w.root_lt, ha]
  generalize importBelow src a src.size (t.alloc (src.content c) a).1 c t.size = u at h htop ⊢
  have hcopy {x : NodeId} (hx : src.Above c x) : NewCopy src a t u x (g x) := by
    by_cases hxc : x = c
    · rw [hxc, hg]
      exact ⟨⟨Nat.le_refl _, Nat.lt_of_lt_of_le hlt h.size_le⟩, htop.1, htop.2⟩
    · exact (h.copy (inside_singleton.2 hx) (by simpa using hxc)).earlier hle
  refine ⟨g, ?_⟩
  exact {
    wellFormed := h.wellFormed
    top := hg
    detached := by
      rw [h.parent? _ hlt, parent?_alloc, parent?_of_size_le (Nat.le_refl _)]
    children x hx := h.children x (inside_singleton.2 hx)
    content x hx := (hcopy hx).content
    overlay x hx := (hcopy hx).overlay
    fresh x hx := (hcopy hx).fresh
    onto y hy hy' := by
      by_cases hyt : y = t.size
      · exact ⟨c, .refl, hg.trans hyt.symm⟩
      · have hys : (t.alloc (src.content c) a).1.size ≤ y := by
          rw [hsize]
          exact Nat.lt_of_le_of_ne hy (Ne.symm hyt)
        obtain ⟨x, hx, -, hxy⟩ := h.onto y hys hy'
        exact ⟨x, inside_singleton.1 hx, hxy⟩
    others y hy := by
      have hne : ∀ i ∈ [c], y ≠ g i := by
        intro i hi
        rw [List.mem_singleton.1 hi, hg]
        exact Nat.ne_of_lt hy
      rw [h.others y (Nat.lt_of_lt_of_le hy hle) hne, h.parent? y (Nat.lt_of_lt_of_le hy hle),
        children_alloc, parent?_alloc]
      exact ⟨rfl, rfl⟩
    data y hy := by
      have hd := h.data y (Nat.lt_of_lt_of_le hy hle)
      rwa [content_alloc, overlay_alloc, if_neg (Nat.ne_of_lt hy), if_neg (Nat.ne_of_lt hy)]
        at hd }

theorem grafted_subtreeCopy (w : t.WellFormed) (hc : c < t.size) :
    ∃ g, g c = root ∧ Grafted t [c] .plain (leaf (t.content c)) (t.subtreeCopy c) g :=
  grafted_importBelow w .plain t.size _ (wellFormed_rootedAt _ _) hc Nat.one_pos rfl
    (Nat.le_add_right ..)

theorem Grafted.content_subtreeCopy
    (h : Grafted t [c] .plain (leaf (t.content c)) (t.subtreeCopy c) g) (hg : g c = root)
    (hx : t.Above c x) : (t.subtreeCopy c).content (g x) = t.content x := by
  by_cases hxc : x = c
  · rw [hxc, hg, (h.data root Nat.one_pos).1]
    rfl
  · exact h.content x (inside_singleton.2 hx) (by simpa using hxc)

/-- A subtree that is copied by way of a store of its own. -/
theorem copied_import_subtreeCopy (ws : src.WellFormed) (w : t.WellFormed) (hc : c < src.size) :
    ∃ g, Copied src c (t.overlay root).blank t (t.importSubtree (src.subtreeCopy c) root).1 g := by
  obtain ⟨g, hg, h⟩ := grafted_subtreeCopy ws hc
  obtain ⟨g', h'⟩ := copied_importSubtree h.wellFormed w h.wellFormed.root_lt
  have habove {x : NodeId} (hx : src.Above c x) : (src.subtreeCopy c).Above root (g x) := by
    induction hx with
    | refl => rw [hg]
    | @tail p x hp hx ih =>
      refine ih.tail (h.wellFormed.mem_children.1 ?_)
      rw [h.children p (inside_singleton.2 hp)]
      exact List.mem_map_of_mem (ws.mem_children.2 hx)
  refine ⟨g' ∘ g, ?_⟩
  exact {
    wellFormed := h'.wellFormed
    top := (congrArg g' hg).trans h'.top
    detached := h'.detached
    children x hx := by
      rw [Function.comp_apply, h'.children _ (habove hx), h.children x (inside_singleton.2 hx),
        List.map_map]
    content x hx := by
      rw [Function.comp_apply, h'.content _ (habove hx), h.content_subtreeCopy hg hx]
    overlay x hx := h'.overlay _ (habove hx)
    fresh x hx := h'.fresh _ (habove hx)
    onto y hy hy' := by
      obtain ⟨z, hz, rfl⟩ := h'.onto y hy hy'
      -- the root of the copy stands for `c`, and every other node for one below
      rcases Nat.eq_zero_or_pos z with rfl | hpos
      · exact ⟨c, .refl, congrArg g' hg⟩
      · have hzs : z < (src.subtreeCopy c).size :=
          h.wellFormed.live_lt (h.wellFormed.mem_live.2 hz)
        obtain ⟨x, hx, -, rfl⟩ := h.onto z hpos hzs
        exact ⟨x, inside_singleton.1 hx, rfl⟩
    others := h'.others
    data := h'.data }

end FlowMerge.Tree
