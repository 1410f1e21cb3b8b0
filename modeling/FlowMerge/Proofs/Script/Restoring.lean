import FlowMerge.Proofs.Script.Showing
import FlowMerge.Proofs.Script.Shuffling

namespace FlowMerge

namespace Tree

variable {t u v : Tree} {c id p x : NodeId} {S S' : NodeId → Prop} {f : Delta → Delta}

theorem originLe_trans {a b c : Option Nat} (h : originLe a b = true) (h' : originLe b c = true) :
    originLe a c = true := by
  match a, b, c, h, h' with
  | none, _, _, _, _ => rfl
  | some _, some _, some _, h, h' =>
    exact decide_eq_true (Nat.le_trans (of_decide_eq_true h) (of_decide_eq_true h'))

theorem originLe_total (a b : Option Nat) : (originLe a b || originLe b a) = true := by
  cases a <;> cases b <;> simp [originLe, Nat.le_total]

theorem origin?_modifyDelta (hf : ∀ y, (f y).origin = y.origin) (t : Tree) (id x : NodeId) :
    (t.modifyDelta id f).origin? x = t.origin? x := by
  rw [origin?, delta?_modifyDelta, origin?]
  split
  · cases t.delta? x with
    | none => rfl
    | some y => exact hf y
  · rfl

theorem SameData.origin? (h : SameData t u) (x : NodeId) : t.origin? x = u.origin? x := by
  rw [Tree.origin?, h.delta?, Tree.origin?]

theorem origin?_markSubtree (t : Tree) (id : NodeId) (m : Mark) (x : NodeId) :
    (t.markSubtree id m).origin? x = t.origin? x :=
  List.foldlRecOn _ _ (motive := fun u : Tree ↦ u.origin? x = t.origin? x) rfl fun u h i _ ↦
    (origin?_modifyDelta (f := fun d ↦ { d with mark := m }) (fun _ ↦ rfl) u i x).trans h

def Dated (t : Tree) : Prop := ∀ p, ∀ c ∈ t.children p, t.origin? c = some (t.position c)

structure Parted (u t : Tree) (x : NodeId) : Prop where
  children : t.children x = (u.children x).filter fun c ↦ !(t.placeholders x).contains c
  kept : ∀ p ∈ t.placeholders x, p ∈ u.children x
  distinct : (t.placeholders x).Nodup

theorem Parted.mergeSort_placeholders (h : Parted u t x) (w : u.WellFormed)
    (ho : ∀ c ∈ u.children x, t.origin? c = some (u.position c)) :
    ((t.placeholders x).mergeSort fun p q ↦ originLe (t.origin? p) (t.origin? q)) =
      (u.children x).filter (t.placeholders x).contains := by
  have hmem {c : NodeId} (hc : c ∈ (u.children x).filter (t.placeholders x).contains) :
      c ∈ u.children x := List.mem_of_mem_filter hc
  have hperm := List.mergeSort_perm (t.placeholders x)
    fun p q ↦ originLe (t.origin? p) (t.origin? q)
  have hposition {c : NodeId} (hc : c ∈ u.children x) :
      (u.children x)[u.position c]? = some c := w.getElem?_position (w.mem_children.1 hc)
  have hsorted := @List.pairwise_mergeSort _ (fun p q ↦ originLe (t.origin? p) (t.origin? q))
    (fun _ _ _ ↦ originLe_trans) (fun _ _ ↦ originLe_total ..) (t.placeholders x)
  refine List.Perm.eq_of_pairwise (fun p q hp hq hpq hqp ↦ ?_) hsorted ?_ (hperm.trans ?_)
  · have hp := h.kept p (hperm.mem_iff.1 hp)
    rw [ho p hp, ho q (hmem hq)] at hpq hqp
    have hpos : u.position p = u.position q :=
      Nat.le_antisymm (of_decide_eq_true hpq) (of_decide_eq_true hqp)
    exact Option.some_inj.1 ((hposition hp).symm.trans (hpos ▸ hposition (hmem hq)))
  · refine List.Pairwise.filter _ (List.pairwise_iff_getElem.2 fun i j hi hj hij ↦ ?_)
    have hat {k : Nat} (hk : k < (u.children x).length) :
        t.origin? (u.children x)[k] = some k := by
      rw [ho _ (List.getElem_mem hk), ((w.linked x _ k).1 (List.getElem?_eq_getElem hk)).2]
    rw [hat hi, hat hj]
    exact decide_eq_true (Nat.le_of_lt hij)
  · refine (List.perm_ext_iff_of_nodup h.distinct ((w.nodup_children x).filter _)).2 fun p ↦ ?_
    rw [List.mem_filter, List.contains_iff_mem]
    exact ⟨fun hp ↦ ⟨h.kept p hp, hp⟩, And.right⟩

structure Refilled (t : Tree) (x : NodeId) (l : List NodeId) (v : Tree) : Prop where
  size : v.size = t.size
  data : SameData v t
  here : v.children x = l
  others : ∀ y, y ≠ x → v.children y = t.children y

/-- Placeholders that are put back in order of their places make the children complete. -/
theorem refilled_restore (w : u.WellFormed) {ps : List NodeId} (hx : x < t.size)
    (ht : t.children x = (u.children x).filter fun c ↦ !ps.contains c)
    (ho : ∀ c ∈ u.children x, t.origin? c = some (u.position c)) :
    Refilled t x (u.children x)
      (((u.children x).filter ps.contains).foldl (restore x) t) := by
  have hrun : Refilled t x ((u.children x).filter fun c ↦ !ps.contains c ||
      ((u.children x).filter ps.contains).contains c)
      (((u.children x).filter ps.contains).foldl (restore x) t) := by
    -- All that stands before the next one in the end is there when its turn comes, so its old
    -- position is the right one.
    refine foldl_induction (P := fun pre v ↦
      Refilled t x ((u.children x).filter fun c ↦ !ps.contains c || pre.contains c) v)
      ⟨rfl, .refl t, ht.trans (List.filter_congr fun c _ ↦ (Bool.or_false _).symm),
        fun _ _ ↦ rfl⟩ fun pre p post v hsplit h ↦ ?_
    have hp : p ∈ u.children x := by
      have hm : p ∈ (u.children x).filter ps.contains :=
        hsplit ▸ List.mem_append_right pre List.mem_cons_self
      exact List.mem_of_mem_filter hm
    obtain ⟨hle, hins⟩ := insertIdx_filter_of_split (w.nodup_children x) hsplit
      (w.getElem?_position (w.mem_children.1 hp))
    have hrestore : restore x v p = v.insertChild x (u.position p) p := by
      simp only [restore, h.data.origin?, ho p hp, h.here, Nat.min_eq_left hle]
    rw [hrestore]
    refine ⟨(size_insertChild ..).trans h.size, (sameData_insertChild ..).trans h.data, ?_,
      fun y hy ↦ ?_⟩
    · rw [children_insertChild_eq, if_pos ⟨rfl, h.size ▸ hx⟩, h.here, hins]
    · rw [children_insertChild_eq, if_neg fun he ↦ hy he.1, h.others y hy]
  have hall : ((u.children x).filter fun c ↦ !ps.contains c ||
      ((u.children x).filter ps.contains).contains c) = u.children x := by
    refine List.filter_eq_self.2 fun c hc ↦ ?_
    cases hps : ps.contains c with
    | false => rfl
    | true =>
      rw [Bool.not_true, Bool.false_or, List.contains_iff_mem]
      exact List.mem_filter.2 ⟨hc, hps⟩
  exact ⟨hrun.size, hrun.data, hrun.here.trans hall, hrun.others⟩

/-- The nodes in `S` have their children of `u` again, and the others can get theirs back. -/
structure Mended (u : Tree) (S : NodeId → Prop) (t : Tree) : Prop where
  size : t.size = u.size
  content : ∀ x, t.content x = u.content x
  origin? : ∀ x, t.origin? x = u.origin? x
  unmoved : ∀ x, t.mark x ≠ .movedHere
  whole : ∀ x, S x → t.children x = u.children x
  parted : ∀ x, ¬ S x → Parted u t x

namespace Mended

theorem congr (h : Mended u S t) (hS : ∀ x, S x ↔ S' x) : Mended u S' t :=
  (funext fun x ↦ propext (hS x)) ▸ h

/-- Outside of moves all placeholders are put back. -/
theorem restoreAll_eq (h : Mended u S t) (id : NodeId) : t.restoreAll id =
    ((t.placeholders id).mergeSort fun p q ↦ originLe (t.origin? p) (t.origin? q)).foldl
      (restore id) (t.modifyDelta id fun d ↦ { d with placeholders := [] }) := by
  have hinside :
      (t.modifyDelta id fun d ↦ { d with placeholders := [] }).insideMove id = false := by
    refine List.any_eq_false.2 fun a _ ↦ ?_
    rw [mark_modifyDelta t id (by exact fun _ ↦ rfl), beq_iff_eq]
    exact h.unmoved a
  rw [restoreAll, hinside]
  simp only [origin?_modifyDelta (f := fun d : Delta ↦ { d with placeholders := [] }) fun _ ↦ rfl]
  rfl

theorem restoreAll (h : Mended u S t) (w : u.WellFormed) (ho : u.Dated) (hid : id < u.size)
    (hS : ¬ S id) : Mended u (fun x ↦ S x ∨ x = id) (t.restoreAll id) := by
  have hparted := h.parted id hS
  have horigin : ∀ c ∈ u.children id, t.origin? c = some (u.position c) := fun c hc ↦
    (h.origin? c).trans (ho id c hc)
  have hshape := sameShape_modifyDelta t id fun d ↦ { d with placeholders := [] }
  have hmark := mark_modifyDelta t id (f := fun d ↦ { d with placeholders := [] }) fun _ ↦ rfl
  have horigin' := origin?_modifyDelta (f := fun d ↦ { d with placeholders := [] })
    (fun _ ↦ rfl) t id
  have hdelta := delta?_modifyDelta t id fun d ↦ { d with placeholders := [] }
  have hcontent := content_modifyDelta t id fun d ↦ { d with placeholders := [] }
  rw [h.restoreAll_eq, hparted.mergeSort_placeholders w horigin]
  generalize (t.modifyDelta id fun d ↦ { d with placeholders := [] }) = t' at *
  have hv := refilled_restore (t := t') w (by rw [hshape.size, h.size]; exact hid)
    ((hshape.children id).trans hparted.children) fun c hc ↦ (horigin' c).trans (horigin c hc)
  generalize ((u.children id).filter (t.placeholders id).contains).foldl (restore id) t' = v at hv
  have hothers {x : NodeId} (hx : x ≠ id) : v.children x = t.children x :=
    (hv.others x hx).trans (hshape.children x)
  exact {
    size := hv.size.trans (hshape.size.trans h.size)
    content x := by
      rw [hv.data.content, hcontent, h.content]
    origin? x := by
      rw [hv.data.origin?, horigin', h.origin?]
    unmoved x := by
      rw [hv.data.mark, hmark]
      exact h.unmoved x
    whole x hx := by
      by_cases he : x = id
      · rw [he, hv.here]
      · rw [hothers he, h.whole x (hx.resolve_right he)]
    parted x hx := by
      rw [not_or] at hx
      have hdx := hdelta x
      rw [if_neg hx.2] at hdx
      have hp : v.placeholders x = t.placeholders x :=
        (hv.data.placeholders x).trans (placeholders_eq_of_delta? hdx)
      obtain ⟨hchildren, hkept, hdistinct⟩ := h.parted x hx.1
      exact ⟨by rw [hothers hx.2, hp, hchildren], hp ▸ hkept, hp ▸ hdistinct⟩ }

/-- A walk follows the children that are already back. -/
theorem restoreWithin (n : Nat) (h : Mended u S t) (w : u.WellFormed) (ho : u.Dated)
    (hid : id < u.size) (hbelow : ∀ x, u.Above id x → ¬ S x) (hn : u.size ≤ n + u.depth id) :
    Mended u (fun x ↦ S x ∨ u.Above id x) (Tree.restoreWithin n t id) := by
  induction n generalizing S t id with
  | zero =>
    have := w.depth_lt hid
    omega
  | succ n ih =>
    have h₁ := h.restoreAll w ho hid (hbelow id .refl)
    rw [Tree.restoreWithin, h₁.whole id (.inr rfl)]
    generalize t.restoreAll id = t₁ at h₁
    have hrun : Mended u (fun x ↦ (S x ∨ x = id) ∨ ∃ c ∈ u.children id, u.Above c x)
        ((u.children id).foldl (Tree.restoreWithin n) t₁) := by
      refine foldl_induction (P := fun pre v ↦
        Mended u (fun x ↦ (S x ∨ x = id) ∨ ∃ c ∈ pre, u.Above c x) v)
        (h₁.congr fun x ↦ (or_iff_left (by simp)).symm) fun pre c post v hsplit hv ↦ ?_
      have hc : c ∈ u.children id := hsplit ▸ List.mem_append_right pre List.mem_cons_self
      have hparent := w.mem_children.1 hc
      have hclosed : ∀ x, u.Above c x → ¬ ((S x ∨ x = id) ∨ ∃ c ∈ pre, u.Above c x) := by
        rintro x hx ((hS | rfl) | ⟨c', hc', hx'⟩)
        · exact hbelow x (hx.head (show u.IsParent id c from hparent)) hS
        · exact (w.apart_of_split hsplit hx).1 rfl
        · exact (w.apart_of_split hsplit hx).2 c' hc' hx'
      have hfuel : u.size ≤ n + u.depth c := by
        rw [w.depth_of_parent hparent]
        omega
      refine (ih hv (w.child_lt hc) hclosed hfuel).congr fun x ↦ ?_
      simp only [List.mem_append, List.mem_singleton, or_and_right, exists_or, exists_eq_left,
        or_assoc]
    refine hrun.congr fun x ↦ ?_
    rw [or_assoc, w.above_iff_children]

end Mended

end Tree

namespace Script

open FlowMerge.Tree

variable {t u d d' : Tree} {s : Script} {node parent x : NodeId} {steps : List Step}

theorem mended_deleteAt (h : Mended u (fun _ ↦ False) d) (hd : Underway [] d)
    (hc : Custody [] (deleteAt d node parent)) (hp : d.parent? node = some parent) :
    Mended u (fun _ ↦ False) (deleteAt d node parent) := by
  have w := hd.wellFormed
  have hchild := w.mem_children.2 hp
  have hplaceholders := placeholders_deleteAt w hp (hd.recorded parent (w.parent_lt hp))
  have hrem : Removed [node] d (deleteAt d node parent) :=
    removed_deletion w (lt_size_of_parent? hp) parent
  exact {
    size := (size_deleteAt d node parent).trans h.size
    content x := (content_deleteAt d node parent x).trans (h.content x)
    origin? x := by
      rw [deleteAt, (sameData_detach _ _).origin?, addPlaceholder,
        origin?_modifyDelta (by exact fun _ ↦ rfl), origin?_markSubtree, h.origin?]
    unmoved x := by
      rw [hd.mark_delete hp]
      split
      · decide
      · exact h.unmoved x
    whole _ := False.elim
    parted x _ := by
      obtain ⟨hchildren, hkept, -⟩ := h.parted x id
      refine ⟨?_, fun p hpx ↦ ?_, hc.distinct x⟩
      · rw [hrem.children, hplaceholders]
        split
        · rw [hchildren, List.filter_filter]
          refine List.filter_congr fun c _ ↦ ?_
          rw [List.contains_append, Bool.not_or, Bool.and_comm]
        · next hx =>
          rw [← hchildren]
          refine List.filter_eq_self.2 fun c hcx ↦ ?_
          have hne : c ≠ node := by
            rintro rfl
            exact hx (Option.some_inj.1 ((w.mem_children.1 hcx).symm.trans hp))
          simpa using hne
      · rw [hplaceholders] at hpx
        split at hpx
        · next hx =>
          rcases List.mem_append.1 hpx with hpx | hpx
          · exact hkept p hpx
          · rw [List.mem_singleton.1 hpx, hx]
            have hm := (h.parted parent id).children ▸ hchild
            exact List.mem_of_mem_filter hm
        · exact hkept p hpx }

theorem mended_deletions (h : Mended u (fun _ ↦ False) d) (hd : Underway [] d)
    (hc : Custody [] d) (hrun : steps.foldlM applyDeletion d = .ok d') :
    Mended u (fun _ ↦ False) d' ∧ Underway [] d' ∧ Custody [] d' := by
  refine deletions_induction (P := fun d ↦ Mended u (fun _ ↦ False) d ∧ Underway [] d ∧
    Custody [] d) hrun ⟨h, hd, hc⟩ fun v node parent ⟨h, hd, hc⟩ hp ↦ ?_
  have hc' := hc.delete hd hp
  exact ⟨mended_deleteAt h hd hc' hp, hd.delete hp, hc'⟩

theorem deletions_of_patch (hs : ∀ c ∈ s, c.kind.isDeletion = true) (h : patch t s = .ok d) :
    (aimed (pristine t) s).foldlM applyDeletion (pristine t) = .ok d := by
  have hnone {q : Change → Bool} (hq : ∀ c, c.kind.isDeletion = true → q c = false) :
      (aimed (pristine t) s).filter (fun e ↦ q e.1) = [] := by
    rw [filter_aimed, List.filter_eq_nil_iff.2 fun c hc ↦ by simp [hq c (hs c hc)]]
    rfl
  have hupdates := hnone (q := fun c ↦ c.kind == .update) fun c ↦ by cases c.kind <;> decide
  have hplaces := hnone (q := places) fun c ↦ by
    rw [places]
    cases c.kind <;> decide
  obtain ⟨-, d₁, k, d₂, h₁, h₂, h₃⟩ := patch_ok h
  rw [← foldl_applyUpdate_filter, ← foldlM_applyMove_filter, hupdates, hplaces] at h₁
  rw [← foldlM_applyAddition_filter, hplaces] at h₃
  obtain rfl : pristine t = d₁ := congrArg Prod.fst (Except.ok.inj h₁)
  obtain rfl : d₂ = d := Except.ok.inj h₃
  exact h₂

theorem live_pristine (w : t.WellFormed) : (pristine t).live = List.range t.live.length := by
  rw [(pristine_spec w).1.live, toDelta, w.live_rebuild]

theorem dated_pristine (w : t.WellFormed) : (pristine t).Dated := by
  obtain ⟨hshape, -, hdelta⟩ := pristine_spec w
  -- the nodes are dated one after the other, in document order
  have hrun : SameShape (pristine t) t.toDelta ∧
      ∀ x ∈ t.toDelta.live.tail, (pristine t).delta? x ≠ none →
        (pristine t).origin? x = some (t.toDelta.position x) := by
    refine foldl_induction (P := fun pre (d : Tree) ↦ SameShape d t.toDelta ∧
      ∀ x ∈ pre, d.delta? x ≠ none → d.origin? x = some (t.toDelta.position x))
      ⟨.refl _, nofun⟩ fun pre y post d _ ⟨hd, ho⟩ ↦
        ⟨(sameShape_modifyDelta d y _).trans hd, fun x hx hne ↦ ?_⟩
    rw [delta?_modifyDelta] at hne
    rw [origin?, delta?_modifyDelta]
    by_cases hxy : x = y
    · rw [if_pos hxy] at hne ⊢
      cases hdx : d.delta? x with
      | none =>
        rw [hdx] at hne
        exact absurd rfl hne
      | some z => rw [hxy, ← hd.position]; rfl
    · rw [if_neg hxy] at hne ⊢
      exact ho x ((List.mem_append.1 hx).resolve_right fun he ↦ hxy (List.mem_singleton.1 he)) hne
  intro p c hc
  have wp := wellFormed_pristine w
  have hp := wp.mem_children.1 hc
  have hlt : c < t.live.length := size_pristine w ▸ lt_size_of_parent? hp
  obtain ⟨i, hi⟩ := hdelta c hlt
  rw [hshape.position]
  refine hrun.2 c ?_ (hi ▸ Option.some_ne_none _)
  have hmem : c ∈ t.toDelta.live := by
    rw [← hshape.live, live_pristine w]
    exact List.mem_range.2 hlt
  rw [live, (hshape.symm.wellFormed wp).preorder_eq (hshape.symm.wellFormed wp).root_lt] at hmem ⊢
  exact (List.mem_cons.1 hmem).resolve_left (wp.child_ne_root hp)

theorem mended_pristine (w : t.WellFormed) :
    Mended (pristine t) (fun _ ↦ False) (pristine t) := by
  have hdelta (x : NodeId) :
      (pristine t).mark x = .unchanged ∧ (pristine t).placeholders x = [] := by
    by_cases hx : x < t.live.length
    · obtain ⟨i, hi⟩ := (pristine_spec w).2.2 x hx
      rw [mark, placeholders, hi]
      exact ⟨rfl, rfl⟩
    · have hle : (pristine t).size ≤ x := size_pristine w ▸ Nat.le_of_not_lt hx
      exact ⟨mark_of_size_le hle, placeholders_of_size_le hle⟩
  refine ⟨rfl, fun _ ↦ rfl, fun _ ↦ rfl, fun x hx ↦ ?_, fun _ ↦ False.elim, fun x _ ↦ ?_⟩
  · rw [(hdelta x).1] at hx
    cases hx
  · have hnone := (hdelta x).2
    refine ⟨?_, ?_, ?_⟩ <;> rw [hnone]
    · exact (List.filter_eq_self.2 fun _ _ ↦ rfl).symm
    · exact List.forall_mem_nil _
    · exact List.nodup_nil

/-- Whatever deletions take out goes back to where it was, in whatever order they come and however
they are nested. -/
theorem sameContent_resolvePlaceholders (w : t.WellFormed)
    (hs : ∀ c ∈ s, c.kind.isDeletion = true) (h : patch t s = .ok d) :
    d.resolvePlaceholders.sameContent t = true := by
  have wp := wellFormed_pristine w
  obtain ⟨hm, hu, hc⟩ := mended_deletions (mended_pristine w) (moving_pristine w []).toUnderway
    (moving_pristine w []).toCustody (deletions_of_patch hs h)
  have we : d.resolvePlaceholders.WellFormed :=
    ((Showing.start hu.wellFormed).restoreWithin hc hu.wellFormed d.size hu.wellFormed.root_mem_live
      (fun _ _ ↦ id) (Nat.le_add_right ..)).1.wellFormed
  have he : Mended (pristine t) (fun x ↦ False ∨ (pristine t).Above root x)
      d.resolvePlaceholders := hm.restoreWithin d.size wp (dated_pristine w) wp.root_lt
    (fun _ _ ↦ id) (by rw [hm.size]; exact Nat.le_add_right ..)
  refine Mirrors.sameContent (f := t.place) ⟨⟨w.place_root, fun x hx ↦ ?_⟩, fun x hx ↦ ?_⟩ w we
  · refine (he.whole _ (.inr (wp.mem_live.1 ?_))).trans (children_pristine w hx)
    rw [live_pristine w]
    exact List.mem_range.2 (place_lt hx)
  · rw [he.content, content_pristine w hx]
    exact Content.same_refl _

def branchesInLoop : Tree :=
  .ofList { label := "description" }
    [(0, { label := "loop" }), (1, { label := "call" }), (1, { label := "call" }),
      (1, { label := "choose" }), (4, { label := "alternative" }), (4, { label := "otherwise" }),
      (1, { label := "call" })]

def branchesFirst : Script :=
  [{ kind := .subtreeDeletion, old := some [0, 2, 1] }, { kind := .deletion, old := some [0, 2] },
    { kind := .subtreeDeletion, old := some [0, 2, 0] },
    { kind := .subtreeDeletion, old := some [0, 1] }, { kind := .deletion, old := some [0] },
    { kind := .subtreeDeletion, old := some [0, 0] }]

theorem sameContent_branchesFirst : ∃ d, patch branchesInLoop branchesFirst = .ok d ∧
    d.resolvePlaceholders.sameContent branchesInLoop = true := by
  have w : branchesInLoop.WellFormed := wellFormed_ofList _ _ (by decide)
  have hok : (patch branchesInLoop branchesFirst).toOption.isSome = true := by decide +kernel
  cases h : patch branchesInLoop branchesFirst with
  | error e =>
    rw [h] at hok
    cases hok
  | ok d => exact ⟨d, rfl, sameContent_resolvePlaceholders w (by decide) h⟩

end Script

end FlowMerge
