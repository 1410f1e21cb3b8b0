import FlowMerge.Proofs.Script.Account
import FlowMerge.Script.Placeholders

namespace FlowMerge

namespace Tree

variable {t u v : Tree} {a c id p q x : NodeId} {l : List NodeId} {S S' : NodeId → Prop}

theorem WellFormed.insideMove_iff (w : t.WellFormed) :
    t.insideMove x = true ↔ ∃ a, t.Above a x ∧ t.mark a = .movedHere := by
  simp only [insideMove, List.any_eq_true, List.mem_cons, w.mem_ancestors, ← above_iff,
    beq_iff_eq]

/-- The tree `u` is `t` with more nodes in it. What was live keeps what is above it, and the nodes
in `S` keep their children. -/
structure Grows (S : NodeId → Prop) (t u : Tree) : Prop where
  live : ∀ x ∈ t.live, x ∈ u.live
  parent? : ∀ x ∈ t.live, u.parent? x = t.parent? x
  children : ∀ x, S x → u.children x = t.children x

namespace Grows

theorem refl (S : NodeId → Prop) (t : Tree) : Grows S t t :=
  ⟨fun _ hx ↦ hx, fun _ _ ↦ rfl, fun _ _ ↦ rfl⟩

theorem of_sameShape (h : SameShape u t) (S : NodeId → Prop) : Grows S t u :=
  ⟨fun _ hx ↦ h.live ▸ hx, fun x _ ↦ h.parent? x, fun x _ ↦ h.children x⟩

theorem trans (h : Grows S t u) (h' : Grows S' u v) (hS : ∀ x, S x → S' x) : Grows S t v :=
  ⟨fun x hx ↦ h'.live x (h.live x hx), fun x hx ↦
    (h'.parent? x (h.live x hx)).trans (h.parent? x hx), fun x hx ↦
      (h'.children x (hS x hx)).trans (h.children x hx)⟩

variable (h : Grows S t u) (w : t.WellFormed)
include h w

theorem above_iff (hx : x ∈ t.live) : u.Above a x ↔ t.Above a x := by
  induction x using w.up_induction with
  | h x ih =>
    rw [Tree.above_iff, Tree.above_iff (t := t), h.parent? x hx]
    refine or_congr_right (exists_congr fun p ↦ and_congr_right fun hp ↦ ?_)
    exact ih p hp (w.parent_live hx hp)

theorem depth_eq (wu : u.WellFormed) (hx : x ∈ t.live) : u.depth x = t.depth x := by
  induction x using w.up_induction with
  | h x ih =>
    have hparent := h.parent? x hx
    cases hp : t.parent? x with
    | none => rw [depth_of_top hp, depth_of_top (hparent.trans hp)]
    | some p =>
      rw [w.depth_of_parent hp, wu.depth_of_parent (hparent.trans hp),
        ih p hp (w.parent_live hx hp)]

theorem above_iff_of_kept (wu : u.WellFormed) (hS : ∀ y, t.Above a y → S y) :
    u.Above a x ↔ t.Above a x := by
  constructor
  · intro hx
    induction hx with
    | refl => exact .refl
    | @tail p c _ hp ih =>
      have hc := wu.mem_children.2 hp
      rw [h.children p (hS p ih)] at hc
      exact ih.tail (w.mem_children.1 hc)
  · intro hx
    induction hx with
    | refl => exact .refl
    | @tail p c hap hp ih =>
      have hc := w.mem_children.2 hp
      rw [← h.children p (hS p hap)] at hc
      exact ih.tail (wu.mem_children.1 hc)

end Grows

theorem exists_restore (t : Tree) (id p : NodeId) : ∃ i ≤ (t.children id).length,
    restore id t p = t.insertChild id i p := by
  rw [restore]
  cases t.origin? p with
  | none => exact ⟨_, Nat.le_refl _, rfl⟩
  | some i => exact ⟨_, Nat.min_le_right _ _, rfl⟩

structure Hung (t : Tree) (id : NodeId) (l : List NodeId) (u : Tree) : Prop where
  wellFormed : u.WellFormed
  size : u.size = t.size
  data : SameData u t
  others : ∀ x, x ≠ id → u.children x = t.children x
  parent? : ∀ x, u.parent? x = if x ∈ l then some id else t.parent? x
  before : ((u.children id).filter fun c ↦ c ∉ l) = t.children id

namespace Hung

theorem grows (h : Hung t id l u) (w : t.WellFormed)
    (htop : ∀ p ∈ l, t.parent? p = none ∧ p ≠ root) : Grows (· ≠ id) t u := by
  have hparent {x : NodeId} (hx : x ∈ t.live) : u.parent? x = t.parent? x := by
    rw [h.parent?, if_neg]
    intro hl
    exact (htop x hl).2 (above_of_top (htop x hl).1 (w.mem_live.1 hx)).symm
  refine ⟨fun x hx ↦ ?_, fun x ↦ hparent, h.others⟩
  rw [h.wellFormed.mem_live]
  induction x using w.up_induction with
  | h x ih =>
    rcases above_iff.1 (w.mem_live.1 hx) with rfl | ⟨p, hp, -⟩
    · exact .refl
    · exact (ih p hp (w.parent_live hx hp)).tail ((hparent hx).trans hp)

theorem mem_children (h : Hung t id l u) (w : t.WellFormed) :
    c ∈ u.children id ↔ c ∈ l ∨ c ∈ t.children id := by
  rw [h.wellFormed.mem_children, h.parent?, w.mem_children]
  split
  · next hl => exact iff_of_true rfl (.inl hl)
  · next hl => exact (or_iff_right hl).symm

end Hung

theorem hung_restore (w : t.WellFormed) (hid : id ∈ t.live) (hl : l.Nodup)
    (htop : ∀ p ∈ l, t.parent? p = none ∧ p ≠ root ∧ p < t.size) :
    Hung t id l (l.foldl (restore id) t) := by
  refine foldl_induction (P := fun pre u ↦ Hung t id pre u) ?_ fun pre p post u hsplit h ↦ ?_
  · exact {
      wellFormed := w
      size := rfl
      data := .refl t
      others _ _ := rfl
      parent? _ := (if_neg List.not_mem_nil).symm
      before := List.filter_eq_self.2 fun c _ ↦ decide_eq_true List.not_mem_nil }
  · rw [hsplit, List.nodup_append] at hl
    -- no node is put back twice
    have hfresh : p ∉ pre := fun hp ↦ hl.2.2 p hp p List.mem_cons_self rfl
    have hmem {x : NodeId} (hx : x ∈ pre ++ [p]) : x ∈ l := by
      rw [hsplit, ← List.singleton_append, ← List.append_assoc]
      exact List.mem_append_left post hx
    obtain ⟨htopp, hr, hlt⟩ := htop p (hmem (List.mem_append_right pre List.mem_cons_self))
    obtain ⟨i, hi, hins⟩ := exists_restore u id p
    have hg := h.grows w fun x hx ↦
      ⟨(htop x (hmem (List.mem_append_left [p] hx))).1,
        (htop x (hmem (List.mem_append_left [p] hx))).2.1⟩
    have hidu := hg.live id hid
    have htopu : u.parent? p = none := by rw [h.parent?, if_neg hfresh, htopp]
    rw [← h.size] at hlt
    have hidlt := h.wellFormed.live_lt hidu
    rw [hins]
    exact {
      wellFormed := h.wellFormed.insertChild hidlt hlt hr htopu
        (h.wellFormed.not_above_of_live hidu hr htopu) hi
      size := (size_insertChild ..).trans h.size
      data := (sameData_insertChild u id i p).trans h.data
      others x hx := by
        rw [children_insertChild hidlt hlt, if_neg hx, h.others x hx]
      parent? x := by
        rw [parent?_insertChild hidlt hlt, h.parent?]
        by_cases hx : x = p
        · simp [hx]
        · simp [hx]
      before := by
        rw [children_insertChild hidlt hlt, if_pos rfl, filter_insertIdx_of_neg hi (by simp),
          ← h.before]
        refine List.filter_congr fun c hc ↦ ?_
        have hne : c ≠ p := by
          rintro rfl
          rw [h.wellFormed.mem_children.1 hc] at htopu
          cases htopu
        simp [hne] }

/-- What is put back at a node are its placeholders, apart from stand-ins inside a move. -/
theorem exists_restoreAll (w : t.WellFormed) (id : NodeId) (hn : (t.placeholders id).Nodup) :
    ∃ l : List NodeId, l.Nodup ∧ (∀ p, p ∈ l ↔ p ∈ t.placeholders id ∧
      ¬ ((∃ a, t.Above a id ∧ t.mark a = .movedHere) ∧ t.mark p = .movedAway)) ∧
      t.restoreAll id =
        l.foldl (restore id) (t.modifyDelta id fun d ↦ { d with placeholders := [] }) := by
  have hshape := sameShape_modifyDelta t id fun d ↦ { d with placeholders := [] }
  have hmark := mark_modifyDelta t id (f := fun d ↦ { d with placeholders := [] }) fun _ ↦ rfl
  have hinside : (t.modifyDelta id fun d ↦ { d with placeholders := [] }).insideMove id = true ↔
      ∃ a, t.Above a id ∧ t.mark a = .movedHere := by
    simp only [(hshape.wellFormed w).insideMove_iff, hshape.above, hmark]
  have hperm (f : NodeId → NodeId → Bool) : ((t.placeholders id).mergeSort f).Perm
      (t.placeholders id) := List.mergeSort_perm _ _
  rw [restoreAll]
  split
  · next hin =>
    refine ⟨_, ((hperm _).nodup_iff.2 hn).filter _, fun p ↦ ?_, rfl⟩
    rw [List.mem_filter, (hperm _).mem_iff, hmark]
    simp [hinside.1 hin]
  · next hin =>
    refine ⟨_, (hperm _).nodup_iff.2 hn, fun p ↦ ?_, rfl⟩
    rw [(hperm _).mem_iff, ← hinside]
    simp [hin]

def isGone (t : Tree) (x : NodeId) : Bool := t.mark x == .deleted || t.mark x == .movedAway

def withoutGone (t : Tree) : Tree := (t.live.filter t.isGone).foldl detach t

theorem withoutGone_spec (w : t.WellFormed) : t.withoutGone.WellFormed ∧
    t.withoutGone.size = t.size ∧ SameData t.withoutGone t ∧
    ∀ x, t.withoutGone.children x =
      (t.children x).filter fun c ↦ c ∉ t.live.filter t.isGone := by
  refine foldl_induction (P := fun pre u ↦ u.WellFormed ∧ u.size = t.size ∧ SameData u t ∧
    ∀ x, u.children x = (t.children x).filter fun c ↦ c ∉ pre) ?_ ?_
  · exact ⟨w, rfl, .refl t, fun x ↦
      (List.filter_eq_self.2 fun c _ ↦ decide_eq_true List.not_mem_nil).symm⟩
  · rintro pre c post u - ⟨wu, hsize, hdata, hchildren⟩
    refine ⟨wu.detach c, (size_detach u c).trans hsize, (sameData_detach u c).trans hdata,
      fun x ↦ ?_⟩
    rw [wu.children_detach, hchildren, List.filter_filter]
    refine List.filter_congr fun y _ ↦ ?_
    by_cases hy : y = c <;> simp [hy]

end Tree

namespace Script

open FlowMerge.Tree

variable {d t u : Tree} {c id p q x : NodeId} {S S' : NodeId → Prop}

/-- The placeholders of `d` at the nodes in `S` are shown in `t`, and all others are kept. -/
structure Showing (d : Tree) (S : NodeId → Prop) (t : Tree) : Prop where
  wellFormed : t.WellFormed
  size : t.size = d.size
  content : ∀ x, t.content x = d.content x
  mark : ∀ x, t.mark x = d.mark x
  closed : ∀ x, ¬ S x → t.children x = d.children x ∧ t.placeholders x = d.placeholders x
  live : ∀ x, S x → x ∈ t.live
  children : ∀ x, S x → ((t.children x).filter fun c ↦ c ∉ d.placeholders x) = d.children x
  shown : ∀ x, S x → ∀ c ∈ d.placeholders x, c ∈ t.children x ↔
    ¬ ((∃ a, t.Above a x ∧ d.mark a = .movedHere) ∧ d.mark c = .movedAway)

namespace Showing

theorem start (w : d.WellFormed) : Showing d (fun _ ↦ False) d :=
  ⟨w, rfl, fun _ ↦ rfl, fun _ ↦ rfl, fun _ _ ↦ ⟨rfl, rfl⟩, nofun, nofun, nofun⟩

theorem congr (h : Showing d S t) (hS : ∀ x, S x ↔ S' x) : Showing d S' t :=
  (funext fun x ↦ propext (hS x)) ▸ h

theorem child (h : Showing d S t) (hc : c ∈ t.children x) :
    c ∈ d.children x ∨ S x ∧ c ∈ d.placeholders x := by
  by_cases hx : S x
  · by_cases hp : c ∈ d.placeholders x
    · exact .inr ⟨hx, hp⟩
    · exact .inl (h.children x hx ▸ List.mem_filter.2 ⟨hc, decide_eq_true hp⟩)
  · exact .inl ((h.closed x hx).1 ▸ hc)

variable (hd : Custody [] d) (w : d.WellFormed)
include hd w

theorem detached (h : Showing d S t) (hq : ¬ S q) (hp : p ∈ d.placeholders q) :
    t.parent? p = none := by
  by_contra hne
  obtain ⟨x, hx⟩ := Option.ne_none_iff_exists'.1 hne
  rcases h.child (h.wellFormed.mem_children.2 hx) with hc | ⟨hSx, hc⟩
  · have htop := (hd.detached q p hp).1
    rw [w.mem_children.1 hc] at htop
    cases htop
  · exact hq (hd.unique q x p hp hc ▸ hSx)

theorem exists_hung (h : Showing d S t) (hid : id ∈ t.live) (hS : ¬ S id) :
    ∃ t' l, SameShape t' t ∧ (∀ x, t'.content x = d.content x) ∧ (∀ x, t'.mark x = d.mark x) ∧
      (∀ x ≠ id, t'.placeholders x = t.placeholders x) ∧
      (∀ p ∈ l, t'.parent? p = none ∧ p ≠ root) ∧
      (∀ p, p ∈ l ↔ p ∈ d.placeholders id ∧
        ¬ ((∃ a, t.Above a id ∧ d.mark a = .movedHere) ∧ d.mark p = .movedAway)) ∧
      Hung t' id l (t.restoreAll id) := by
  have hplaceholders := (h.closed id hS).2
  obtain ⟨l, hl, hmem, hrun⟩ := exists_restoreAll h.wellFormed id (hplaceholders ▸ hd.distinct id)
  simp only [hplaceholders, h.mark] at hmem
  have hshape := sameShape_modifyDelta t id fun y ↦ { y with placeholders := [] }
  have hmark := mark_modifyDelta t id (f := fun y ↦ { y with placeholders := [] }) fun _ ↦ rfl
  have hdelta := delta?_modifyDelta (t := t) id fun y ↦ { y with placeholders := [] }
  have hcontent := content_modifyDelta (t := t) id fun y ↦ { y with placeholders := [] }
  rw [hrun]
  generalize (t.modifyDelta id fun y ↦ { y with placeholders := [] }) = t' at *
  have htop : ∀ p ∈ l, t'.parent? p = none ∧ p ≠ root ∧ p < t'.size := by
    intro p hp
    have hp := ((hmem p).1 hp).1
    obtain ⟨-, hr, hlt, -⟩ := hd.detached id p hp
    rw [hshape.parent?, hshape.size, h.size]
    exact ⟨h.detached hd w hS hp, hr, hlt⟩
  refine ⟨t', l, hshape, fun x ↦ (hcontent x).trans (h.content x),
    fun x ↦ (hmark x).trans (h.mark x), fun x hx ↦ ?_,
    fun p hp ↦ ⟨(htop p hp).1, (htop p hp).2.1⟩, hmem,
    hung_restore (hshape.wellFormed h.wellFormed) (hshape.live ▸ hid) hl htop⟩
  have hdx := hdelta x
  rw [if_neg hx] at hdx
  exact placeholders_eq_of_delta? hdx

theorem restoreAll (h : Showing d S t) (hid : id ∈ t.live) (hS : ¬ S id) :
    Showing d (fun x ↦ S x ∨ x = id) (t.restoreAll id) ∧ Grows S t (t.restoreAll id) := by
  obtain ⟨t', l, hshape, hcontent, hmark, hplaceholders, htop, hmem, hung⟩ :=
    h.exists_hung hd w hid hS
  generalize t.restoreAll id = u at hung ⊢
  have wt := hshape.wellFormed h.wellFormed
  have hg : Grows (· ≠ id) t u :=
    (Grows.of_sameShape hshape _).trans (hung.grows wt htop) fun _ hx ↦ hx
  have hne {x : NodeId} (hx : S x) : x ≠ id := fun he ↦ hS (he ▸ hx)
  have hchild {p : NodeId} (hp : p ∈ d.placeholders id) : p ∈ u.children id ↔ p ∈ l := by
    rw [hung.mem_children wt, hshape.children, or_iff_left]
    intro hc
    have := h.detached hd w hS hp
    rw [h.wellFormed.mem_children.1 hc] at this
    cases this
  have hshowing : Showing d (fun x ↦ S x ∨ x = id) u := {
    wellFormed := hung.wellFormed
    size := hung.size.trans (hshape.size.trans h.size)
    content x := (hung.data.content x).trans (hcontent x)
    mark x := (hung.data.mark x).trans (hmark x)
    closed x hx := by
      rw [not_or] at hx
      rw [hg.children x hx.2, hung.data.placeholders, hplaceholders x hx.2]
      exact h.closed x hx.1
    live x hx := hg.live x (hx.elim (h.live x) fun he ↦ he ▸ hid)
    children x hx := by
      rcases hx with hx | rfl
      · rw [hg.children x (hne hx)]
        exact h.children x hx
      · rw [← (h.closed x hS).1, ← hshape.children, ← hung.before]
        refine List.filter_congr fun c hc ↦ ?_
        rw [decide_eq_decide]
        exact not_congr ⟨fun hp ↦ (hchild hp).1 hc, fun hl ↦ ((hmem c).1 hl).1⟩
    shown x hx c hc := by
      rcases hx with hx | rfl
      · rw [hg.children x (hne hx)]
        simp only [hg.above_iff h.wellFormed (h.live x hx)]
        exact h.shown x hx c hc
      · rw [hchild hc, hmem, and_iff_right hc]
        simp only [hg.above_iff h.wellFormed hid] }
  exact ⟨hshowing, hg.live, hg.parent?, fun x hx ↦ hg.children x (hne hx)⟩

theorem restoreWithin (n : Nat) (h : Showing d S t) (hid : id ∈ t.live)
    (hbelow : ∀ x, t.Above id x → ¬ S x) (hn : t.size ≤ n + t.depth id) :
    Showing d (fun x ↦ S x ∨ (Tree.restoreWithin n t id).Above id x) (Tree.restoreWithin n t id) ∧
      Grows S t (Tree.restoreWithin n t id) := by
  induction n generalizing S t id with
  | zero =>
    have := h.wellFormed.depth_lt (h.wellFormed.live_lt hid)
    omega
  | succ n ih =>
    obtain ⟨h₁, hg₁⟩ := h.restoreAll hd w hid (hbelow id .refl)
    rw [Tree.restoreWithin]
    generalize t.restoreAll id = t₁ at h₁ hg₁
    have hid₁ := hg₁.live id hid
    -- the children that have had their turns, with all below them
    have hrun : Showing d (fun x ↦ (S x ∨ x = id) ∨ ∃ c ∈ t₁.children id,
          ((t₁.children id).foldl (Tree.restoreWithin n) t₁).Above c x)
        ((t₁.children id).foldl (Tree.restoreWithin n) t₁) ∧
        Grows (fun x ↦ S x ∨ x = id) t₁ ((t₁.children id).foldl (Tree.restoreWithin n) t₁) := by
      refine foldl_induction (P := fun pre u ↦
        Showing d (fun x ↦ (S x ∨ x = id) ∨ ∃ c ∈ pre, u.Above c x) u ∧
          Grows (fun x ↦ S x ∨ x = id) t₁ u)
        ⟨h₁.congr fun x ↦ (or_iff_left (by simp)).symm, .refl _ _⟩
        fun pre c post u hsplit ⟨hu, hgu⟩ ↦ ?_
      have wu := hu.wellFormed
      have hchildren : u.children id = pre ++ c :: post :=
        (hgu.children id (.inr rfl)).trans hsplit
      have hc : c ∈ u.children id := hchildren ▸ List.mem_append_right pre List.mem_cons_self
      have hparent := wu.mem_children.1 hc
      have hcl := wu.child_live (hgu.live id hid₁) hc
      have hclosed : ∀ x, u.Above c x → ¬ ((S x ∨ x = id) ∨ ∃ c ∈ pre, u.Above c x) := by
        rintro x hx ((hS | rfl) | ⟨c', hc', hx'⟩)
        · have hxid : u.Above id x := hx.head (show u.IsParent id c from hparent)
          rw [hgu.above_iff h₁.wellFormed (hg₁.live x (h.live x hS)),
            hg₁.above_iff h.wellFormed (h.live x hS)] at hxid
          exact hbelow x hxid hS
        · exact (wu.apart_of_split hchildren hx).1 rfl
        · exact (wu.apart_of_split hchildren hx).2 c' hc' hx'
      have hfuel : u.size ≤ n + u.depth c := by
        have hdepth := hgu.depth_eq h₁.wellFormed wu hid₁
        have hdepth₁ := hg₁.depth_eq h.wellFormed h₁.wellFormed hid
        have hdc := wu.depth_of_parent hparent
        have hsize := hu.size.trans h.size.symm
        omega
      obtain ⟨hv, hgv⟩ := ih hu hcl hclosed hfuel
      have hpre (x : NodeId) : (∃ c' ∈ pre, u.Above c' x) ↔
          ∃ c' ∈ pre, (Tree.restoreWithin n u c).Above c' x :=
        exists_congr fun c' ↦ and_congr_right fun hc' ↦
          (hgv.above_iff_of_kept wu hv.wellFormed fun y hy ↦ .inr ⟨c', hc', hy⟩).symm
      refine ⟨hv.congr fun x ↦ ?_, hgu.trans hgv fun x hx ↦ .inl hx⟩
      simp only [hpre, List.mem_append, List.mem_singleton, or_and_right, exists_or,
        exists_eq_left, or_assoc]
    obtain ⟨hv, hgv⟩ := hrun
    refine ⟨hv.congr fun x ↦ ?_, hg₁.trans hgv fun x hx ↦ .inl hx⟩
    rw [or_assoc, hv.wellFormed.above_iff_children, hgv.children id (.inr rfl)]

end Showing

section Shown

variable (h : Showing d (· ∈ t.live) t) (hd : Custody [] d)
include h hd

/-- Of all that is reached only stand-ins are not shown. -/
theorem live_or_away (hx : d.Reaches root x) : x ∈ t.live ∨ d.mark x = .movedAway := by
  induction hx with
  | refl => exact .inl h.wellFormed.root_mem_live
  | @tail q x _ hqx ih =>
    rcases ih with hq | hq
    · refine or_iff_not_imp_right.2 fun haway ↦ h.wellFormed.child_live hq ?_
      rcases hqx with hx | hx
      · exact (List.mem_filter.1 (h.children q hq ▸ hx)).1
      · exact (h.shown q hq x hx).2 fun hdropped ↦ haway hdropped.2
    · obtain ⟨hch, hpl⟩ := hd.bare q hq
      rw [Holds, hch, hpl] at hqx
      rcases hqx with hx | hx <;> cases hx

variable (hu : Underway [] d)
include hu

theorem mem_live_of_shown (hp : p ∈ d.placeholders q)
    (hout : ¬ ((∃ a, t.Above a q ∧ d.mark a = .movedHere) ∧ d.mark p = .movedAway)) :
    p ∈ t.live := by
  obtain ⟨r, hr, hreach⟩ := hu.held q (Holds.lt (.inr hp))
  rw [List.mem_singleton.1 hr] at hreach
  have hq : q ∈ t.live := by
    refine (live_or_away h hd hreach).resolve_right fun haway ↦ ?_
    rw [(hd.bare q haway).2] at hp
    cases hp
  exact h.wellFormed.child_live hq ((h.shown q hq p hp).2 hout)

theorem not_mem_live_of_dropped (hp : p ∈ d.placeholders q)
    (hin : (∃ a, t.Above a q ∧ d.mark a = .movedHere) ∧ d.mark p = .movedAway) : p ∉ t.live := by
  intro hl
  obtain ⟨htop, hr, -⟩ := hd.detached q p hp
  obtain ⟨q', hq', hql⟩ := h.wellFormed.exists_parent_of_live hl hr
  have hc := h.wellFormed.mem_children.2 hq'
  rcases h.child hc with hc' | ⟨-, hc'⟩
  · rw [hu.wellFormed.mem_children.1 hc'] at htop
    cases htop
  · obtain rfl := hd.unique q q' p hp hc'
    exact (h.shown q hql p hp).1 hc hin

theorem children_withoutGone (hs : Spared [] d) (hx : x ∈ d.live) (hxt : x ∈ t.live) :
    t.withoutGone.children x = d.children x := by
  rw [(withoutGone_spec h.wellFormed).2.2.2, ← h.children x hxt]
  refine List.filter_congr fun c hc ↦ ?_
  rw [decide_eq_decide, List.mem_filter, isGone, h.mark, Bool.or_eq_true, beq_iff_eq, beq_iff_eq]
  refine not_congr ⟨fun ⟨_, hgone⟩ ↦ ?_, fun hp ↦ ⟨h.wellFormed.child_live hxt hc, hd.gone x c hp⟩⟩
  refine (h.child hc).elim (fun hc ↦ ?_) And.right
  -- what is live has neither mark
  rcases hgone with hm | hm
  · have hspared := hs root List.mem_cons_self c
      (hu.wellFormed.mem_live.1 (hu.wellFormed.child_live hx hc))
    rw [hm] at hspared
    cases hspared
  · obtain ⟨q, hq⟩ := hd.kept c hm
    have htop := (hd.detached q c hq).1
    rw [hu.wellFormed.mem_children.1 hc] at htop
    cases htop

end Shown

/-- The tree `e` shows what `d` is and what it keeps. -/
structure Shows (d e : Tree) : Prop where
  live : e.withoutGone.live = d.live
  children : ∀ x ∈ d.live, e.withoutGone.children x = d.children x
  content : ∀ x, e.content x = d.content x ∧ e.withoutGone.content x = d.content x
  mark : ∀ x, e.mark x = d.mark x ∧ e.withoutGone.mark x = d.mark x
  deleted : ∀ x, d.mark x = .deleted → e.live.count x = 1
  kept : ∀ p, d.mark p = .movedAway → ∃! q, p ∈ d.placeholders q
  /-- A stand-in is shown, unless it is kept inside a subtree that was moved. -/
  movedAway : ∀ q, ∀ p ∈ d.placeholders q, d.mark p = .movedAway →
    (¬ ∃ a, e.Above a q ∧ e.mark a = .movedHere) → e.live.count p = 1
  dropped : ∀ q, ∀ p ∈ d.placeholders q, d.mark p = .movedAway →
    (∃ a, e.Above a q ∧ e.mark a = .movedHere) → e.live.count p = 0

theorem shows_resolvePlaceholders (hd : Custody [] d) (hu : Underway [] d) (hs : Spared [] d) :
    Shows d d.resolvePlaceholders := by
  have w := hu.wellFormed
  obtain ⟨h, hg⟩ := (Showing.start w).restoreWithin hd w d.size w.root_mem_live
    (fun _ _ ↦ id) (Nat.le_add_right _ _)
  rw [resolvePlaceholders]
  generalize Tree.restoreWithin d.size d root = e at h hg
  have h : Showing d (· ∈ e.live) e := h.congr fun x ↦ by
    rw [false_or, h.wellFormed.mem_live]
  have we := h.wellFormed
  -- a live node is listed just once
  have hone {x : NodeId} (hx : x ∈ e.live) : e.live.count x = 1 :=
    List.count_eq_one_of_mem we.nodup_live hx
  obtain ⟨-, hsize, hdata, -⟩ := withoutGone_spec we
  have hchildren {x : NodeId} (hx : x ∈ d.live) := children_withoutGone h hd hu hs hx (hg.live x hx)
  exact {
    live := by
      rw [Tree.live, preorder, hsize, h.size]
      exact w.preorderWithin_congr (fun y hy ↦ hchildren (w.mem_live.2 hy)) d.size
    children x := hchildren
    content x := ⟨h.content x, (hdata.content x).trans (h.content x)⟩
    mark x := ⟨h.mark x, (hdata.mark x).trans (h.mark x)⟩
    deleted x hx := by
      have hlt : x < d.size := lt_size_of_mark (by simp [hx])
      obtain ⟨r, hr, hreach⟩ := hu.held x hlt
      rw [List.mem_singleton.1 hr] at hreach
      refine hone ((live_or_away h hd hreach).resolve_right fun haway ↦ ?_)
      rw [hx] at haway
      cases haway
    kept p hp := by
      obtain ⟨q, hq⟩ := hd.kept p hp
      exact ⟨q, hq, fun q' hq' ↦ hd.unique q' q p hq' hq⟩
    movedAway q p hp hm hout := by
      refine hone (mem_live_of_shown h hd hu hp fun hin ↦ hout ?_)
      simpa only [h.mark] using hin.1
    dropped q p hp hm hin := by
      refine List.count_eq_zero_of_not_mem (not_mem_live_of_dropped h hd hu hp ⟨?_, hm⟩)
      simpa only [h.mark] using hin }

/-- Whatever a script does, all that its tree keeps can be shown without a loss. -/
theorem shows_patch {s : Script} (w : t.WellFormed)
    (hpayload : ∀ c ∈ s, ∀ u, c.payload = some u → u.WellFormed) (h : patch t s = .ok d) :
    Shows d d.resolvePlaceholders := by
  have hp := (placing_of_patch w hpayload h).1
  exact shows_resolvePlaceholders hp.toCustody hp.toUnderway hp.spared

def loopAfterChoose : Tree :=
  .ofList { label := "description" }
    [(0, { label := "choose" }), (0, { label := "loop" }), (2, { label := "call" }),
      (2, { label := "critical" }), (4, { label := "call" })]

def loopIntoChoose : Script :=
  [{ kind := .move, old := some [1], new := some [0, 0] },
    { kind := .move, old := some [1, 0], new := some [1] },
    { kind := .move, old := some [1, 1, 0], new := some [2] },
    { kind := .subtreeDeletion, old := some [1, 1] }]

theorem shows_loopIntoChoose :
    ∃ d, patch loopAfterChoose loopIntoChoose = .ok d ∧ Shows d d.resolvePlaceholders := by
  have w : loopAfterChoose.WellFormed := wellFormed_ofList _ _ (by decide)
  have hpayload : ∀ c ∈ loopIntoChoose, ∀ u, c.payload = some u → u.WellFormed := by
    intro c hc u hu
    simp only [loopIntoChoose, List.mem_cons, List.not_mem_nil, or_false] at hc
    rcases hc with rfl | rfl | rfl | rfl <;> cases hu
  have hok : (patch loopAfterChoose loopIntoChoose).toOption.isSome = true := by decide +kernel
  cases h : patch loopAfterChoose loopIntoChoose with
  | error e =>
    rw [h] at hok
    cases hok
  | ok d => exact ⟨d, rfl, shows_patch w hpayload h⟩

end Script

end FlowMerge
