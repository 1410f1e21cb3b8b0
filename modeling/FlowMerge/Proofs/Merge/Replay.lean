import FlowMerge.Proofs.Merge.Placement
import FlowMerge.Proofs.Merge.Siblings

namespace FlowMerge.Merge

open FlowMerge.Tree

variable {base source u v : Tree} {start m m' : Merge} {matching : Matching} {seen : List NodeId}
  {a s t x p q ps tp : NodeId} {n : Nat} {up k : NodeId → Option NodeId}

/-- Whether a node of branch A has its place in the target: it had its turn, or was not moved. -/
def settled (n : Nat) (source : Tree) (seen : List NodeId) (x : NodeId) : Bool :=
  seen.contains x || remains n source x

def standsFor? (n : Nat) (source : Tree) (m : Matching) (seen : List NodeId) (t : NodeId) :
    Option NodeId := (m.new? t).filter (settled n source seen)

theorem settled_snoc (n : Nat) (source : Tree) (seen : List NodeId) (s : NodeId) :
    settled n source (seen ++ [s]) = fun x ↦ settled n source seen x || x == s := by
  funext x
  rw [settled, settled, Bool.eq_iff_iff]
  simp only [Bool.or_eq_true, List.contains_iff_mem, List.mem_append, List.mem_singleton,
    beq_iff_eq]
  exact or_right_comm

theorem settled_of_mem (h : x ∈ seen) : settled n source seen x = true := by
  rw [settled, List.contains_iff_mem.2 h, Bool.true_or]

theorem standsFor?_eq_some : standsFor? n source matching seen t = some x ↔
    matching.new? t = some x ∧ settled n source seen x = true := Option.filter_eq_some_iff

theorem standsFor?_last (h : matching.new? t = some s) :
    standsFor? n source matching (seen ++ [s]) t = some s :=
  standsFor?_eq_some.2 ⟨h, settled_of_mem (List.mem_append_right seen List.mem_cons_self)⟩

theorem standsFor?_snoc (h : matching.new? t ≠ some s) :
    standsFor? n source matching (seen ++ [s]) t = standsFor? n source matching seen t := by
  rw [standsFor?, standsFor?, settled_snoc]
  cases hx : matching.new? t with
  | none => rfl
  | some x =>
    have hxs : x ≠ s := by
      rintro rfl
      exact h hx
    rw [Option.filter_some, Option.filter_some, beq_false_of_ne hxs, Bool.or_false]

theorem Edited.childless (hA : Edited n base source) (hd : source.Due seen s)
    (hup : ∀ x p, base.parent? x = some p → p < n) (hns : n ≤ s) :
    (source.children s).filter (settled n source (seen ++ [s])) = [] := by
  have ws := hA.wellFormed
  refine List.filter_eq_nil_iff.2 fun c hc ↦ ?_
  have hsc := ws.mem_children.1 hc
  have hcs := (ws.parent_ne hsc).symm
  rw [settled_snoc]
  beta_reduce
  rw [beq_false_of_ne hcs, Bool.or_false, settled, Bool.or_eq_true, List.contains_iff_mem]
  rintro (hseen | hrem)
  · exact hd.below c hseen (.single hsc)
  · have hlt := hA.parent_lt_of_remains hup (ws.child_live hd.live hc) hrem hsc
    exact Nat.not_lt_of_le hns hlt

/-- What holds of a merge into an untouched branch, when the source nodes in `seen` had their
turns. -/
structure Replayed (n : Nat) (up : NodeId → Option NodeId) (start : Merge) (seen : List NodeId)
    (m : Merge) : Prop extends Placed n up start seen m where
  pending : m.conflicts.pending = []
  dropped : m.dropped = []
  closed : ∀ x ∈ seen, ∀ p, start.source.parent? x = some p → p = root ∨ p ∈ seen
  tied : ∀ x, (∃ t, m.matching.old? x = some t) ↔
    x ∈ start.source.live ∧ (x < n ∨ x ∈ seen)
  onto : ∀ t, n ≤ t → t < m.target.size → ∃ x, m.matching.old? x = some t
  lined : ∀ p q, m.matching.old? p = some q → Lined start.source (settled n start.source seen)
    (standsFor? n start.source m.matching seen) m.target p q
  unmarked : ∀ x < n, x ∉ seen → m.target.mark x = .unchanged
  updates : ∀ x < n, ∃ y, m.target.delta? x = some y ∧ y.updates = []
  content : ∀ x < n, m.target.content x = start.target.content x
  copies : ∀ x t, n ≤ x → m.matching.old? x = some t →
    m.target.content t = start.source.content x

namespace Replayed

section Start

variable (hA : Edited n base start.source) (hT : Untouched n base start.target)
  (ha : Aligned n start.source start.target start.matching)
include hA hT ha

theorem eq_of_start (hxt : start.matching.old? x = some t) : x = t ∧ x < n := by
  have hb := ha.base x t hxt
  rw [hT.branch.base?, if_pos ((hT.live t).1 (ha.live x t hxt).2)] at hb
  exact (base?_eq_some hA.toBranch).1 hb

omit hA in
theorem old?_start (hx : x ∈ start.source.live) (hxn : x < n) :
    start.matching.old? x = some x := ha.known x hxn hx ((hT.live x).2 hxn)

theorem standsFor?_start (hq : q < n) : standsFor? n start.source start.matching [] q =
    if (start.source.live.contains q && start.source.mark q != .movedHere) = true
    then some q else none := by
  have hok : settled n start.source [] = remains n start.source := rfl
  split
  · next hrem =>
    rw [Bool.and_eq_true, List.contains_iff_mem] at hrem
    rw [standsFor?_eq_some, hok, remains, decide_eq_true hq, Bool.true_and]
    exact ⟨(ha.oneToOne q q).1 (old?_start hT ha hrem.1 hq), hrem.2⟩
  · next hrem =>
    rw [Option.eq_none_iff_forall_ne_some]
    intro x hx
    obtain ⟨hnew, hsx⟩ := standsFor?_eq_some.1 hx
    have hxq := (ha.oneToOne x q).2 hnew
    obtain ⟨rfl, -⟩ := eq_of_start hA hT ha hxq
    rw [hok, remains, Bool.and_eq_true] at hsx
    exact hrem (by rw [hsx.2, List.contains_iff_mem.2 (ha.live x x hxq).1]; rfl)

theorem lined_start (hpq : start.matching.old? p = some q) :
    Lined start.source (settled n start.source [])
      (standsFor? n start.source start.matching []) start.target p q := by
  obtain ⟨rfl, hpn⟩ := eq_of_start hA hT ha hpq
  have hstands : ∀ c ∈ base.children p, standsFor? n start.source start.matching [] c =
      if (start.source.live.contains c && start.source.mark c != .movedHere) = true
      then some c else none := by
    intro c hc
    rw [← hT.shape.children] at hc
    exact standsFor?_start hA hT ha (hT.size ▸ hT.wellFormed.child_lt hc)
  have hok : settled n start.source [] = remains n start.source := rfl
  rw [Lined, hT.shape.children, hok, hA.order p (ha.live p p hpq).1 hpn,
    List.filterMap_congr hstands]
  exact congrFun List.filterMap_eq_filter (base.children p)

theorem refl (hpending : start.conflicts.pending = []) (hdropped : start.dropped = []) :
    Replayed n base.parent? start [] start :=
  { Placed.refl hT.branch ha with
    pending := hpending
    dropped := hdropped
    closed x hx := absurd hx List.not_mem_nil
    tied x := by
      constructor
      · rintro ⟨t, ht⟩
        exact ⟨(ha.live x t ht).1, .inl (eq_of_start hA hT ha ht).2⟩
      · rintro ⟨hx, hxn⟩
        exact ⟨x, old?_start hT ha hx (hxn.resolve_right List.not_mem_nil)⟩
    onto t hle ht := absurd (hT.size ▸ ht) (Nat.not_lt_of_le hle)
    lined p q hpq := lined_start hA hT ha hpq
    unmarked x hx _ := hT.mark hx
    updates x hx := by
      obtain ⟨y, hy, -, -, hu⟩ := hT.blank x hx
      exact ⟨y, hy, hu⟩
    content _ _ := rfl
    copies x t hle hxt :=
      absurd (eq_of_start hA hT ha hxt).2 (Nat.not_lt_of_le hle) }

end Start

variable (h : Replayed n base.parent? start seen m) (hA : Edited n base start.source)
include h hA

theorem eq_of_lt (hxt : m.matching.old? x = some t) (hx : x < n) : t = x :=
  h.aligned.eq_of_lt hA.toBranch h.branch hxt hx

theorem old?_of_lt (hx : x ∈ start.source.live) (hxn : x < n) : m.matching.old? x = some x := by
  obtain ⟨t, ht⟩ := (h.tied x).2 ⟨hx, .inl hxn⟩
  rw [ht, h.eq_of_lt hA ht hxn]

theorem parent? (hx : settled n start.source seen x = true) (hxt : m.matching.old? x = some t)
    (hp : start.source.parent? x = some p) (hpq : m.matching.old? p = some q) :
    m.target.parent? t = some q := by
  obtain ⟨t', ht', hst⟩ := (h.lined p q hpq).exists_child (hA.wellFormed.mem_children.2 hp) hx
  have hold := (h.aligned.oneToOne x t').2 (standsFor?_eq_some.1 hst).1
  obtain rfl := Option.some_inj.1 (hxt.symm.trans hold)
  exact h.branch.wellFormed.mem_children.1 ht'

theorem exists_old?_parent (hx : x ∈ start.source.live) (hp : start.source.parent? x = some p)
    (hseen : p = root ∨ p ∈ seen) : ∃ q, m.matching.old? p = some q := by
  refine (h.tied p).2 ⟨hA.wellFormed.parent_live hx hp, ?_⟩
  rcases hseen with rfl | hseen
  · exact .inl hA.root_lt
  · exact .inr hseen

/-- Above a node whose ancestors had their turns there are only nodes that stand for these. -/
theorem above (hx : ∀ z, start.source.Above z x → z = root ∨ z ∈ seen)
    (hxt : m.matching.old? x = some t) (ha : m.target.Above a t) :
    ∃ z, start.source.Above z x ∧ m.matching.old? z = some a := by
  have w := hA.wellFormed
  induction x using w.up_induction generalizing t with
  | h x ih =>
    rcases above_iff.1 ha with rfl | ⟨q, hq, haq⟩
    · exact ⟨x, .refl, hxt⟩
    · have hxl := ((h.tied x).1 ⟨t, hxt⟩).1
      cases hp : start.source.parent? x with
      | none =>
        obtain rfl := above_of_top hp (w.mem_live.1 hxl)
        obtain rfl := h.eq_of_lt hA hxt hA.root_lt
        rw [h.branch.wellFormed.root_top] at hq
        cases hq
      | some p =>
        obtain ⟨q', hpq⟩ := h.exists_old?_parent hA hxl hp (hx p (.single hp))
        have hseen := (hx x .refl).resolve_left (w.child_ne_root hp)
        have hpar := h.parent? hA (settled_of_mem hseen) hxt hp hpq
        obtain rfl := Option.some_inj.1 (hpar.symm.trans hq)
        obtain ⟨z, hzp, hz⟩ := ih p hp (fun z hz ↦ hx z (hz.tail hp)) hpq haq
        exact ⟨z, hzp.tail hp, hz⟩

theorem exists_parent_of_due (hd : start.source.Due seen s)
    (hs : start.source.parent? s = some ps) : ∃ tp, m.matching.old? ps = some tp := by
  exact h.exists_old?_parent hA hd.live hs
    (hd.above ps (.single hs) (hA.wellFormed.parent_ne hs))

/-- A node whose turn has come has no descendants above the place it goes to. -/
theorem free (hd : start.source.Due seen s) (hs : start.source.parent? s = some ps)
    (hold : m.matching.old? s = some t) (habove : m.matching.old? ps = some tp) :
    m.target.isAncestorOrSelf t tp = false := by
  have w := hA.wellFormed
  rw [Bool.eq_false_iff, ne_eq, h.branch.wellFormed.isAncestorOrSelf_iff]
  intro ha
  obtain ⟨z, hz, hzt⟩ := h.above hA (fun z hz ↦ hd.above z (hz.tail hs) (by
    rintro rfl
    exact w.not_above_of_parent hs hz)) habove ha
  obtain rfl := h.aligned.oneToOne.new_inj hzt hold
  exact w.not_above_of_parent hs hz

theorem earlier (hd : start.source.Due seen s) (hs : start.source.parent? s = some ps)
    (habove : m.matching.old? ps = some tp) (hx : start.source.parent? x = some ps)
    (hlt : start.source.position x < start.source.position s) :
    ∃ t, m.matching.old? x = some t ∧ m.target.parent? t = some tp ∧
      standsFor? n start.source m.matching seen t = some x := by
  have w := hA.wellFormed
  have hseen := hd.earlier ps x hs hx hlt
  have hxl := w.child_live (w.parent_live hd.live hs) (w.mem_children.2 hx)
  obtain ⟨t, ht⟩ := (h.tied x).2 ⟨hxl, .inr hseen⟩
  exact ⟨t, ht, h.parent? hA (settled_of_mem hseen) ht hx habove,
    standsFor?_eq_some.2 ⟨(h.aligned.oneToOne x t).1 ht, settled_of_mem hseen⟩⟩

omit hA in
theorem counterpart_iff (habove : m.matching.old? ps = some tp)
    (hpq : m.matching.old? p = some q) : q = tp ↔ p = ps := by
  constructor
  · rintro rfl
    exact h.aligned.oneToOne.new_inj hpq habove
  · rintro rfl
    exact Option.some_inj.1 (hpq.symm.trans habove)

omit hA in
theorem closed_snoc (hd : start.source.Due seen s) : ∀ x ∈ seen ++ [s], ∀ p,
    start.source.parent? x = some p → p = root ∨ p ∈ seen ++ [s] := by
  intro x hx p hp
  rcases List.mem_append.1 hx with hx | hx
  · exact (h.closed x hx p hp).imp_right (List.mem_append_left _)
  · obtain rfl := List.mem_singleton.1 hx
    by_cases hpx : p = x
    · exact .inr (hpx ▸ List.mem_append_right _ List.mem_cons_self)
    · exact (hd.above p (.single hp) hpx).imp_right (List.mem_append_left _)

omit hA in
theorem tied_snoc (hsn : s < n) (x : NodeId) : (∃ t, m.matching.old? x = some t) ↔
    x ∈ start.source.live ∧ (x < n ∨ x ∈ seen ++ [s]) := by
  rw [h.tied]
  refine and_congr_right fun _ ↦ ⟨Or.imp_right (List.mem_append_left _), ?_⟩
  rintro (hx | hx)
  · exact .inl hx
  · rcases List.mem_append.1 hx with hx | hx
    · exact .inr hx
    · exact .inl (List.mem_singleton.1 hx ▸ hsn)

omit hA in
theorem tied_link (hd : start.source.Due seen s) (hfree : m.matching.old? s = none) (x : NodeId) :
    (∃ t, (m.matching.link s m.target.size).old? x = some t) ↔
      x ∈ start.source.live ∧ (x < n ∨ x ∈ seen ++ [s]) := by
  rw [List.mem_append, List.mem_singleton, ← or_assoc, and_or_left, ← h.tied]
  constructor
  · rintro ⟨t, ht⟩
    rcases (h.aligned.old?_link h.branch.wellFormed hfree).1 ht with ⟨rfl, -⟩ | ht
    · exact .inr ⟨hd.live, rfl⟩
    · exact .inl ⟨t, ht⟩
  · rintro (⟨t, ht⟩ | ⟨-, rfl⟩)
    · exact ⟨t, (h.aligned.old?_link h.branch.wellFormed hfree).2 (.inr ht)⟩
    · exact ⟨m.target.size, (h.aligned.old?_link h.branch.wellFormed hfree).2 (.inl ⟨rfl, rfl⟩)⟩

omit hA in
theorem onto_link (hfree : m.matching.old? s = none) {t : NodeId} (hnt : n ≤ t)
    (ht : t < m.target.size + 1) :
    ∃ x, (m.matching.link s m.target.size).old? x = some t := by
  by_cases hts : t = m.target.size
  · exact ⟨s, (h.aligned.old?_link h.branch.wellFormed hfree).2 (.inl ⟨rfl, hts⟩)⟩
  · obtain ⟨x, hx⟩ := h.onto t hnt (Nat.lt_of_le_of_ne (Nat.le_of_lt_succ ht) hts)
    exact ⟨x, (h.aligned.old?_link h.branch.wellFormed hfree).2 (.inr hx)⟩

omit hA in
theorem standsFor?_link (hfree : m.matching.old? s = none) (hx : x ≠ m.target.size) :
    standsFor? n start.source (m.matching.link s m.target.size) (seen ++ [s]) x =
      standsFor? n start.source m.matching seen x := by
  have hsame := Matching.new?_link_of_free hfree hx
  rw [standsFor?_snoc, standsFor?, hsame, standsFor?]
  rw [hsame]
  intro hxs
  rw [(h.aligned.oneToOne s x).2 hxs] at hfree
  cases hfree

omit hA in
theorem keep (hp : Placed n base.parent? start (seen ++ [s]) m') (hd : start.source.Due seen s)
    (hq : Quiet m m') (hcalm : m'.conflicts.pending = m.conflicts.pending)
    (hs : remains n start.source s = true) : Replayed n base.parent? start (seen ++ [s]) m' := by
  have hsn : s < n := by
    rw [remains, Bool.and_eq_true, decide_eq_true_iff] at hs
    exact hs.1
  -- `s` was settled before its turn: it is a base node that stays where it is
  have hsame : settled n start.source (seen ++ [s]) = settled n start.source seen := by
    rw [settled_snoc]
    funext x
    by_cases hx : x = s
    · rw [hx, settled, hs, Bool.or_true, Bool.true_or]
    · rw [beq_false_of_ne hx, Bool.or_false]
  exact { hp with
    pending := hcalm.trans h.pending
    dropped := hq.dropped.trans h.dropped
    closed := h.closed_snoc hd
    tied x := hq.matching ▸ h.tied_snoc hsn x
    onto t hle ht := by
      rw [hq.matching]
      exact h.onto t hle (hq.alike.size ▸ ht)
    lined p q hpq := by
      rw [hq.matching] at hpq ⊢
      have hstands : standsFor? n start.source m.matching (seen ++ [s]) =
          standsFor? n start.source m.matching seen := by
        funext t
        rw [standsFor?, hsame, standsFor?]
      rw [Lined, hsame, hstands, hq.alike.children]
      exact h.lined p q hpq
    unmarked x hx hnot := by
      rw [hq.alike.mark]
      exact h.unmarked x hx fun hseen ↦ hnot (List.mem_append_left _ hseen)
    updates x hx := hq.alike.delta? x ▸ h.updates x hx
    content x hx := (hq.alike.content x).trans (h.content x hx)
    copies x t hle hxt := by
      rw [hq.matching] at hxt
      rw [hq.alike.content]
      exact h.copies x t hle hxt }

/-- The nodes stay in line when `a` takes the place of a node whose turn has come. The tree `v` is
the target just before that. -/
theorem line_up (hd : start.source.Due seen s) (hrem : remains n start.source s = false)
    (hs : start.source.parent? s = some ps) (habove : m.matching.old? ps = some tp)
    (wv : v.WellFormed) (hv : v.children tp = (m.target.children tp).filter (· != a))
    (hparent : ∀ x ≠ a, v.parent? x = m.target.parent? x)
    (hu : ∀ x, u.children x = if x = tp then
      ((m.target.children tp).filter (· != a)).insertIdx ({ m with target := v }.targetIndex s tp) a
      else (m.target.children x).filter (· != a))
    (hka : k a = some s) (hga : standsFor? n start.source m.matching seen a = none)
    (hkg : ∀ x ≠ a, k x = standsFor? n start.source m.matching seen x)
    (hpq : m.matching.old? p = some q) :
    Lined start.source (settled n start.source (seen ++ [s])) k u p q := by
  have ws := hA.wellFormed
  have hunsettled : settled n start.source seen s = false := by
    rw [settled, hrem, Bool.or_false, Bool.eq_false_iff, ne_eq, List.contains_iff_mem]
    exact hd.unseen
  have hearlier : ∀ b, start.source.parent? b = some ps →
      start.source.position b < start.source.position s → ∃ t, m.matching.old? b = some t ∧
        v.parent? t = some tp ∧ standsFor? n start.source m.matching seen t = some b := by
    intro b hb hpos
    obtain ⟨t, ht, hpar, hst⟩ := h.earlier hA hd hs habove hb hpos
    refine ⟨t, ht, (hparent t ?_).trans hpar, hst⟩
    rintro rfl
    rw [hga] at hst
    cases hst
  have hlast := getLast?_take_targetIndex (m := { m with target := v }) h.source wv ws hs hearlier
  have hle := targetIndex_le (m := { m with target := v }) wv s tp
  dsimp only at hlast hle
  rw [hv] at hlast hle
  rw [settled_snoc]
  exact (h.lined p q hpq).insert ws hu hs hunsettled
    (fun b hb hpos ↦ settled_of_mem (hd.earlier ps b hs hb hpos)) hka hga hkg hle hlast
    (h.counterpart_iff habove hpq)

theorem shift (hp : Placed n base.parent? start (seen ++ [s]) m') (hd : start.source.Due seen s)
    (hq : Quiet (m.shift s s tp) m') (hcalm : m'.conflicts.pending = m.conflicts.pending)
    (hmark : start.source.mark s = .movedHere) (hsn : s < n)
    (hs : start.source.parent? s = some ps) (habove : m.matching.old? ps = some tp) :
    Replayed n base.parent? start (seen ++ [s]) m' := by
  have w := h.branch.wellFormed
  have hold := h.old?_of_lt hA hd.live hsn
  have hnew := (h.aligned.oneToOne s s).1 hold
  have hmoved := moved_shift hq w (h.aligned.live s s hold).2 hd.ne_root
    (h.aligned.live ps tp habove).2 (h.free hA hd hs hold habove)
  have hmatching : m'.matching = m.matching := hq.matching
  have hrem : remains n start.source s = false := by
    rw [remains, hmark]
    exact Bool.and_false _
  -- before its turn `s` does not count, so that nothing stands for it yet
  have hga : standsFor? n start.source m.matching seen s = none := by
    rw [standsFor?, hnew, Option.filter_some, settled, hrem, Bool.or_false, if_neg]
    rw [List.contains_iff_mem]
    exact hd.unseen
  have hkg : ∀ x ≠ s, standsFor? n start.source m.matching (seen ++ [s]) x =
      standsFor? n start.source m.matching seen x := by
    intro x hx
    refine standsFor?_snoc fun hxs ↦ hx ?_
    exact h.aligned.oneToOne.old_inj hxs hnew
  exact { hp with
    pending := hcalm.trans h.pending
    dropped := hq.dropped.trans h.dropped
    closed := h.closed_snoc hd
    tied x := hmatching ▸ h.tied_snoc hsn x
    onto t hnt ht := by
      rw [hmatching]
      exact h.onto t hnt (hmoved.size ▸ ht)
    lined p q hpq := by
      rw [hmatching] at hpq ⊢
      exact h.line_up hA hd hrem hs habove (w.detach s) (w.children_detach s tp)
        (fun x hx ↦ (w.parent?_detach s x).trans (if_neg hx)) hmoved.children (standsFor?_last hnew)
        hga hkg hpq
    unmarked x hx hnot := by
      have hxs : x ≠ s := fun he ↦ hnot (he ▸ List.mem_append_right seen List.mem_cons_self)
      rw [mark, hmoved.delta?, if_neg hxs]
      exact h.unmarked x hx fun hseen ↦ hnot (List.mem_append_left _ hseen)
    updates x hx := by
      obtain ⟨y, hy, hu⟩ := h.updates x hx
      rw [hmoved.delta?, hy]
      split
      · exact ⟨_, rfl, hu⟩
      · exact ⟨y, rfl, hu⟩
    content x hx := (hmoved.content x).trans (h.content x hx)
    copies x t hnx hxt := by
      rw [hmatching] at hxt
      rw [hmoved.content]
      exact h.copies x t hnx hxt }

/-- The nodes stay in line when an insertion comes below the counterpart of its parent. -/
theorem lined_graft (hadded : Added (m.source.content s) tp (m.slotOfCopy s tp) m.target u)
    (hd : start.source.Due seen s) (hup : ∀ x p, base.parent? x = some p → p < n) (hns : n ≤ s)
    (hs : start.source.parent? s = some ps) (hold : m.matching.old? s = none)
    (habove : m.matching.old? ps = some tp)
    (hpq : (m.matching.link s m.target.size).old? p = some q) :
    Lined start.source (settled n start.source (seen ++ [s]))
      (standsFor? n start.source (m.matching.link s m.target.size) (seen ++ [s])) u p q := by
  have w := h.branch.wellFormed
  have htpl := (h.aligned.live ps tp habove).2
  have hrem : remains n start.source s = false := by
    rw [remains, decide_eq_false (Nat.not_lt_of_le hns), Bool.false_and]
  have hnew : (m.matching.link s m.target.size).new? m.target.size = some s := by
    rw [Matching.new?_link, if_pos rfl]
  have hga : standsFor? n start.source m.matching seen m.target.size = none := by
    rw [standsFor?, h.aligned.not_tied w]
    rfl
  have hstay (x : NodeId) :
      (m.target.children x).filter (· != m.target.size) = m.target.children x := by
    refine w.filter_ne_of_parent? fun hx ↦ ?_
    rw [parent?_of_size_le (Nat.le_refl _)] at hx
    cases hx
  rcases (h.aligned.old?_link w hold).1 hpq with ⟨rfl, rfl⟩ | hpq
  · rw [Lined, hA.childless hd hup hns, hadded.children, if_neg (Nat.ne_of_gt (w.live_lt htpl)),
      children_of_size_le (Nat.le_refl _)]
    rfl
  · refine h.line_up hA hd hrem hs habove (wellFormed_copied w s)
      ((children_copied m s tp).trans (hstay tp).symm) (fun x _ ↦ parent?_copied m s x)
      (fun x ↦ ?_) (standsFor?_last hnew) hga (fun x hx ↦ h.standsFor?_link hold hx) hpq
    rw [hadded.children, hstay, hstay]
    rfl

theorem graft (hp : Placed n base.parent? start (seen ++ [s]) m') (hd : start.source.Due seen s)
    (hq : Quiet (m.graft s tp) m') (hcalm : m'.conflicts.pending = m.conflicts.pending)
    (hup : ∀ x p, base.parent? x = some p → p < n) (hns : n ≤ s)
    (hs : start.source.parent? s = some ps) (hold : m.matching.old? s = none)
    (habove : m.matching.old? ps = some tp) :
    Replayed n base.parent? start (seen ++ [s]) m' := by
  have w := h.branch.wellFormed
  have hadded := added_graft hq w (h.aligned.live ps tp habove).2 h.branch.recorded_root
  have hmatching : m'.matching = m.matching.link s m.target.size := hq.matching
  have hnn {x : NodeId} (hx : x < n) : x ≠ m.target.size := Nat.ne_of_lt (h.branch.lt_size hx)
  exact { hp with
    pending := hcalm.trans h.pending
    dropped := hq.dropped.trans h.dropped
    closed := h.closed_snoc hd
    tied x := hmatching ▸ h.tied_link hd hold x
    onto t hnt ht := hmatching ▸ h.onto_link hold hnt (hadded.size ▸ ht)
    lined p q hpq := by
      rw [hmatching] at hpq ⊢
      exact h.lined_graft hA hadded hd hup hns hs hold habove hpq
    unmarked x hx hnot := by
      rw [mark, hadded.delta?, if_neg (hnn hx)]
      exact h.unmarked x hx fun hseen ↦ hnot (List.mem_append_left _ hseen)
    updates x hx := by
      rw [hadded.delta?, if_neg (hnn hx)]
      exact h.updates x hx
    content x hx := by
      rw [hadded.content, if_neg (hnn hx)]
      exact h.content x hx
    copies x t hnx hxt := by
      rw [hmatching] at hxt
      rcases (h.aligned.old?_link w hold).1 hxt with ⟨rfl, rfl⟩ | hxt
      · rw [hadded.content, if_pos rfl, h.source]
      · have hne : t ≠ m.target.size := Nat.ne_of_lt (w.live_lt (h.aligned.live x t hxt).2)
        rw [hadded.content, if_neg hne]
        exact h.copies x t hnx hxt }

theorem turn (hup : ∀ x p, base.parent? x = some p → p < n) (hd : start.source.Due seen s)
    (ht : Turned m s m') : Replayed n base.parent? start (seen ++ [s]) m' := by
  have hp := h.toPlaced.turn hA.toBranch hd.live hd.ne_root hd.unseen ht
  have hlt {t : NodeId} (hold : m.matching.old? s = some t) : t = s ∧ s < n := by
    have hsn := (((h.tied s).1 ⟨t, hold⟩).2).resolve_right hd.unseen
    exact ⟨h.eq_of_lt hA hold hsn, hsn⟩
  -- no turn has touched the mark of `s` yet, as a mark is set at a turn of the node itself
  have hmark (hsn : s < n) : m.target.mark s ≠ .movedHere := by
    rw [h.unmarked s hsn hd.unseen]
    exact nofun
  have hsource := h.source
  cases ht with
  | still q calm why =>
    refine h.keep hp hd q calm ?_
    rw [hsource] at why
    rcases why with hnone | ⟨t, hold, hor⟩
    · obtain ⟨p, hp, -⟩ := hA.wellFormed.exists_parent_of_live hd.live hd.ne_root
      rw [hnone] at hp
      cases hp
    · obtain ⟨rfl, hsn⟩ := hlt hold
      rcases hor with hne | ⟨-, -, -, -, -, hmoved⟩
      · rw [remains, decide_eq_true hsn, Bool.true_and, bne_iff_ne]
        exact hne
      · exact absurd hmoved (hmark hsn)
  | refused t ps q _ parent old why _ =>
    rw [hsource] at parent
    obtain ⟨tp, habove⟩ := h.exists_parent_of_due hA hd parent
    have hcycle := why tp habove
    rw [h.free hA hd parent old habove] at hcycle
    cases hcycle
  | shifted t ps tp q calm mark parent old above _ =>
    rw [hsource] at mark parent
    obtain ⟨rfl, hsn⟩ := hlt old
    exact h.shift hA hp hd q (calm (hmark hsn)) mark hsn parent above
  | grafted ps tp q calm mark parent old above =>
    rw [hsource] at mark parent
    refine h.graft hA hp hd q calm hup ?_ parent old above
    by_contra hsn
    rw [hA.known s hd.live (Nat.lt_of_not_le hsn)] at mark
    cases mark
  | dropped ps q parent old why =>
    rw [hsource] at parent
    rcases why with hps | hnone | ⟨hmark', -⟩
    · rw [h.dropped] at hps
      cases hps
    · obtain ⟨tp, habove⟩ := h.exists_parent_of_due hA hd parent
      rw [habove] at hnone
      cases hnone
    · by_cases hsn : s < n
      · rw [h.old?_of_lt hA hd.live hsn] at old
        cases old
      · rw [hsource, hA.inserted s hd.live (Nat.le_of_not_lt hsn)] at hmark'
        cases hmark'

end Replayed

theorem replayed_mergePlacement (hA : Edited n base start.source)
    (hT : Untouched n base start.target)
    (ha : Aligned n start.source start.target start.matching)
    (hpending : start.conflicts.pending = []) (hdropped : start.dropped = []) :
    Replayed n base.parent? start start.source.live.tail start.mergePlacement := by
  rw [mergePlacement_eq]
  refine foldl_induction (.refl hA hT ha hpending hdropped) fun pre s post m hsplit h ↦ ?_
  exact h.turn hA (fun _ _ hq ↦ hT.parent_lt hq) (hA.wellFormed.due_of_split hsplit)
    (turned_follow _ m s)

end FlowMerge.Merge
