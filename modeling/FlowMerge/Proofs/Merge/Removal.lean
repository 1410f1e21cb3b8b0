import FlowMerge.Merge.Removal
import FlowMerge.Proofs.Merge.Rewriting
import FlowMerge.Proofs.Tree.Order

namespace FlowMerge.Merge

open FlowMerge.Tree

variable {start m m' : Merge} {u u' : Tree} {t p x y : NodeId} {n : Nat}
  {gone pre post : List NodeId} {up : NodeId → Option NodeId}

/-- The tree `u'` is `u` without a node and all below it, which stay in the store. -/
structure Pruned (t : NodeId) (u u' : Tree) : Prop where
  wellFormed : u'.WellFormed
  size : u'.size = u.size
  children : ∀ x, u'.children x = (u.children x).filter (· != t)
  parent? : ∀ x, u'.parent? x = if x = t then none else u.parent? x
  content : ∀ x, u'.content x = u.content x
  base : ∀ x, base? u' x = base? u x
  isNil : ∀ x, ¬ u.Above t x → isNil u' x = isNil u x

def DeletionLogged (m : Merge) (base : Option Path) : Prop :=
  ∃ c ∈ m.conflicts.pending, c.kind = .deletion ∧ c.resolution = .deleted ∧ c.base = base

def condemned (m : Merge) (t : NodeId) : Merge :=
  let changed := m.changedInTarget t
  let m := m.logEdit .delete t
  if changed then
    (m.queue { kind := .deletion, text := "deleted in branch A, changed in branch B",
               path := m.target.path t, resolution := .deleted,
               base := m.basePath? m.target t }).setState t .deleteConflict
  else m.setState t .deleted

theorem quiet_condemned (m : Merge) (t : NodeId) : Quiet m (m.condemned t) := by
  rw [condemned]
  split
  · exact ((Quiet.logEdit m _ t).trans (.queue _ _)).trans (.setState _ t _)
  · exact (Quiet.logEdit m _ t).trans (.setState _ t _)

theorem conflicts_condemned (m : Merge) (t : NodeId) :
    (m.changedInTarget t = true → ∃ c, (m.condemned t).conflicts.pending =
      m.conflicts.pending ++ [c] ∧ c.kind = .deletion ∧ c.resolution = .deleted ∧
        c.base = m.basePath? m.target t) ∧
    (m.changedInTarget t = false → (m.condemned t).conflicts = m.conflicts) := by
  rw [condemned]
  constructor
  · intro h
    rw [if_pos h]
    exact ⟨_, rfl, rfl, rfl, rfl⟩
  · intro h
    rw [if_neg (Bool.eq_false_iff.1 h)]
    rfl

def struck (m : Merge) (t : NodeId) : Merge :=
  let m := m.modifyTarget fun tree ↦ tree.markSubtree t .deleted
  (m.target.preorder t).foldl (fun m d ↦ m.setProvenance d .branchA) m

theorem quiet_struck (m : Merge) (t : NodeId) :
    Quiet (m.modifyTarget fun tree ↦ tree.markSubtree t .deleted) (m.struck t) :=
  List.foldlRecOn _ _ (Quiet.refl _) fun m' h d _ ↦ h.trans (.setProvenance m' d _)

theorem remove_eq (m : Merge) (t p : NodeId) : m.remove t p =
    ((m.condemned t).struck t).modifyTarget fun tree ↦ (tree.addPlaceholder p t).detach t := rfl

theorem isNil_congr (h : u'.delta? x = u.delta? x) : isNil u' x = isNil u x := by
  rw [isNil, h, isNil]

theorem isNil_addPlaceholder (u : Tree) (p t x : NodeId) :
    isNil (u.addPlaceholder p t) x = isNil u x := by
  rw [isNil, addPlaceholder, delta?_modifyDelta, isNil]
  split
  · cases u.delta? x <;> rfl
  · rfl

theorem base?_addPlaceholder (u : Tree) (p t x : NodeId) :
    base? (u.addPlaceholder p t) x = base? u x := by
  rw [base?, addPlaceholder, delta?_modifyDelta, base?]
  split
  · cases u.delta? x <;> rfl
  · rfl

theorem pruned_remove (w : m.target.WellFormed) (ht : t < m.target.size) (p : NodeId) :
    Pruned t m.target (m.remove t p).target := by
  have q₁ := (quiet_condemned m t).alike
  have q₂ := (quiet_struck (m.condemned t) t).alike
  have htarget : (m.remove t p).target =
      (((m.condemned t).struck t).target.addPlaceholder p t).detach t := by
    rw [remove_eq, modifyTarget]
  have hmark : SameShape ((m.condemned t).struck t).target m.target :=
    q₂.toSameShape.trans ((sameShape_markSubtree _ t _).trans q₁.toSameShape)
  have hcontent (x : NodeId) :
      ((m.condemned t).struck t).target.content x = m.target.content x :=
    (q₂.content x).trans ((content_markSubtree _ _ _ _).trans (q₁.content x))
  have hdelta (x : NodeId) : ((m.condemned t).struck t).target.delta? x =
      if x ∈ m.target.preorder t then (m.target.delta? x).map fun d ↦ { d with mark := .deleted }
      else m.target.delta? x := by
    rw [q₂.delta?]
    refine (delta?_markSubtree _ _ _ _).trans ?_
    rw [q₁.toSameShape.preorder, q₁.delta?]
  rw [htarget]
  -- only the placeholder and the way out of the list of children are left to look at
  generalize ((m.condemned t).struck t).target = v at hmark hcontent hdelta
  have hshape := (sameShape_addPlaceholder v p t).trans hmark
  have w' := hshape.wellFormed w
  have hdata := sameData_detach (v.addPlaceholder p t) t
  exact {
    wellFormed := w'.detach t
    size := by
      rw [size_detach, hshape.size]
    children x := by
      rw [w'.children_detach, hshape.children]
    parent? x := by
      rw [w'.parent?_detach, hshape.parent?]
    content x := by
      rw [hdata.content, ← hcontent]
      exact content_modifyDelta _ _ _ _
    base x := by
      rw [base?, hdata.delta?, ← base?, base?_addPlaceholder, base?, hdelta, base?]
      split
      · cases m.target.delta? x <;> rfl
      · rfl
    isNil x hx := by
      rw [isNil_congr (hdata.delta? x), isNil_addPlaceholder]
      refine isNil_congr ?_
      rw [hdelta, if_neg]
      rwa [w.mem_preorder ht] }

theorem conflicts_struck (m : Merge) (t : NodeId) : (m.struck t).conflicts = m.conflicts :=
  List.foldlRecOn _ _ (motive := fun m' : Merge ↦ m'.conflicts = m.conflicts) rfl
    fun _ h _ _ ↦ h

theorem remove_rest (m : Merge) (t p : NodeId) : (m.remove t p).source = m.source ∧
    (m.remove t p).matching = m.matching ∧ (m.remove t p).basePaths = m.basePaths ∧
      (m.remove t p).conflicts = (m.condemned t).conflicts := by
  have q₁ := quiet_condemned m t
  have q₂ := quiet_struck (m.condemned t) t
  have hc := conflicts_struck (m.condemned t) t
  rw [remove_eq]
  generalize (m.condemned t).struck t = v at q₂ hc
  exact ⟨q₂.source.trans q₁.source, q₂.matching.trans q₁.matching,
    q₂.basePaths.trans q₁.basePaths, hc⟩

theorem pending_remove (m : Merge) (t p : NodeId) :
    m.conflicts.pending <+: (m.remove t p).conflicts.pending := by
  obtain ⟨-, -, -, hconflicts⟩ := remove_rest m t p
  exact hconflicts ▸ (quiet_condemned m t).pending

def prune (m : Merge) (t : NodeId) : Merge :=
  if m.target.isAttached t then
    match m.target.parent? t with
    | some parent => m.remove t parent
    | none => m
  else m

theorem mergeDeletions_eq (m : Merge) : m.mergeDeletions = m.doomed.foldl prune m := rfl

theorem changedInTarget_iff (w : m.target.WellFormed) (ht : t < m.target.size) :
    m.changedInTarget t = true ↔ ∃ y, m.target.Above t y ∧ isNil m.target y = false := by
  rw [changedInTarget, List.any_eq_true]
  refine exists_congr fun y ↦ and_congr (w.mem_preorder ht) ?_
  rw [Bool.not_eq_true']

namespace Pruned

variable (h : Pruned t u u') (w : u.WellFormed)
include h w

theorem above_iff_detach {a : NodeId} : u'.Above a x ↔ (u.detach t).Above a x := by
  have he : u'.IsParent = (u.detach t).IsParent := by
    funext q c
    rw [IsParent, h.parent?, IsParent, w.parent?_detach]
  rw [Above, he, Above]

theorem above_iff {a : NodeId} : u'.Above a x ↔ u.Above a x ∧ (u.Above t x → u.Above t a) := by
  rw [h.above_iff_detach w, w.above_detach]

theorem mem_live (hr : t ≠ root) : x ∈ u'.live ↔ x ∈ u.live ∧ ¬ u.Above t x := by
  rw [h.wellFormed.mem_live, h.above_iff_detach w, ← (w.detach t).mem_live,
    w.mem_live_detach hr]

end Pruned

/-- What holds of the merge `m` when some doomed nodes of `start` had their turns. -/
structure Cleared (start : Merge) (gone : List NodeId) (m : Merge) : Prop where
  source : m.source = start.source
  matching : m.matching = start.matching
  basePaths : m.basePaths = start.basePaths
  resolved : m.conflicts.resolved = start.conflicts.resolved
  wellFormed : m.target.WellFormed
  size : m.target.size = start.target.size
  live : ∀ x, x ∈ m.target.live ↔
    x ∈ start.target.live ∧ ∀ d ∈ gone, ¬ start.target.Above d x
  children : ∀ x ∈ m.target.live,
    m.target.children x = (start.target.children x).filter fun c ↦ !gone.contains c
  parent? : ∀ x ∈ m.target.live, m.target.parent? x = start.target.parent? x
  link : ∀ x p, m.target.parent? x = some p → start.target.parent? x = some p
  content : ∀ x, m.target.content x = start.target.content x
  base : ∀ x, base? m.target x = base? start.target x
  isNil : ∀ x ∈ m.target.live, isNil m.target x = isNil start.target x
  kept : start.conflicts.pending <+: m.conflicts.pending
  logged : ∀ c ∈ m.conflicts.pending, c ∈ start.conflicts.pending ∨
    ∃ t ∈ gone, start.changedInTarget t = true ∧ c.kind = .deletion ∧
      c.base = start.basePath? start.target t
  /-- A node that is gone went with the topmost doomed node above it. -/
  lost : ∀ x ∈ start.target.live, x ∉ m.target.live → ∃ t ∈ gone,
    m.target.parent? t = none ∧ m.target.Above t x ∧
      (∀ d ∈ gone, start.target.Above d t → d = t) ∧
      (start.changedInTarget t = true → DeletionLogged m (start.basePath? start.target t))

namespace Cleared

theorem refl (w : start.target.WellFormed) : Cleared start [] start where
  source := rfl
  matching := rfl
  basePaths := rfl
  resolved := rfl
  wellFormed := w
  size := rfl
  live _ := ⟨fun h ↦ ⟨h, fun _ hd ↦ absurd hd List.not_mem_nil⟩, And.left⟩
  children _ _ := by simp
  parent? _ _ := rfl
  link _ _ h := h
  content _ := rfl
  base _ := rfl
  isNil _ _ := rfl
  kept := List.prefix_rfl
  logged _ hc := .inl hc
  lost _ hx hnot := absurd hx hnot

variable (h : Cleared start gone m)
include h

theorem above {a x : NodeId} (hax : m.target.Above a x) : start.target.Above a x :=
  Relation.ReflTransGen.mono (fun p c hp ↦ h.link c p hp) a x hax

theorem live_below (ht : t ∈ m.target.live) (hbefore : ∀ d ∈ gone, ¬ start.target.Above t d)
    (hy : start.target.Above t y) (w : start.target.WellFormed) : y ∈ m.target.live := by
  obtain ⟨hts, htd⟩ := (h.live t).1 ht
  refine (h.live y).2 ⟨w.mem_live.2 ((w.mem_live.1 hts).trans hy), fun d hd hdy ↦ ?_⟩
  rcases WellFormed.above_total hdy hy with hdt | htd'
  · exact htd d hd hdt
  · exact hbefore d hd htd'

theorem above_iff (w : start.target.WellFormed) (ht : t ∈ m.target.live)
    (hbefore : ∀ d ∈ gone, ¬ start.target.Above t d) :
    m.target.Above t y ↔ start.target.Above t y := by
  refine ⟨h.above, fun hy ↦ ?_⟩
  induction hy with
  | refl => exact .refl
  | @tail p c hp hc ih =>
    refine ih.tail ?_
    rw [IsParent, h.parent? c (h.live_below ht hbefore (hp.tail hc) w)]
    exact hc

theorem changedInTarget (w : start.target.WellFormed) (ht : t ∈ m.target.live)
    (hbefore : ∀ d ∈ gone, ¬ start.target.Above t d) :
    m.changedInTarget t = start.changedInTarget t := by
  have hlt := h.wellFormed.live_lt ht
  rw [Bool.eq_iff_iff, changedInTarget_iff h.wellFormed hlt,
    changedInTarget_iff w (h.size ▸ hlt)]
  refine exists_congr fun y ↦ ?_
  rw [h.above_iff w ht hbefore]
  refine and_congr_right fun hy ↦ ?_
  rw [h.isNil y (h.live_below ht hbefore hy w)]

theorem logged_snoc (t : NodeId) : ∀ c ∈ m.conflicts.pending, c ∈ start.conflicts.pending ∨
    ∃ d ∈ gone ++ [t], start.changedInTarget d = true ∧ c.kind = .deletion ∧
      c.base = start.basePath? start.target d := by
  intro c hc
  rcases h.logged c hc with hc | ⟨d, hd, hcd⟩
  · exact .inl hc
  · exact .inr ⟨d, List.mem_append_left _ hd, hcd⟩

theorem pass (hts : t ∈ start.target.live) (ht : t ∉ m.target.live)
    (hbefore : ∀ d ∈ gone, ¬ start.target.Above t d) : Cleared start (gone ++ [t]) m := by
  have habove : ∃ d ∈ gone, start.target.Above d t := by
    by_contra hno
    refine ht ((h.live t).2 ⟨hts, fun d hd hdt ↦ hno ⟨d, hd, hdt⟩⟩)
  obtain ⟨d, hd, hdt⟩ := habove
  -- what is below the node is below the one that it went with
  have hlive (x : NodeId) : (∀ e ∈ gone, ¬ start.target.Above e x) ↔
      ∀ e ∈ gone ++ [t], ¬ start.target.Above e x := by
    rw [List.forall_mem_append, List.forall_mem_singleton, iff_self_and]
    exact fun hx htx ↦ hx d hd (hdt.trans htx)
  exact { h with
    live x := (h.live x).trans (and_congr_right fun _ ↦ hlive x)
    children x hx := by
      rw [h.children x hx]
      refine List.filter_congr fun c hc ↦ ?_
      have hct : c = t → c ∈ gone := by
        rintro rfl
        by_contra hno
        refine ht (h.wellFormed.child_live hx ?_)
        rw [h.children x hx, List.mem_filter]
        exact ⟨hc, by simpa using hno⟩
      by_cases hcg : c ∈ gone
      · simp [hcg]
      · have hne : c ≠ t := fun he ↦ hcg (hct he)
        simp [hcg, hne]
    logged := h.logged_snoc t
    lost x hx hnot := by
      obtain ⟨e, he, htop, hex, hfirst, hlog⟩ := h.lost x hx hnot
      refine ⟨e, List.mem_append_left _ he, htop, hex, fun d hd hde ↦ ?_, hlog⟩
      rcases List.mem_append.1 hd with hd | hd
      · exact hfirst d hd hde
      · obtain rfl := List.mem_singleton.1 hd
        exact absurd hde (hbefore e he) }

theorem mem_live_remove (hp : m.target.parent? t = some p) (x : NodeId) :
    x ∈ (m.remove t p).target.live ↔ x ∈ m.target.live ∧ ¬ m.target.Above t x :=
  (pruned_remove h.wellFormed (lt_size_of_parent? hp) p).mem_live h.wellFormed
    (h.wellFormed.child_ne_root hp)

theorem pending_take (w : start.target.WellFormed) (ht : t ∈ m.target.live)
    (hbefore : ∀ d ∈ gone, ¬ start.target.Above t d) (p : NodeId) :
    (start.changedInTarget t = true → ∃ c, (m.remove t p).conflicts.pending =
      m.conflicts.pending ++ [c] ∧ c.kind = .deletion ∧ c.resolution = .deleted ∧
        c.base = start.basePath? start.target t) ∧
    (start.changedInTarget t = false → (m.remove t p).conflicts = m.conflicts) := by
  have hlog := conflicts_condemned m t
  rwa [h.changedInTarget w ht hbefore, basePath?, h.base, h.basePaths, ← basePath?,
    ← (remove_rest m t p).2.2.2] at hlog

theorem logged_take (w : start.target.WellFormed) (ht : t ∈ m.target.live)
    (hbefore : ∀ d ∈ gone, ¬ start.target.Above t d) (p : NodeId) :
    ∀ c ∈ (m.remove t p).conflicts.pending, c ∈ start.conflicts.pending ∨
      ∃ d ∈ gone ++ [t], start.changedInTarget d = true ∧ c.kind = .deletion ∧
        c.base = start.basePath? start.target d := by
  obtain ⟨hlog, hcalm⟩ := h.pending_take w ht hbefore p
  intro c hc
  cases hch : start.changedInTarget t with
  | true =>
    obtain ⟨c', hc', hk, -, hcb⟩ := hlog hch
    rw [hc', List.mem_append, List.mem_singleton] at hc
    rcases hc with hc | rfl
    · exact h.logged_snoc t c hc
    · exact .inr ⟨t, List.mem_append_right _ List.mem_cons_self, hch, hk, hcb⟩
  | false =>
    rw [hcalm hch] at hc
    exact h.logged_snoc t c hc

theorem lost_take (w : start.target.WellFormed) (ht : t ∈ m.target.live)
    (hp : m.target.parent? t = some p) (hbefore : ∀ d ∈ gone, ¬ start.target.Above t d)
    (hx : x ∈ start.target.live) (hnot : x ∉ (m.remove t p).target.live) :
    ∃ e ∈ gone ++ [t], (m.remove t p).target.parent? e = none ∧
      (m.remove t p).target.Above e x ∧
      (∀ d ∈ gone ++ [t], start.target.Above d e → d = e) ∧
      (start.changedInTarget e = true →
        DeletionLogged (m.remove t p) (start.basePath? start.target e)) := by
  have hp' := pruned_remove h.wellFormed (h.wellFormed.live_lt ht) p
  by_cases hxm : x ∈ m.target.live
  · have htx : m.target.Above t x := by
      by_contra htx
      exact hnot ((h.mem_live_remove hp x).2 ⟨hxm, htx⟩)
    refine ⟨t, List.mem_append_right _ List.mem_cons_self, by rw [hp'.parent?, if_pos rfl],
      (hp'.above_iff h.wellFormed).2 ⟨htx, fun _ ↦ .refl⟩, fun d hd hdt ↦ ?_, fun hch ↦ ?_⟩
    · rcases List.mem_append.1 hd with hd | hd
      · exact absurd hdt (((h.live t).1 ht).2 d hd)
      · exact List.mem_singleton.1 hd
    · obtain ⟨c, hc, hk, hres, hcb⟩ := (h.pending_take w ht hbefore p).1 hch
      exact ⟨c, hc ▸ List.mem_append_right _ List.mem_cons_self, hk, hres, hcb⟩
  · obtain ⟨e, he, htop, hex, hfirst, hce⟩ := h.lost x hx hxm
    have htx : ¬ m.target.Above t x := fun htx ↦
      hxm (h.wellFormed.mem_live.2 ((h.wellFormed.mem_live.1 ht).trans htx))
    refine ⟨e, List.mem_append_left _ he, ?_,
      (hp'.above_iff h.wellFormed).2 ⟨hex, fun htx' ↦ absurd htx' htx⟩, fun d hd hde ↦ ?_,
      fun hch ↦ ?_⟩
    · rw [hp'.parent?, htop, ite_self]
    · rcases List.mem_append.1 hd with hd | hd
      · exact hfirst d hd hde
      · obtain rfl := List.mem_singleton.1 hd
        exact absurd hde (hbefore e he)
    · obtain ⟨c, hc, hrest⟩ := hce hch
      exact ⟨c, (pending_remove m t p).subset hc, hrest⟩

theorem take (w : start.target.WellFormed) (ht : t ∈ m.target.live)
    (hp : m.target.parent? t = some p) (hbefore : ∀ d ∈ gone, ¬ start.target.Above t d) :
    Cleared start (gone ++ [t]) (m.remove t p) := by
  have hp' := pruned_remove h.wellFormed (h.wellFormed.live_lt ht) p
  obtain ⟨hsource, hmatching, hpaths, hconflicts⟩ := remove_rest m t p
  have hlive := h.mem_live_remove hp
  exact {
    source := hsource.trans h.source
    matching := hmatching.trans h.matching
    basePaths := hpaths.trans h.basePaths
    resolved := by
      rw [hconflicts]
      exact (quiet_condemned m t).resolved.trans h.resolved
    wellFormed := hp'.wellFormed
    size := hp'.size.trans h.size
    live x := by
      rw [hlive, h.live, h.above_iff w ht hbefore, List.forall_mem_append,
        List.forall_mem_singleton, and_assoc]
    children x hx := by
      rw [hp'.children, h.children x ((hlive x).1 hx).1, List.filter_filter]
      refine List.filter_congr fun c _ ↦ ?_
      by_cases hct : c = t <;> by_cases hcg : c ∈ gone <;> simp [hct, hcg]
    parent? x hx := by
      rw [hp'.parent?, if_neg, h.parent? x ((hlive x).1 hx).1]
      rintro rfl
      exact ((hlive x).1 hx).2 .refl
    link x q hq := by
      rw [hp'.parent?] at hq
      split at hq
      · cases hq
      · exact h.link x q hq
    content x := (hp'.content x).trans (h.content x)
    base x := (hp'.base x).trans (h.base x)
    isNil x hx := by
      rw [hp'.isNil x ((hlive x).1 hx).2, h.isNil x ((hlive x).1 hx).1]
    kept := h.kept.trans (pending_remove m t p)
    logged := h.logged_take w ht hbefore p
    lost x hx hnot := h.lost_take w ht hp hbefore hx hnot }

theorem prune_cases (hr : t ≠ root) : t ∉ m.target.live ∧ prune m t = m ∨
    t ∈ m.target.live ∧ ∃ p, m.target.parent? t = some p ∧ prune m t = m.remove t p := by
  have w := h.wellFormed
  by_cases ht : t ∈ m.target.live
  · obtain ⟨p, hp, -⟩ := w.exists_parent_of_live ht hr
    refine .inr ⟨ht, p, hp, ?_⟩
    rw [prune, if_pos (w.isAttached_iff.2 (w.mem_live.1 ht)), hp]
  · refine .inl ⟨ht, ?_⟩
    rw [prune, if_neg fun hatt ↦ ht (w.mem_live.2 (w.isAttached_iff.1 hatt))]

theorem turn (w : start.target.WellFormed) (hts : t ∈ start.target.live) (hr : t ≠ root)
    (hbefore : ∀ d ∈ gone, ¬ start.target.Above t d) :
    Cleared start (gone ++ [t]) (prune m t) := by
  rcases h.prune_cases hr with ⟨ht, heq⟩ | ⟨ht, p, hp, heq⟩
  · rw [heq]
    exact h.pass hts ht hbefore
  · rw [heq]
    exact h.take w ht hp hbefore

end Cleared

theorem removal_induction (w : start.target.WellFormed) {P : List NodeId → Merge → Prop}
    (first : P [] start)
    (turn : ∀ gone t m, Cleared start gone m → t ∈ start.target.live → t ≠ root →
      (∀ d ∈ gone, ¬ start.target.Above t d) → P gone m → P (gone ++ [t]) (prune m t)) :
    Cleared start start.doomed start.mergeDeletions ∧ P start.doomed start.mergeDeletions := by
  have hsub : start.doomed.Sublist start.target.live :=
    List.filter_sublist.trans (List.tail_sublist _)
  rw [mergeDeletions_eq]
  refine foldl_induction (P := fun gone m ↦ Cleared start gone m ∧ P gone m) ⟨.refl w, first⟩
    fun gone t post m hsplit ⟨hc, hP⟩ ↦ ?_
  have ht : t ∈ start.doomed := hsplit ▸ List.mem_append_right gone List.mem_cons_self
  obtain ⟨hl, hr⟩ := w.mem_live_tail.1 (List.mem_filter.1 ht).1
  have horder : (gone ++ t :: post).Pairwise start.target.Precedes :=
    hsplit ▸ w.pairwise_live.sublist hsub
  have hbefore : ∀ d ∈ gone, ¬ start.target.Above t d := fun d hd ↦
    ((List.pairwise_append.1 horder).2.2 d hd t List.mem_cons_self).not_above
  exact ⟨hc.turn w hl hr hbefore, turn gone t m hc hl hr hbefore hP⟩

theorem cleared_mergeDeletions (w : start.target.WellFormed) :
    Cleared start start.doomed start.mergeDeletions :=
  (removal_induction w (P := fun _ _ ↦ True) trivial fun _ _ _ _ _ _ _ _ ↦ trivial).1

theorem mem_doomed (hA : Branch n up start.source) (ht : Branch n up start.target) :
    t ∈ start.doomed ↔
      t ∈ start.target.live ∧ t ≠ root ∧ t < n ∧ t ∉ start.source.live := by
  have hkept (b : Nat) (hb : b < n) :
      b ∈ start.source.live.filterMap (base? start.source) ↔ b ∈ start.source.live := by
    rw [List.mem_filterMap]
    constructor
    · rintro ⟨x, hx, hxb⟩
      obtain ⟨rfl, -⟩ := (base?_eq_some hA).1 hxb
      exact hx
    · exact fun hbl ↦ ⟨b, hbl, (base?_eq_some hA).2 ⟨rfl, hb⟩⟩
  rw [doomed, List.mem_filter, ht.wellFormed.mem_live_tail, and_assoc, ht.base?]
  refine and_congr_right fun _ ↦ and_congr_right fun _ ↦ ?_
  by_cases hlt : t < n
  · rw [if_pos hlt, Option.any_some, Bool.not_eq_true', Bool.eq_false_iff, ne_eq,
      List.contains_iff_mem, hkept t hlt]
    exact (and_iff_right hlt).symm
  · rw [if_neg hlt]
    simp [hlt]

end FlowMerge.Merge
