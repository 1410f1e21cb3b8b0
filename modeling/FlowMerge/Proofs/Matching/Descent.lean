import FlowMerge.Proofs.Matching.Kinds
import FlowMerge.Proofs.Matching.Propagation
import FlowMerge.Proofs.Script.Coverage
import Mathlib.Order.Bounds.Defs

namespace FlowMerge

namespace Matching

open FlowMerge.Tree Score

variable {α : Type} [Score α] {m m' : Matching} {n o c oc : NodeId} {old new t : Tree}
  {measure : Comparator α} {threshold : α} {thresholds : Thresholds α} {p q : NodeId × NodeId}
  {done queue : List (NodeId × NodeId)} {l : String}

structure OnlyChild (t : Tree) (parent c : NodeId) : Prop where
  mem : c ∈ t.controlFlowChildren parent
  only : ∀ d ∈ t.controlFlowChildren parent, t.label d = t.label c → d = c

/-- Whether the pair `q` follows from the pair `p` above it: its nodes have one label, which no
other child has on either side, and they are similar. -/
structure LeadsTo (measure : Comparator α) (threshold : α) (old new : Tree)
    (p q : NodeId × NodeId) : Prop where
  onlyNew : OnlyChild new p.1 q.1
  onlyOld : OnlyChild old p.2 q.2
  label : old.label q.2 = new.label q.1
  close : lt (measure old q.2 new q.1) threshold = true

/-- Whether a set has the pair of the roots, and what follows from each of its pairs. -/
def ClosedDown (measure : Comparator α) (threshold : α) (old new : Tree)
    (s : Set (NodeId × NodeId)) : Prop :=
  (root, root) ∈ s ∧ ∀ p ∈ s, ∀ q, LeadsTo measure threshold old new p q → q ∈ s

theorem OnlyChild.parent (h : OnlyChild t n c) (w : t.WellFormed) : t.parent? c = some n :=
  w.mem_children.1 (List.mem_of_mem_filter h.mem)

theorem uniqueChild?_eq_some (w : t.WellFormed) :
    uniqueChild? t n l = some c ↔ OnlyChild t n c ∧ t.label c = l := by
  have hnodup : ((t.controlFlowChildren n).filter fun d ↦ t.label d == l).Nodup :=
    ((w.nodup_children n).filter _).filter _
  have hmem (d : NodeId) : d ∈ (t.controlFlowChildren n).filter (fun d ↦ t.label d == l) ↔
      d ∈ t.controlFlowChildren n ∧ t.label d = l := by simp
  have hone : uniqueChild? t n l = some c ↔
      (t.controlFlowChildren n).filter (fun d ↦ t.label d == l) = [c] := by
    unfold uniqueChild?
    split
    · next d hd => simp [hd]
    · next hno => exact ⟨nofun, fun hc ↦ absurd hc (hno c)⟩
  rw [hone]
  constructor
  · intro h
    simp only [h, List.mem_singleton] at hmem
    obtain ⟨hc, hl⟩ := (hmem c).1 rfl
    refine ⟨⟨hc, fun d hd hdl ↦ ?_⟩, hl⟩
    exact (hmem d).2 ⟨hd, hdl.trans hl⟩
  · rintro ⟨⟨hc, honly⟩, hl⟩
    apply List.perm_singleton.1
    apply (List.perm_ext_iff_of_nodup hnodup (List.nodup_singleton c)).2
    intro d
    rw [hmem, List.mem_singleton]
    constructor
    · rintro ⟨hd, hdl⟩
      exact honly d hd (hdl.trans hl.symm)
    · rintro rfl
      exact ⟨hc, hl⟩

theorem counterpart?_eq_some (wo : old.WellFormed) (wn : new.WellFormed) :
    counterpart? old new o n c = some oc ↔
      OnlyChild new n c ∧ OnlyChild old o oc ∧ old.label oc = new.label c := by
  unfold counterpart?
  split
  · next hc => simp [uniqueChild?_eq_some wo, ((uniqueChild?_eq_some wn).1 hc).1]
  · next hc =>
    refine ⟨nofun, fun h ↦ absurd ?_ hc⟩
    exact (uniqueChild?_eq_some wn).2 ⟨h.1, rfl⟩

/-- What the children of the pair `p` are tied to when those in `pre` had their turns. -/
structure ChildrenTied (measure : Comparator α) (threshold : α) (old new : Tree) (m : Matching)
    (p : NodeId × NodeId) (pre : List NodeId) (s : Matching × List (NodeId × NodeId)) : Prop where
  oneToOne : s.1.OneToOne
  found : ∀ q, q ∈ s.2 ↔ LeadsTo measure threshold old new p q ∧ q.1 ∈ pre
  nodup : s.2.Nodup
  tied : ∀ n o, s.1.old? n = some o ↔ m.old? n = some o ∨ (n, o) ∈ s.2

namespace ChildrenTied

variable {pre : List NodeId} {s : Matching × List (NodeId × NodeId)}
  (h : ChildrenTied measure threshold old new m p pre s)
include h

theorem skip (hno : ∀ oc, ¬ LeadsTo measure threshold old new p (c, oc)) :
    ChildrenTied measure threshold old new m p (pre ++ [c]) s := by
  refine ⟨h.oneToOne, fun q ↦ ?_, h.nodup, h.tied⟩
  rw [h.found, List.mem_append, List.mem_singleton]
  refine and_congr_right fun hq ↦ (or_iff_left ?_).symm
  rintro rfl
  exact hno q.2 hq

theorem free_new (hc : c ∉ pre) (hnew : m.old? c = none) : s.1.old? c = none := by
  rw [Option.eq_none_iff_forall_ne_some]
  intro o' ho'
  rcases (h.tied c o').1 ho' with hm | hf
  · rw [hnew] at hm
    cases hm
  · exact hc ((h.found _).1 hf).2

theorem free_old (hm : m.OneToOne) (hc : c ∉ pre) (honly : OnlyChild new p.1 c)
    (hlabel : old.label oc = new.label c) (hold : m.new? oc = none) : s.1.new? oc = none := by
  rw [Option.eq_none_iff_forall_ne_some]
  intro n' hn'
  rcases (h.tied n' oc).1 ((h.oneToOne n' oc).2 hn') with hno | hf
  · rw [hm, hold] at hno
    cases hno
  · obtain ⟨hlead, hn'⟩ := (h.found _).1 hf
    have he : n' = c := honly.only n' hlead.onlyNew.mem (hlead.label.symm.trans hlabel)
    exact hc (he ▸ hn')

theorem tie (hc : c ∉ pre) (hlead : LeadsTo measure threshold old new p (c, oc))
    (hnew : s.1.old? c = none) (hold : s.1.new? oc = none) :
    ChildrenTied measure threshold old new m p (pre ++ [c])
      (s.1.link c oc, s.2 ++ [(c, oc)]) := by
  have hnot : (c, oc) ∉ s.2 := fun hf ↦ hc ((h.found _).1 hf).2
  refine ⟨h.oneToOne.link c oc, fun q ↦ ?_, ?_, fun n' o' ↦ ?_⟩
  · rw [List.mem_append, h.found, List.mem_append, List.mem_singleton, List.mem_singleton,
      and_or_left]
    refine or_congr_right ⟨?_, ?_⟩
    · rintro rfl
      exact ⟨hlead, rfl⟩
    · rintro ⟨hq, hqc⟩
      refine Prod.ext hqc (hlead.onlyOld.only q.2 hq.onlyOld.mem ?_)
      rw [hq.label, hqc, hlead.label]
  · exact h.nodup.append (List.nodup_singleton _) (by simpa using hnot)
  · rw [old?_link_of_free hnew hold, h.tied, List.mem_append, List.mem_singleton,
      Prod.mk.injEq, or_comm, or_assoc]

end ChildrenTied

/-- If all children of a pair are free, none of them is in the way of another. -/
theorem childrenTied_linkChildren (wo : old.WellFormed) (wn : new.WellFormed) (h : m.OneToOne)
    (hnew : ∀ c, new.parent? c = some p.1 → m.old? c = none)
    (hold : ∀ oc, old.parent? oc = some p.2 → m.new? oc = none) :
    ChildrenTied measure threshold old new m p (new.controlFlowChildren p.1)
      (linkChildren measure threshold old new m p) := by
  apply foldl_induction (P := ChildrenTied measure threshold old new m p)
  · exact ⟨h, by simp, List.nodup_nil, by simp⟩
  rintro pre c post ⟨m', found⟩ hsplit hpre
  have hnodup : (new.controlFlowChildren p.1).Nodup := (wn.nodup_children p.1).filter _
  have hc : c ∉ pre := by
    rw [hsplit] at hnodup
    exact fun hc ↦ (List.nodup_append.1 hnodup).2.2 c hc c List.mem_cons_self rfl
  dsimp only
  split
  · next oc hoc =>
    obtain ⟨honly, hoonly, hlabel⟩ := (counterpart?_eq_some wo wn).1 hoc
    have hcfree : m'.old? c = none := hpre.free_new hc (hnew c (honly.parent wn))
    -- no other child of the pair has this counterpart
    have hofree : m'.new? oc = none :=
      hpre.free_old h hc honly hlabel (hold oc (hoonly.parent wo))
    have hfree : (m'.hasNew c || m'.hasOld oc) = false := by
      simp [hasNew_eq_false.2 hcfree, hasOld_eq_false.2 hofree]
    rw [hfree, if_neg Bool.false_ne_true]
    split
    · next hclose => exact hpre.tie hc ⟨honly, hoonly, hlabel, hclose⟩ hcfree hofree
    · next hclose =>
      apply hpre.skip
      intro oc' hlead
      have he : oc' = oc := hoonly.only oc' hlead.onlyOld.mem (hlead.label.trans hlabel.symm)
      exact hclose (he ▸ hlead.close)
  · next hnone =>
    apply hpre.skip
    intro oc hlead
    have hsome := (counterpart?_eq_some wo wn).2 ⟨hlead.onlyNew, hlead.onlyOld, hlead.label⟩
    rw [hnone] at hsome
    cases hsome

/-- What holds when the pairs in `done` have been worked through and those in `queue` are next. -/
structure Descending (measure : Comparator α) (threshold : α) (old new : Tree) (m : Matching)
    (done queue : List (NodeId × NodeId)) : Prop where
  oneToOne : m.OneToOne
  tied : ∀ n o, m.old? n = some o ↔ (n, o) ∈ done ++ queue
  nodup : (done ++ queue).Nodup
  above : ∀ q ∈ done ++ queue, q = (root, root) ∨
    ∃ p ∈ done, LeadsTo measure threshold old new p q
  closed : ∀ p ∈ done, ∀ q, LeadsTo measure threshold old new p q → q ∈ done ++ queue

namespace Descending

theorem start : Descending measure threshold old new (linkRoots .empty) []
    (linkRoots .empty).pairs := by
  have hmem (q : NodeId × NodeId) : q ∈ (linkRoots .empty).pairs ↔ q = (root, root) := by
    rw [mem_pairs, old?_linkRoots_empty, ← Prod.mk.injEq]
  refine ⟨OneToOne.empty.linkRoots, fun n o ↦ ?_, by decide, fun q hq ↦ .inl ((hmem q).1 hq),
    fun p hp ↦ absurd hp List.not_mem_nil⟩
  rw [List.nil_append, mem_pairs]

variable (h : Descending measure threshold old new m done (p :: queue))
include h

theorem not_mem_done : p ∉ done := fun hp ↦
  (List.nodup_append.1 h.nodup).2.2 p hp p List.mem_cons_self rfl

theorem exists_done (hr : n ≠ root ∨ o ≠ root) (hno : m.old? n = some o) :
    ∃ q ∈ done, LeadsTo measure threshold old new q (n, o) := by
  refine (h.above _ ((h.tied n o).1 hno)).resolve_left fun he ↦ ?_
  obtain ⟨rfl, rfl⟩ := Prod.mk.inj he
  exact hr.elim (absurd rfl) (absurd rfl)

theorem free_new (wn : new.WellFormed) (hc : new.parent? c = some p.1) : m.old? c = none := by
  rw [Option.eq_none_iff_forall_ne_some]
  intro o' ho'
  obtain ⟨q, hq, hlead⟩ := h.exists_done (.inl (wn.child_ne_root hc)) ho'
  have hfst : q.1 = p.1 := Option.some_inj.1 ((hlead.onlyNew.parent wn).symm.trans hc)
  have hqm := (h.tied q.1 q.2).2 (List.mem_append_left _ hq)
  have hpm := (h.tied p.1 p.2).2 (List.mem_append_right _ List.mem_cons_self)
  have hsnd : q.2 = p.2 := Option.some_inj.1 ((hfst ▸ hqm).symm.trans hpm)
  exact h.not_mem_done (Prod.ext hfst hsnd ▸ hq)

theorem free_old (wo : old.WellFormed) (hoc : old.parent? oc = some p.2) : m.new? oc = none := by
  rw [Option.eq_none_iff_forall_ne_some]
  intro n' hn'
  obtain ⟨q, hq, hlead⟩ := h.exists_done (.inr (wo.child_ne_root hoc)) ((h.oneToOne n' oc).2 hn')
  have hsnd : q.2 = p.2 := Option.some_inj.1 ((hlead.onlyOld.parent wo).symm.trans hoc)
  have hqm := (h.oneToOne _ _).1 ((h.tied q.1 q.2).2 (List.mem_append_left _ hq))
  have hpm := (h.oneToOne _ _).1 ((h.tied p.1 p.2).2 (List.mem_append_right _ List.mem_cons_self))
  have hfst : q.1 = p.1 := Option.some_inj.1 ((hsnd ▸ hqm).symm.trans hpm)
  exact h.not_mem_done (Prod.ext hfst hsnd ▸ hq)

theorem turn (wo : old.WellFormed) (wn : new.WellFormed) :
    Descending measure threshold old new (linkChildren measure threshold old new m p).1
      (done ++ [p]) (queue ++ (linkChildren measure threshold old new m p).2) := by
  have hchildren : ChildrenTied measure threshold old new m p (new.controlFlowChildren p.1)
      (linkChildren measure threshold old new m p) :=
    childrenTied_linkChildren wo wn h.oneToOne (fun _ ↦ h.free_new wn) fun _ ↦ h.free_old wo
  generalize linkChildren measure threshold old new m p = s at hchildren
  have hfound (q : NodeId × NodeId) : q ∈ s.2 ↔ LeadsTo measure threshold old new p q := by
    rw [hchildren.found]
    exact and_iff_left_of_imp fun hq ↦ hq.onlyNew.mem
  have hall : done ++ [p] ++ (queue ++ s.2) = (done ++ p :: queue) ++ s.2 := by simp
  exact {
    oneToOne := hchildren.oneToOne
    tied n o := by
      rw [hchildren.tied, h.tied, hall, List.mem_append (t := s.2)]
    nodup := by
      rw [hall]
      refine h.nodup.append hchildren.nodup fun q hq hqs ↦ ?_
      -- what is found was free, and what is in the queue is tied
      have hno := h.free_new wn (((hfound q).1 hqs).onlyNew.parent wn)
      rw [(h.tied q.1 q.2).2 hq] at hno
      cases hno
    above q hq := by
      rw [hall, List.mem_append] at hq
      rcases hq with hq | hq
      · refine (h.above q hq).imp_right ?_
        rintro ⟨p', hp', hlead⟩
        exact ⟨p', List.mem_append_left _ hp', hlead⟩
      · exact .inr ⟨p, List.mem_append_right _ List.mem_cons_self, (hfound q).1 hq⟩
    closed p' hp' q hq := by
      rw [hall]
      rcases List.mem_append.1 hp' with hp' | hp'
      · exact List.mem_append_left _ (h.closed p' hp' q hq)
      · obtain rfl := List.mem_singleton.1 hp'
        exact List.mem_append_right _ ((hfound q).2 hq) }

omit h in
/-- The fuel lasts as long as there are new nodes to tie. -/
theorem run {fuel : Nat} (wo : old.WellFormed) (wn : new.WellFormed)
    (h : Descending measure threshold old new m done queue)
    (hfuel : new.size < fuel + done.length) :
    ∃ done', Descending measure threshold old new
      (descend measure threshold old new fuel m queue) done' [] := by
  induction fuel generalizing m done queue with
  | zero =>
    have hfst : ((done ++ queue).map Prod.fst).Nodup := by
      refine List.Nodup.map_on (fun x hx y hy he ↦ Prod.ext he ?_) h.nodup
      have hxm := (h.tied x.1 x.2).2 hx
      rw [he, (h.tied y.1 y.2).2 hy] at hxm
      exact (Option.some_inj.1 hxm).symm
    have hsub : (done ++ queue).map Prod.fst ⊆ List.range new.size := by
      intro n hn
      obtain ⟨q, hq, rfl⟩ := List.mem_map.1 hn
      rw [List.mem_range]
      rcases h.above q hq with rfl | ⟨p, -, hlead⟩
      · exact wn.root_lt
      · exact lt_size_of_parent? (hlead.onlyNew.parent wn)
    have hle := (hfst.subperm hsub).length_le
    simp only [List.length_map, List.length_append, List.length_range] at hle
    omega
  | succ fuel ih =>
    cases queue with
    | nil => exact ⟨done, h⟩
    | cons p queue =>
      apply ih (h.turn wo wn)
      simp only [List.length_append, List.length_singleton]
      omega

end Descending

def descent (measure : Comparator α) (threshold : α) (old new : Tree) : Matching :=
  descend measure threshold old new ((linkRoots .empty).size + new.size + 1) (linkRoots .empty)
    (linkRoots .empty).pairs

theorem descending_descent (measure : Comparator α) (threshold : α) (wo : old.WellFormed)
    (wn : new.WellFormed) : ∃ done, Descending measure threshold old new
      (descent measure threshold old new) done [] :=
  Descending.run wo wn .start (by simp only [List.length_nil]; omega)

theorem Descending.isLeast (h : Descending measure threshold old new m done [])
    (wn : new.WellFormed) (hr : m.old? root = some root) :
    IsLeast {s | ClosedDown measure threshold old new s} {p | m.old? p.1 = some p.2} := by
  have hdone {q : NodeId × NodeId} : m.old? q.1 = some q.2 ↔ q ∈ done := by
    rw [h.tied, List.append_nil]
  constructor
  · refine ⟨hr, fun p hp q hq ↦ ?_⟩
    exact (h.tied q.1 q.2).2 (h.closed p (hdone.1 hp) q hq)
  · rintro s ⟨hroots, hclosed⟩ ⟨n, o⟩ hno
    -- the induction goes down the new tree, since what a pair follows from is tied above it
    induction n using wn.up_induction generalizing o with
    | h n ih =>
      rcases h.above _ ((h.tied n o).1 hno) with he | ⟨p, hp, hlead⟩
      · exact he ▸ hroots
      · exact hclosed p (ih p.1 (hlead.onlyNew.parent wn) p.2 (hdone.2 hp)) _ hlead

/-- Whether every pair but that of the roots hangs below a pair. -/
def ParentsTied (old new : Tree) (m : Matching) : Prop :=
  ∀ n o, m.old? n = some o → (n = root ∧ o = root) ∨
    ∃ pn po, new.parent? n = some pn ∧ old.parent? o = some po ∧ m.old? pn = some po

theorem Descending.parentsTied (h : Descending measure threshold old new m done [])
    (wo : old.WellFormed) (wn : new.WellFormed) : m.ParentsTied old new := by
  intro n o hno
  rcases h.above _ ((h.tied n o).1 hno) with he | ⟨p, hp, hlead⟩
  · exact .inl (Prod.mk.inj he)
  · refine .inr ⟨p.1, p.2, hlead.onlyNew.parent wn, hlead.onlyOld.parent wo, ?_⟩
    exact (h.tied p.1 p.2).2 (List.mem_append_left _ hp)

theorem ParentsTied.propagate (wo : old.WellFormed) (wn : new.WellFormed) (hm : m.OneToOne)
    (h : m.ParentsTied old new) : (m.propagate old new).ParentsTied old new := by
  obtain ⟨hcarried, -⟩ := carried_pairs wo wn hm
  intro n o hno
  cases hbefore : m.old? n with
  | none => exact .inr (hcarried.inherited n o hno hbefore).above
  | some x =>
    obtain rfl := Option.some_inj.1 ((hcarried.kept n x hbefore).symm.trans hno)
    refine (h n x hbefore).imp_right ?_
    rintro ⟨pn, po, hpn, hpo, hpair⟩
    exact ⟨pn, po, hpn, hpo, hcarried.kept pn po hpair⟩

end Matching

namespace Script

open Matching FlowMerge.Tree

variable {old new : Tree} {m : Matching} {c : Change}

def KeepsParent (old new : Tree) (m : Matching) (c : Change) : Prop :=
  ∃ n ∈ new.live, ∃ o ∈ old.live, c.old = some (old.path o) ∧ c.new = some (new.path n) ∧
    ∃ pn po, new.parent? n = some pn ∧ old.parent? o = some po ∧ m.old? pn = some po

theorem exists_of_move (wo : old.WellFormed) (wn : new.WellFormed) (h : Clean old new m)
    (hc : c ∈ ofMatching old new m) (hk : c.kind = .move) :
    ∃ n o, m.old? n = some o ∧ stays old new m n = false ∧ c.old = some (old.path o) ∧
      c.new = some (new.path n) := by
  rw [ofMatching_eq wn, List.mem_append, List.mem_flatMap, List.mem_flatMap] at hc
  rcases hc with ⟨n, -, hc⟩ | ⟨o, -, hc⟩
  · cases hno : m.old? n with
    | none =>
      have hinsertion := isInsertion_of_mem_additionsAt hc hno
      rw [hk] at hinsertion
      cases hinsertion
    | some o =>
      have hmove : c ∈ (additionsAt old new m n).filter (·.kind == .move) :=
        List.mem_filter.2 ⟨hc, beq_iff_eq.2 hk⟩
      rw [moves_additionsAt wo wn h hno] at hmove
      split at hmove
      · cases hmove
      · next hstays =>
        rw [List.mem_singleton.1 hmove]
        exact ⟨n, o, hno, Bool.eq_false_iff.2 hstays, rfl, rfl⟩
  · have hdeletion := isDeletion_of_mem hc
    rw [hk] at hdeletion
    cases hdeletion

theorem old?_of_clean {n o : NodeId} (hr : m.old? root = some root)
    (hno : (clean old new m).old? n = some o) : m.old? n = some o := by
  rw [clean, linkRoots, old?_link, old?_retain] at hno
  split at hno
  · next hn => rwa [hn, hr]
  · split at hno
    · cases hno
    · exact (Option.filter_eq_some_iff.1 hno).1

/-- Where tied nodes hang below tied nodes, nodes move among their siblings only. -/
theorem keepsParent_of_parentsTied (wo : old.WellFormed) (wn : new.WellFormed) (hm : m.OneToOne)
    (hr : m.old? root = some root) (h : m.ParentsTied old new) (hc : c ∈ derive old new m)
    (hk : c.kind = .move) : KeepsParent old new m c := by
  have hclean : Clean old new (clean old new m) := clean_clean wo wn hm
  obtain ⟨n, o, hno, hstays, hcold, hcnew⟩ := exists_of_move wo wn hclean hc hk
  obtain ⟨hn, ho⟩ := hclean.live n o hno
  refine ⟨n, hn, o, ho, hcold, hcnew, (h n o (old?_of_clean hr hno)).resolve_left ?_⟩
  rintro ⟨rfl, -⟩
  rw [stays_root wn] at hstays
  cases hstays

end Script

namespace Matching

open FlowMerge.Tree Score

variable {α : Type} [Score α] {old new : Tree}

/-- The descent ties the least set of pairs with the roots that its rule closes. So all that is tied
in the end hangs below what is tied, and no node moves to a parent that is not the counterpart of
the one it had. -/
theorem isLeast_topDown (wo : old.WellFormed) (wn : new.WellFormed) (measure : Comparator α)
    (thresholds : Thresholds α) :
    topDown measure thresholds old new .empty =
        (descent measure thresholds.leaf old new).propagate old new ∧
      IsLeast {s | ClosedDown measure thresholds.leaf old new s}
        {p | (descent measure thresholds.leaf old new).old? p.1 = some p.2} ∧
      (topDown measure thresholds old new .empty).ParentsTied old new ∧
      ∀ c ∈ Script.derive old new (topDown measure thresholds old new .empty), c.kind = .move →
        Script.KeepsParent old new (topDown measure thresholds old new .empty) c := by
  have hrun : topDown measure thresholds old new .empty =
      (descent measure thresholds.leaf old new).propagate old new := rfl
  have hone : (topDown measure thresholds old new .empty).OneToOne := OneToOne.empty.topDown
  have hext : (linkRoots .empty).Extends (descent measure thresholds.leaf old new) :=
    (Extends.refl OneToOne.empty.linkRoots).descend OneToOne.empty.linkRoots _ _
  have hroot : (descent measure thresholds.leaf old new).old? root = some root :=
    hext.kept root root rfl
  have hroot' : (topDown measure thresholds old new .empty).old? root = some root :=
    (hext.propagate OneToOne.empty.linkRoots).kept root root rfl
  obtain ⟨done, hdone⟩ := descending_descent measure thresholds.leaf wo wn
  have hparents : (topDown measure thresholds old new .empty).ParentsTied old new :=
    (hdone.parentsTied wo wn).propagate wo wn hext.oneToOne
  exact ⟨hrun, hdone.isLeast wn hroot, hparents, fun c hc hk ↦
    Script.keepsParent_of_parentsTied wo wn hone hroot' hparents hc hk⟩

def callThenLoop : Tree :=
  .ofList { label := "description" }
    [(0, { label := "call" }), (0, { label := "loop" }), (2, { label := "call" })]

def loopThenCall : Tree :=
  .ofList { label := "description" }
    [(0, { label := "loop" }), (1, { label := "call" }), (1, { label := "call" }),
      (0, { label := "call" })]

/-- The loop is tied to the loop, and one of the two changes places below the root. -/
theorem isLeast_topDown_loopThenCall :
    let m := topDown (α := Rat) Comparator.process .standard callThenLoop loopThenCall .empty
    m.ParentsTied callThenLoop loopThenCall ∧ m.old? 1 = some 2 ∧
      ∃ c ∈ Script.derive callThenLoop loopThenCall m, c.kind = .move ∧
        Script.KeepsParent callThenLoop loopThenCall m c := by
  intro m
  have wo : callThenLoop.WellFormed := wellFormed_ofList _ _ (by decide)
  have wn : loopThenCall.WellFormed := wellFormed_ofList _ _ (by decide)
  obtain ⟨-, -, hparents, hmoves⟩ :=
    isLeast_topDown wo wn (Comparator.process : Comparator Rat) .standard
  have htied : m.old? 1 = some 2 := by decide +kernel
  have hmove : ∃ c ∈ Script.derive callThenLoop loopThenCall m, c.kind = .move := by
    decide +kernel
  obtain ⟨c, hc, hk⟩ := hmove
  exact ⟨hparents, htied, c, hc, hk, hmoves c hc hk⟩

end Matching

end FlowMerge
