import FlowMerge.Proofs.Merge.Strict

namespace FlowMerge

/-- A tree in which each live node has one place, its links agree, and nothing is above itself. -/
structure Tree.Proper (t : Tree) : Prop where
  once : t.live.Nodup
  reached : ∀ x ∈ t.live, ∃! r, t.resolve r = .ok x
  linked : ∀ x ∈ t.live, x ≠ root → ∃ p ∈ t.live, t.parent? x = some p ∧
    (t.children p)[t.position x]? = some x
  children : ∀ p ∈ t.live, ∀ i c, (t.children p)[i]? = some c →
    c ∈ t.live ∧ t.parent? c = some p ∧ t.position c = i
  acyclic : ∀ x, x ∉ t.ancestors x

theorem Tree.WellFormed.proper {t : Tree} (w : t.WellFormed) : t.Proper where
  once := w.nodup_live
  reached _ hx := existsUnique_path w hx
  linked x hx hr := by
    obtain ⟨p, hp, hpl⟩ := w.exists_parent_of_live hx hr
    exact ⟨p, hpl, hp, w.getElem?_position hp⟩
  children p hp i c hc :=
    ⟨w.child_live hp (List.mem_of_getElem? hc), (w.linked p c i).1 hc⟩
  acyclic x := (List.nodup_cons.1 (w.nodup_ancestorsWithin t.size x)).1

namespace Merge

open FlowMerge.Tree

variable {α : Type} [Score α] {base a b : Tree} {first m m' : Merge} {s x : NodeId} {n : Nat}
  {seen : List NodeId} {up : NodeId → Option NodeId}

/-- The node `x` is the copy of an insertion of branch A that the alignment ties to nothing. -/
structure Carried (da : Tree) (partner stand : NodeId → Option NodeId) (s x : NodeId) : Prop where
  live : s ∈ da.live
  inserted : (da.mark s).isInsertion = true
  free : partner s = none
  stand : stand s = some x

theorem Placed.mem_live_of_reshaped (h : Placed n up first seen m) (hr : Reshaped n m s m')
    (hA : Branch n up first.source) (hs : s ∈ first.source.live)
    (hlive : ∀ x, x ∈ m.target.live ↔ x ∈ first.target.live ∨
      ∃ s, Carried first.source first.counterpart? m.counterpart? s x) :
    ∀ x, x ∈ m'.target.live ↔ x ∈ first.target.live ∨
      ∃ s, Carried first.source first.counterpart? m'.counterpart? s x := by
  intro x
  have hsame (hm : m'.matching = m.matching) : m'.counterpart? = m.counterpart? :=
    funext fun s ↦ by rw [counterpart?, hm, counterpart?]
  cases hr with
  | same ha hm => rw [hsame hm, ha.toSameShape.live, hlive]
  | moved tp i _ hm hmoved => rw [hsame hm, hmoved.live, hlive]
  | added ps tp i hle _ _ hfree hm hadded =>
    have hlink {s' t : NodeId} : m'.matching.old? s' = some t ↔
        (s' = s ∧ t = m.target.size) ∨ m.matching.old? s' = some t := by
      rw [hm]
      exact h.aligned.old?_link h.branch.wellFormed hfree
    -- one node is live that was not, and it stands for the node that had its turn
    rw [hadded.live, hlive, or_assoc]
    refine or_congr_right ?_
    constructor
    · rintro (⟨s', hc⟩ | rfl)
      · exact ⟨s', hc.live, hc.inserted, hc.free, hlink.2 (.inr hc.stand)⟩
      · refine ⟨s, hs, (hA.isInsertion_iff hs).2 hle, ?_, hlink.2 (.inl ⟨rfl, rfl⟩)⟩
        cases hst : first.counterpart? s with
        | none => rfl
        | some t =>
          rw [h.kept s t hst] at hfree
          cases hfree
    · rintro ⟨s', hc⟩
      rcases hlink.1 hc.stand with ⟨-, hx⟩ | hst
      · exact .inr hx
      · exact .inl ⟨s', hc.live, hc.inserted, hc.free, hst⟩

namespace Ready

variable (h : Ready n up first)
include h

theorem mem_live_mergePlacement (x : NodeId) : x ∈ first.mergePlacement.target.live ↔
    x ∈ first.target.live ∨
      ∃ s, Carried first.source first.counterpart? first.mergePlacement.counterpart? s x := by
  refine h.placement_induction (P := fun _ m ↦ ∀ x, x ∈ m.target.live ↔ x ∈ first.target.live ∨
    ∃ s, Carried first.source first.counterpart? m.counterpart? s x) (fun x ↦ ?_)
    (fun pre s m hp hs ih ↦ ?_) x
  · refine (or_iff_left ?_).symm
    rintro ⟨s, hc⟩
    have hfree := hc.free
    rw [hc.stand] at hfree
    cases hfree
  · exact hp.mem_live_of_reshaped
      (hp.reshaped h.source hs.live hs.ne_root (turned_follow _ m s)) h.source hs.live ih

theorem wellFormed_run : first.run.tree.WellFormed :=
  (alike_run first).toSameShape.wellFormed h.cleared.wellFormed

end Ready

theorem carried_ascribed {da : Tree} {p : Provenance} {partner stand : NodeId → Option NodeId}
    (hA : Branch n up da) : Carried (ascribed da p) partner stand s x ↔
      Carried da partner stand s x := by
  have hlive := (sameShape_ascribed da p).live
  constructor
  · rintro ⟨hs, hins, hfree, hstand⟩
    rw [hlive] at hs
    exact ⟨hs, hA.mark_ascribed p hs ▸ hins, hfree, hstand⟩
  · rintro ⟨hs, hins, hfree, hstand⟩
    exact ⟨hlive ▸ hs, (hA.mark_ascribed p hs).symm ▸ hins, hfree, hstand⟩

/-- A merge always succeeds, attaches nothing twice or beyond its siblings, and ends in a proper
tree. Its placement has all nodes of branch B and the insertions of branch A that it carries
over. -/
theorem proper_ofTrees (config : Config α) (wo : base.WellFormed) (wa : a.WellFormed)
    (wb : b.WellFormed) :
    ∃ da db r, Diff.deltaTree config base a = .ok da ∧ Diff.deltaTree config base b = .ok db ∧
      ofTrees config base a b = .ok r ∧ ofTrees? config base a b = some r ∧ r.tree.Proper ∧
      ∀ x, x ∈ (Merge.start config base da db).mergePlacement.target.live ↔ x ∈ db.live ∨
        ∃ s, Carried da (partner? config base da db) (standIn? config base da db) s x := by
  obtain ⟨da, hda, hA⟩ := branch_deltaTree config wo wa
  obtain ⟨db, hdb, hB⟩ := branch_deltaTree config wo wb
  have h : Ready _ _ (Merge.start config base da db) := ready_start config hA hB
  refine ⟨da, db, ofDeltas config base da db, hda, hdb, ofTrees_eq hda hdb,
    ofTrees?_eq wo wa wb hda hdb h, h.wellFormed_run.proper, fun x ↦ ?_⟩
  have hlive : (Merge.start config base da db).target.live = db.live :=
    (sameShape_ascribed db .branchB).live
  rw [h.mem_live_mergePlacement, hlive]
  exact or_congr_right (exists_congr fun s ↦ carried_ascribed hA)

def loopThenCritical : Tree :=
  .ofList { label := "description" } [(0, { label := "loop" }), (0, { label := "critical" })]

def nested (outer inner : String) : Tree :=
  .ofList { label := "description" } [(0, { label := outer }), (1, { label := inner }),
    (1, { label := "call" })]

/-- Branch A moves the loop into the critical section, and branch B the critical section into the
loop. -/
theorem proper_ofTrees_nested :
    ∃ da db r, Diff.deltaTree (Config.standard : Config Rat) loopThenCritical
        (nested "critical" "loop") = .ok da ∧
      Diff.deltaTree (Config.standard : Config Rat) loopThenCritical
        (nested "loop" "critical") = .ok db ∧
      ofTrees (Config.standard : Config Rat) loopThenCritical (nested "critical" "loop")
        (nested "loop" "critical") = .ok r ∧ r.tree.Proper := by
  have wo : loopThenCritical.WellFormed := wellFormed_ofList _ _ (by decide)
  have wf (outer inner : String) : (nested outer inner).WellFormed :=
    wellFormed_ofList _ _ (by simp)
  obtain ⟨da, db, r, hda, hdb, hr, -, hp, -⟩ := proper_ofTrees (Config.standard : Config Rat) wo
    (wf "critical" "loop") (wf "loop" "critical")
  exact ⟨da, db, r, hda, hdb, hr, hp⟩

end Merge

end FlowMerge
