import FlowMerge.Proofs.Merge.Insertions
import FlowMerge.Proofs.Script.Annotated
import FlowMerge.Proofs.Script.Strict

namespace FlowMerge.Merge

open FlowMerge.Tree

variable {α : Type} [Score α] {base a b : Tree} {first m : Merge} {s t tp : NodeId} {n : Nat}
  {up : NodeId → Option NodeId}

def moveBelow? (m : Merge) (s t tp : NodeId) : Option Merge :=
  let m := m.modifyTarget fun tree ↦ tree.detach t
  (m.target.join? tp (m.targetIndex s tp) t).map fun tree ↦
    let m := m.modifyTarget fun _ ↦ tree.setMark t .movedHere
    (m.setProvenance t .branchA).logEdit .move t

def placeMatched? (m : Merge) (s t : NodeId) : Option Merge :=
  match m.source.mark s, m.source.parent? s with
  | .movedHere, some ps =>
    let alsoMoved := m.target.mark t == .movedHere
    match m.counterpart? ps with
    | none =>
      some (m.moveConflict t "branch A moved the node under a parent branch B removed" .branchB)
    | some tp =>
      if alsoMoved && m.target.parent? t == some tp then some (m.setState t .moved)
      else if m.target.isAncestorOrSelf t tp then
        some (m.moveConflict t "branch A's move would nest the node under itself" .branchB)
      else
        (m.moveBelow? s t tp).map fun m ↦
          if alsoMoved then m.moveConflict t "both branches moved the node" .branchA
          else m.setState t .moved
  | _, _ => some m

def carryInsertion? (m : Merge) (s tp : NodeId) : Option Merge :=
  let (tree, t) := m.target.importNode m.source s
  let m := { m with target := tree.setMark t .inserted }
  let m := m.setProvenance t .branchA
  (m.target.join? tp (m.targetIndex s tp) t).map fun tree ↦
    let m := m.modifyTarget fun _ ↦ tree
    let m := { m with matching := m.matching.link s t }
    (m.setState t .inserted).logEdit .insert t

def carryUnmatched? (m : Merge) (deleted : List (Nat × NodeId)) (s : NodeId) : Option Merge :=
  match m.source.parent? s with
  | none => some m
  | some ps =>
    if m.dropped.contains ps then some (m.drop s)
    else if (m.source.mark s).isInsertion then
      match m.counterpart? ps with
      | none => some (m.drop s)
      | some tp => m.carryInsertion? s tp
    else some (m.dropDeleted deleted s)

def follow? (deleted : List (Nat × NodeId)) (m : Merge) (s : NodeId) : Option Merge :=
  match m.counterpart? s with
  | some t => m.placeMatched? s t
  | none => m.carryUnmatched? deleted s

def mergePlacement? (m : Merge) : Option Merge :=
  m.source.live.tail.foldlM (follow? (deletedInTarget m.target)) m

def ofTrees? (config : Config α) (base a b : Tree) : Option MergeResult := do
  let a ← Script.patch? base (Diff.ofTrees config base a).script
  let b ← Script.patch? base (Diff.ofTrees config base b).script
  let m ← (Merge.start config base a b).mergePlacement?
  some m.mergeContent.mergeDeletions.finish

theorem moveBelow?_eq (w : m.target.WellFormed) (hr : t ≠ root) :
    m.moveBelow? s t tp = some (m.moveBelow s t tp) := by
  have htop : (m.target.detach t).parent? t = none := by rw [w.parent?_detach, if_pos rfl]
  have hle := targetIndex_le (m := m.modifyTarget fun tree ↦ tree.detach t) (w.detach t) s tp
  rw [moveBelow?]
  exact congrArg (Option.map _) (join?_eq htop hr hle)

theorem placeMatched_of_ne (h : m.source.mark s ≠ .movedHere) :
    m.placeMatched? s t = some m ∧ m.placeMatched s t = m := by
  constructor
  · rw [placeMatched?]
    split
    · next hm _ => exact absurd hm h
    · rfl
  · rw [placeMatched]
    split
    · next hm _ => exact absurd hm h
    · rfl

theorem placeMatched?_eq (w : m.target.WellFormed)
    (hr : m.source.mark s = .movedHere → t ≠ root) :
    m.placeMatched? s t = some (m.placeMatched s t) := by
  by_cases hm : m.source.mark s = .movedHere
  · have hmove (tp : NodeId) : m.moveBelow? s t tp = some (m.moveBelow s t tp) :=
      moveBelow?_eq w (hr hm)
    simp only [placeMatched?, placeMatched, hm]
    cases m.source.parent? s with
    | none => rfl
    | some ps =>
      dsimp only
      cases m.counterpart? ps with
      | none => rfl
      | some tp =>
        dsimp only
        rw [hmove]
        split
        · rfl
        · split <;> rfl
  · obtain ⟨hstrict, hplain⟩ := placeMatched_of_ne (t := t) hm
    rw [hstrict, hplain]

theorem carryInsertion?_eq (w : m.target.WellFormed) (s tp : NodeId) :
    m.carryInsertion? s tp = some (m.carryInsertion s tp) := by
  let m' : Merge := ({ m with target := m.copied s } : Merge).setProvenance m.target.size .branchA
  have hshape : SameShape m'.target (m.copied s) := sameShape_modifyInfo ..
  have htop : m'.target.parent? m.target.size = none := by
    rw [hshape.parent?, parent?_copied, parent?_of_size_le (Nat.le_refl _)]
  have hle := targetIndex_le (m := m') (hshape.wellFormed (wellFormed_copied w s)) s tp
  have hjoin := join?_eq htop (Nat.ne_of_gt w.root_lt) hle
  have hstrict : m.carryInsertion? s tp = (m'.target.join? tp (m'.targetIndex s tp)
      m.target.size).map fun tree ↦ (({ m' with
        target := tree
        matching := m'.matching.link s m.target.size } : Merge).setState m.target.size
          .inserted).logEdit .insert m.target.size := rfl
  rw [hstrict, hjoin]
  rfl

theorem carryUnmatched?_eq (w : m.target.WellFormed) (deleted : List (Nat × NodeId))
    (s : NodeId) : m.carryUnmatched? deleted s = some (m.carryUnmatched deleted s) := by
  rw [carryUnmatched?, carryUnmatched]
  cases m.source.parent? s with
  | none => rfl
  | some ps =>
    dsimp only
    split
    · rfl
    · split
      · cases m.counterpart? ps with
        | none => rfl
        | some tp => exact carryInsertion?_eq w s tp
      · rfl

theorem follow?_eq (w : m.target.WellFormed) (hr : ∀ t, m.matching.old? s = some t →
    m.source.mark s = .movedHere → t ≠ root) (deleted : List (Nat × NodeId)) :
    follow? deleted m s = some (follow deleted m s) := by
  rw [follow?, follow]
  cases hst : m.counterpart? s with
  | some t => exact placeMatched?_eq w (hr t hst)
  | none => exact carryUnmatched?_eq w deleted s

theorem Ready.mergePlacement?_eq (h : Ready n up first) :
    first.mergePlacement? = some first.mergePlacement := by
  refine h.placement_induction (P := fun pre m ↦
    pre.foldlM (follow? (deletedInTarget first.target)) first = some m) rfl
      fun pre s m hp hs ih ↦ ?_
  rw [foldlM_snoc ih]
  refine follow?_eq hp.branch.wellFormed (fun t hst hm ↦ ?_) _
  -- only nodes of the base are moved, and these are tied to themselves
  have hne : first.source.mark s ≠ .inserted := by
    rw [← hp.source, hm]
    exact nofun
  rw [hp.aligned.eq_of_lt h.source hp.branch hst (h.source.lt_of_mark hs.live hne)]
  exact hs.ne_root

theorem deltaTree?_eq {config : Config α} {d : Tree} (wo : base.WellFormed) (wa : a.WellFormed)
    (h : Diff.deltaTree config base a = .ok d) :
    Script.patch? base (Diff.ofTrees config base a).script = some d :=
  Script.patch?_eq wo (fun _ hc _ hu ↦ Script.wellFormed_payload wa hc hu) h

/-- A merge attaches only detached nodes, and only to places that are there. -/
theorem ofTrees?_eq {config : Config α} {da db : Tree} (wo : base.WellFormed) (wa : a.WellFormed)
    (wb : b.WellFormed) (hda : Diff.deltaTree config base a = .ok da)
    (hdb : Diff.deltaTree config base b = .ok db) (h : Ready n up (Merge.start config base da db)) :
    ofTrees? config base a b = some (ofDeltas config base da db) := by
  rw [ofTrees?, deltaTree?_eq wo wa hda, deltaTree?_eq wo wb hdb]
  simp only [bind, Option.bind, h.mergePlacement?_eq]
  rfl

end FlowMerge.Merge
