import FlowMerge.Merge.Basic

namespace FlowMerge.Merge

variable (m : Merge)

/-- The place below `tp` after the counterpart of the nearest sibling before `s` that is there. -/
def targetIndex (s tp : NodeId) : Nat :=
  match m.source.parent? s with
  | none => 0
  | some ps =>
    let before := ((m.source.children ps).take (m.source.position s)).reverse
    match (before.filterMap m.counterpart?).find? fun t ↦ m.target.parent? t == some tp with
    | some t => m.target.position t + 1
    | none => 0

def moveConflict (t : NodeId) (text : String) (resolution : Resolution) : Merge :=
  ((m.queue { kind := .move, text, path := m.target.path t, resolution,
              base := m.basePath? m.target t }).setState t .moveConflict).doubtPlace t

def moveBelow (s t tp : NodeId) : Merge :=
  let m := m.modifyTarget fun tree ↦ tree.detach t
  let i := m.targetIndex s tp
  let m := m.modifyTarget fun tree ↦ (tree.insertChild tp i t).setMark t .movedHere
  (m.setProvenance t .branchA).logEdit .move t

/-- Follows a move of branch A. Its place wins, unless its parent is gone or the node would come
to lie below itself. -/
def placeMatched (s t : NodeId) : Merge :=
  match m.source.mark s, m.source.parent? s with
  | .movedHere, some ps =>
    let alsoMoved := m.target.mark t == .movedHere
    match m.counterpart? ps with
    | none =>
      m.moveConflict t "branch A moved the node under a parent branch B removed" .branchB
    | some tp =>
      if alsoMoved && m.target.parent? t == some tp then m.setState t .moved
      else if m.target.isAncestorOrSelf t tp then
        m.moveConflict t "branch A's move would nest the node under itself" .branchB
      else
        let m := m.moveBelow s t tp
        if alsoMoved then m.moveConflict t "both branches moved the node" .branchA
        else m.setState t .moved
  | _, _ => m

def carryInsertion (s tp : NodeId) : Merge :=
  let (tree, t) := m.target.importNode m.source s
  let m := { m with target := tree.setMark t .inserted }
  let m := m.setProvenance t .branchA
  let i := m.targetIndex s tp
  let m := m.modifyTarget fun tree ↦ tree.insertChild tp i t
  let m := { m with matching := m.matching.link s t }
  (m.setState t .inserted).logEdit .insert t

def isNil (t : Tree) (id : NodeId) : Bool := (t.delta? id).any Delta.isNil

/-- Whether branch A changed a node or anything below it that has no counterpart. -/
def changedInSource (s : NodeId) : Bool :=
  (m.source.preorder s).any fun d ↦
    (d == s || !m.matching.hasNew d) && !isNil m.source d

def deletedCounterpart? (deleted : List (Nat × NodeId)) (s : NodeId) : Option NodeId :=
  (base? m.source s).bind fun b ↦ (deleted.find? fun e ↦ e.1 == b).map Prod.snd

def dropDeleted (deleted : List (Nat × NodeId)) (s : NodeId) : Merge :=
  let m := m.drop s
  let gone := m.deletedCounterpart? deleted s
  if m.changedInSource s then
    let m := m.queue { kind := .deletion, text := "deleted in branch B, changed in branch A",
                       path := m.source.path s, resolution := .deleted,
                       base := m.basePath? m.source s }
    match gone with
    | some t => (m.setState t .deleteConflict).doubtContent t
    | none => m
  else match gone with
    | some t => m.setState t .deleted
    | none => m

/-- Handles a source node without counterpart. Below a dropped node all others are dropped. -/
def carryUnmatched (deleted : List (Nat × NodeId)) (s : NodeId) : Merge :=
  match m.source.parent? s with
  | none => m
  | some ps =>
    if m.dropped.contains ps then m.drop s
    else if (m.source.mark s).isInsertion then
      match m.counterpart? ps with
      | none => m.drop s
      | some tp => m.carryInsertion s tp
    else m.dropDeleted deleted s

def deletedInTarget (t : Tree) : List (Nat × NodeId) :=
  ((List.range t.size).filterMap fun id ↦
    if !t.isAttached id && t.mark id == .deleted then (base? t id).map fun b ↦ (b, id)
    else none).reverse

def mergePlacement : Merge :=
  let deleted := deletedInTarget m.target
  m.source.live.tail.foldl (fun m s ↦
    match m.counterpart? s with
    | some t => m.placeMatched s t
    | none => m.carryUnmatched deleted s) m

end FlowMerge.Merge
