import FlowMerge.Tree.Basic

namespace FlowMerge.Tree

def originLe : Option Nat → Option Nat → Bool
  | none, _ => true
  | some _, none => false
  | some i, some j => i ≤ j

def origin? (t : Tree) (id : NodeId) : Option Nat := (t.delta? id).bind Delta.origin

def insideMove (t : Tree) (id : NodeId) : Bool :=
  (id :: t.ancestors id).any fun a ↦ t.mark a == .movedHere

/-- Puts a placeholder back at the place it came from, or last when that is not known. -/
def restore (parent : NodeId) (t : Tree) (placeholder : NodeId) : Tree :=
  let count := (t.children parent).length
  let i := match t.origin? placeholder with
    | some i => min i count
    | none => count
  t.insertChild parent i placeholder

/-- Makes the placeholders of a node its children. Stand-ins for moved nodes are dropped where
what is around them was moved itself. -/
def restoreAll (t : Tree) (id : NodeId) : Tree :=
  let recorded := ((t.delta? id).map Delta.placeholders).getD []
  let t := t.modifyDelta id fun d ↦ { d with placeholders := [] }
  let sorted := recorded.mergeSort fun p q ↦ originLe (t.origin? p) (t.origin? q)
  let shown := if t.insideMove id then sorted.filter fun p ↦ t.mark p != .movedAway else sorted
  shown.foldl (restore id) t

def restoreWithin : Nat → Tree → NodeId → Tree
  | 0, t, _ => t
  | fuel + 1, t, id =>
    let t := t.restoreAll id
    (t.children id).foldl (restoreWithin fuel) t

def resolvePlaceholders (t : Tree) : Tree := restoreWithin t.size t root

end FlowMerge.Tree
