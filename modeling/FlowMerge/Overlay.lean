import FlowMerge.Content

namespace FlowMerge

inductive Mark where
  | unchanged
  /-- New, while nodes below it may have been moved here. -/
  | inserted
  | subtreeInserted
  /-- Gone, while nodes below it may live on elsewhere. -/
  | deleted
  | subtreeDeleted
  | movedHere
  /-- Stands for a moved node at the place it left. -/
  | movedAway
  | updated
deriving DecidableEq, Inhabited, Repr

namespace Mark

def name : Mark → String
  | unchanged => "NIL"
  | inserted => "INSERTION"
  | subtreeInserted => "SUBTREE_INSERTION"
  | deleted => "DELETION"
  | subtreeDeleted => "SUBTREE_DELETION"
  | movedHere => "MOVE_TO"
  | movedAway => "MOVE_FROM"
  | updated => "UPDATE"

def all : List Mark :=
  [unchanged, inserted, subtreeInserted, deleted, subtreeDeleted, movedHere, movedAway, updated]

def ofName? (s : String) : Option Mark := all.find? fun m ↦ m.name == s

def isInsertion (m : Mark) : Bool := m == inserted || m == subtreeInserted

def isDeletion (m : Mark) : Bool := m == deleted || m == subtreeDeleted

def isMove (m : Mark) : Bool := m == movedHere || m == movedAway

end Mark

structure Delta where
  mark : Mark := .unchanged
  updates : Updates := []
  /-- Detached nodes that belong below this one when the changes are shown. -/
  placeholders : List Nat := []
  /-- The place of the node in the pre-order of the tree the changes start from. -/
  base : Option Nat := none
  moveId : Option Nat := none
  /-- The position among its siblings that the node had before any change. -/
  origin : Option Nat := none
deriving Inhabited

namespace Delta

def isUpdate (d : Delta) : Bool := !d.updates.isEmpty

def isNil (d : Delta) : Bool := d.mark == .unchanged && !d.isUpdate

def joined (d : Delta) (key : String) (next : Update) : Update :=
  match d.updates.get? key with
  | some previous => ⟨previous.old, next.new⟩
  | none => next

/-- The mark that says no less and no more than the field changes do. -/
def settled (d : Delta) : Delta :=
  if d.mark = .unchanged ∧ d.isUpdate then { d with mark := .updated }
  else if d.mark = .updated ∧ ¬ d.isUpdate then { d with mark := .unchanged }
  else d

/-- Adds a field change. The first old value stays, and a field that is back at it is no longer
recorded. -/
def record (d : Delta) (key : String) (next : Update) : Delta :=
  let u := d.joined key next
  let rest := d.updates.erase key
  settled { d with updates := if u.old = u.new then rest else rest.insert key u }

end Delta

inductive Provenance where
  | neither
  | branchA
  | branchB
deriving DecidableEq, Inhabited, Repr

namespace Provenance

def code : Provenance → Nat
  | neither => 0
  | branchA => 1
  | branchB => 2

end Provenance

/-- The aspects of a merged node that no conflict touched. -/
structure Confidence where
  content : Bool := true
  parent : Bool := true
  position : Bool := true
deriving DecidableEq, Inhabited, Repr

namespace Confidence

def code (c : Confidence) : Nat :=
  (if c.content then 1 else 0) + (if c.parent then 2 else 0) + (if c.position then 4 else 0)

def ofCode (n : Nat) : Confidence := ⟨n.testBit 0, n.testBit 1, n.testBit 2⟩

end Confidence

structure MergeInfo where
  provenance : Provenance := .neither
  confidence : Confidence := {}
deriving DecidableEq, Inhabited

inductive Overlay where
  | plain
  | changed (delta : Delta)
  | merged (delta : Delta) (info : MergeInfo)
deriving Inhabited

namespace Overlay

def delta? : Overlay → Option Delta
  | plain => none
  | changed d => some d
  | merged d _ => some d

def info? : Overlay → Option MergeInfo
  | merged _ m => some m
  | _ => none

def mapDelta (f : Delta → Delta) : Overlay → Overlay
  | plain => plain
  | changed d => changed (f d)
  | merged d m => merged (f d) m

def mapInfo (f : MergeInfo → MergeInfo) : Overlay → Overlay
  | merged d m => merged d (f m)
  | a => a

def blank : Overlay → Overlay
  | plain => plain
  | changed _ => changed {}
  | merged _ _ => merged {} {}

def isPlain : Overlay → Bool
  | plain => true
  | _ => false

end Overlay

end FlowMerge
