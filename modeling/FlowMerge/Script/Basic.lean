import FlowMerge.Text.Quoted
import FlowMerge.Tree.Basic

namespace FlowMerge

inductive ChangeKind where
  /-- One new node. What hangs below it comes with later changes. -/
  | insertion
  | subtreeInsertion
  /-- One node goes. What hung below it moves or goes with changes of its own. -/
  | deletion
  | subtreeDeletion
  | move
  | update
deriving DecidableEq, Inhabited, Repr

namespace ChangeKind

def name : ChangeKind → String
  | insertion => "INSERTION"
  | subtreeInsertion => "SUBTREE_INSERTION"
  | deletion => "DELETION"
  | subtreeDeletion => "SUBTREE_DELETION"
  | move => "MOVE"
  | update => "UPDATE"

def all : List ChangeKind := [insertion, subtreeInsertion, deletion, subtreeDeletion, move, update]

def ofName? (s : String) : Option ChangeKind := all.find? fun k ↦ k.name == s

def isInsertion (k : ChangeKind) : Bool := k == insertion || k == subtreeInsertion

def isDeletion (k : ChangeKind) : Bool := k == deletion || k == subtreeDeletion

end ChangeKind

/-- One step of an edit script. Old paths lead into the tree before the script, new paths into the
tree as it grows. -/
structure Change where
  kind : ChangeKind
  old : Option Path := none
  new : Option Path := none
  payload : Option Tree := none
  updates : Updates := []
deriving Inhabited

abbrev Script := List Change

namespace Change

def pathText (p : Option Path) : String := (p.map Path.text).getD ""

def valueText (v : Option String) : String := (v.map Text.quoted).getD "-"

def updateText (e : String × Update) : String :=
  " " ++ e.1 ++ ": " ++ valueText e.2.old ++ " -> " ++ valueText e.2.new

def payloadText (withSize : Bool) (t : Tree) : String :=
  " <" ++ t.label Tree.root ++ ">" ++
    (if withSize then " (" ++ Decimal.text t.live.length ++ " nodes)" else "")

def text (c : Change) : String :=
  c.kind.name ++ " " ++
  match c.kind with
  | .insertion => pathText c.new ++ ((c.payload.map (payloadText false)).getD "")
  | .subtreeInsertion => pathText c.new ++ ((c.payload.map (payloadText true)).getD "")
  | .deletion | .subtreeDeletion => pathText c.old
  | .move => pathText c.old ++ " -> " ++ pathText c.new
  | .update => pathText c.old ++ String.join (c.updates.map updateText)

end Change

namespace Script

def text (s : Script) : String := String.join (s.map fun c ↦ c.text ++ "\n")

def count (s : Script) (k : ChangeKind) : Nat := s.countP fun c ↦ c.kind == k

end Script

end FlowMerge
