import FlowMerge.Matching.Basic
import FlowMerge.Script.Basic
import FlowMerge.Sequence
import FlowMerge.Tree.Copy

namespace FlowMerge.Script

/-- The pairs that a script can follow: the roots with each other, and live nodes. -/
def clean (old new : Tree) (m : Matching) : Matching :=
  (m.retain fun n o ↦ (n == Tree.root) == (o == Tree.root) &&
    new.isAttached n && old.isAttached o).linkRoots

variable (old new : Tree) (m : Matching)

def staying (po pn : NodeId) : List (NodeId × NodeId) :=
  (new.children pn).filterMap fun c ↦
    match m.old? c with
    | some oc => if old.parent? oc = some po then some (c, oc) else none
    | none => none

/-- The largest choice of staying children whose order is the same on both sides. -/
def inOrder (pn : NodeId) : List NodeId :=
  match m.old? pn with
  | none => []
  | some po =>
    let kept := staying old new m po pn
    let before := (old.children po).filter fun oc ↦ (kept.map Prod.snd).contains oc
    (Sequence.commonPairs (fun c oc ↦ c.2 == oc) kept before).filterMap fun (i, _) ↦
      kept[i]?.map Prod.fst

/-- Whether a matched node has another parent than its counterpart, or is not among the children
of its parent that kept their order. -/
def isMoved (ordered : List NodeId) (n o : NodeId) : Bool :=
  match new.parent? n, old.parent? o with
  | none, _ => false
  | some _, none => true
  | some pn, some po => m.old? pn != some po || !ordered.contains n

def moveOf (ordered : List NodeId) (n o : NodeId) : Script :=
  if n != Tree.root && isMoved old new m ordered n o then
    [{ kind := .move, old := some (old.path o), new := some (new.path n) }]
  else []

def updateOf (n o : NodeId) : Script :=
  let updates := (old.content o).diffFields (new.content n)
  if updates.isEmpty then []
  else [{ kind := .update, old := some (old.path o), payload := some (new.nodeCopy n), updates }]

/-- The changes that show in the new tree, in its pre-order. Of the siblings of the node those in
`ordered` need no move. -/
def additionsWithin : Nat → List NodeId → NodeId → Script
  | 0, _, _ => []
  | fuel + 1, ordered, n =>
    let deeper := (new.children n).flatMap (additionsWithin fuel (inOrder old new m n))
    match m.old? n with
    | some o => moveOf old new m ordered n o ++ updateOf old new n o ++ deeper
    | none =>
      if (new.below n).any m.hasNew then
        { kind := .insertion, new := some (new.path n), payload := some (new.nodeCopy n) } :: deeper
      else
        [{ kind := .subtreeInsertion, new := some (new.path n),
           payload := some (new.subtreeCopy n) }]

def removalsWithin : Nat → NodeId → Script
  | 0, _ => []
  | fuel + 1, o =>
    let deeper := (old.children o).flatMap (removalsWithin fuel)
    if m.hasOld o then deeper
    else if (old.below o).any m.hasOld then
      { kind := .deletion, old := some (old.path o) } :: deeper
    else [{ kind := .subtreeDeletion, old := some (old.path o) }]

def ofMatching : Script :=
  additionsWithin old new m new.size [] Tree.root ++ removalsWithin old m old.size Tree.root

def derive : Script := ofMatching old new (clean old new m)

end FlowMerge.Script
