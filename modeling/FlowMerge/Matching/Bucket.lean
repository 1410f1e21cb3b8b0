import FlowMerge.Compare
import FlowMerge.Matching.Properties

namespace FlowMerge

abbrev Matcher (α : Type) :=
  Comparator α → Thresholds α → (old new : Tree) → Matching → Matching

namespace Matching

open Score

variable {α : Type} [Score α]

/-- A candidate with its cost and its distance, which decides between equal costs. -/
structure Candidate (α : Type) where
  cost : α
  distance : Nat
  node : NodeId

def Candidate.better (x y : Candidate α) : Bool :=
  lt x.cost y.cost || (beq x.cost y.cost && x.distance < y.distance)

def best (cs : List (Candidate α)) : Option (Candidate α) :=
  cs.foldl (fun b c ↦
    match b with
    | none => some c
    | some d => some (if c.better d then c else d)) none

def distance (i j : Nat) : Nat := (i - j) + (j - i)

def place (order : List NodeId) (id : NodeId) : Nat := order.idxOf id

def linkBest (oldOrder newOrder : List NodeId) (threshold : α) (cost : NodeId → α)
    (olds : List NodeId) (m : Matching) (n : NodeId) : Matching :=
  let found := best (olds.map fun o ↦
    ⟨cost o, distance (place oldOrder o) (place newOrder n), o⟩)
  match found with
  | some c => if lt c.cost threshold then m.link n c.node else m
  | none => m

/-- Ties each free new leaf to the closest old leaf that was free before. A later leaf may take an
old leaf from an earlier one. With `byLabel`, only leaves of the same label are compared. -/
def linkLeaves (compare : Comparator α) (threshold : α) (byLabel : Bool) (old new : Tree)
    (m : Matching) : Matching :=
  let free := old.leaves.filter fun o ↦ !m.hasOld o
  let oldOrder := old.live
  let newOrder := new.live
  new.leaves.foldl (fun m n ↦
    if m.hasNew n then m
    else
      let bucket := if byLabel then free.filter fun o ↦ old.label o == new.label n else free
      linkBest oldOrder newOrder threshold (fun o ↦ compare old o new n) bucket m n) m

def overlap (m : Matching) (oldBelow newBelow : List NodeId) : α :=
  let common := newBelow.countP fun d ↦ (m.old? d).any oldBelow.contains
  let total := oldBelow.length + newBelow.length
  if total = 0 then zero else ratio (2 * common) total

/-- Ties the free inner nodes, those with the smallest subtrees first. The nodes themselves and
what is already tied below them both count. -/
def linkInner (compare : Comparator α) (threshold : α) (old new : Tree) (m : Matching) :
    Matching :=
  let free := (old.innerNodes.filter fun o ↦ !m.hasOld o)
  let oldOrder := old.live
  let newOrder := new.live
  let bySize := (new.innerNodes.map fun n ↦ (new.subtreeSize n, n)).mergeSort fun x y ↦ x.1 ≤ y.1
  bySize.foldl (fun m (_, n) ↦
    if m.hasNew n then m
    else
      let newBelow := new.controlFlowBelow n
      let cost := fun o ↦ ratio 4 10 * compare old o new n +
        ratio 6 10 * (one - overlap m (old.controlFlowBelow o) newBelow)
      linkBest oldOrder newOrder threshold cost free m n) m

def bucket : Matcher α := fun compare thresholds old new seed ↦
  let m := seed.linkRoots
  let m := linkLeaves compare thresholds.leaf true old new m
  let m := linkInner compare thresholds.inner old new m
  m.propagate old new

end Matching

end FlowMerge
