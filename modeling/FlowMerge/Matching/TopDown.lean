import FlowMerge.Matching.Bucket

namespace FlowMerge.Matching

open Score

variable {α : Type} [Score α]

def uniqueChild? (t : Tree) (parent : NodeId) (label : String) : Option NodeId :=
  match (t.controlFlowChildren parent).filter fun c ↦ t.label c == label with
  | [c] => some c
  | _ => none

def counterpart? (old new : Tree) (o n c : NodeId) : Option NodeId :=
  if uniqueChild? new n (new.label c) = some c then uniqueChild? old o (new.label c) else none

def linkChildren (compare : Comparator α) (threshold : α) (old new : Tree) (m : Matching)
    (pair : NodeId × NodeId) : Matching × List (NodeId × NodeId) :=
  (new.controlFlowChildren pair.1).foldl (fun (m, found) c ↦
    match counterpart? old new pair.2 pair.1 c with
    | some oc =>
      if m.hasNew c || m.hasOld oc then (m, found)
      else if lt (compare old oc new c) threshold then (m.link c oc, found ++ [(c, oc)])
      else (m, found)
    | none => (m, found)) (m, [])

def descend (compare : Comparator α) (threshold : α) (old new : Tree) :
    Nat → Matching → List (NodeId × NodeId) → Matching
  | 0, m, _ => m
  | _ + 1, m, [] => m
  | fuel + 1, m, pair :: queue =>
    let (m, found) := linkChildren compare threshold old new m pair
    descend compare threshold old new fuel m (queue ++ found)

/-- Down from the matched pairs, by labels that are unique among siblings, then properties. -/
def topDown : Matcher α := fun compare thresholds old new seed ↦
  let m := seed.linkRoots
  let m := descend compare thresholds.leaf old new (m.size + new.size + 1) m m.pairs
  m.propagate old new

end FlowMerge.Matching
