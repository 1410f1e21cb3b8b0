import FlowMerge.Matching.Bucket

namespace FlowMerge.Matching

open Score

variable {α : Type} [Score α]

/-- Proposes two ancestors of a matched pair of leaves for each other. An ancestor that is already
proposed for another node on the same old path is left alone, which keeps their order. -/
def proposeAncestors (compare : Comparator α) (threshold : α) (old new : Tree)
    (oldPath : List NodeId) (m : Matching) (n o : NodeId) : Matching :=
  if m.hasNew n || m.hasOld o then m
  else if (m.candidates n).any fun c ↦ c != o && oldPath.contains c then m
  else if lt (compare old o new n) threshold then m.propose n o
  else m

def alignAncestors (compare : Comparator α) (threshold : α) (old new : Tree) (m : Matching)
    (leaves : NodeId × NodeId) : Matching :=
  let newPath := new.ancestors leaves.1
  let oldPath := old.ancestors leaves.2
  let aligned := Sequence.commonPairs (fun a b ↦ new.label a == old.label b) newPath oldPath
  aligned.foldl (fun m (i, j) ↦
    match newPath[i]?, oldPath[j]? with
    | some n, some o => proposeAncestors compare threshold old new oldPath m n o
    | _, _ => m) m

def share (old new : Tree) (m : Matching) (n o : NodeId) : α :=
  let covered := (new.below n).countP fun d ↦
    (m.old? d).any fun od ↦ od != o && old.isAncestorOrSelf o od
  ratio covered (max (new.subtreeSize n - 1) 1)

def container (old new : Tree) (m : Matching) (n : NodeId) (olds : List NodeId) : Option NodeId :=
  (olds.foldl (fun b o ↦
    let s : α := share old new m n o
    match b with
    | none => some (s, o)
    | some (r, p) => some (if lt r s then (s, o) else (r, p))) none).map Prod.snd

/-- Leaves whatever their labels, then their ancestors along aligned paths, then properties. -/
def path : Matcher α := fun compare thresholds old new seed ↦
  let m := seed.linkRoots
  let m := linkLeaves compare thresholds.leaf false old new m
  let leafPairs := m.pairs.filter fun p ↦
    p.1 != Tree.root && new.isLeaf p.1 && old.isLeaf p.2
  let m := leafPairs.foldl (alignAncestors compare thresholds.inner old new) m
  let m := m.reduce (@container α _ old new)
  m.propagate old new

end FlowMerge.Matching
