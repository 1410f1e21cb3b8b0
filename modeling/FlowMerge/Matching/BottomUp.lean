import FlowMerge.Matching.Bucket

namespace FlowMerge.Matching

open Score

variable {α : Type} [Score α]

def coversHalf (old new : Tree) (m : Matching) (po pn : NodeId) : Bool :=
  let below := old.controlFlowBelow po
  let inside := below.countP fun d ↦
    (m.new? d).any fun nd ↦ nd != pn && new.isAncestorOrSelf pn nd
  below.length ≤ 2 * inside

def promotable (compare : Comparator α) (threshold : α) (old new : Tree) (m : Matching)
    (pn po : NodeId) : Bool :=
  !m.hasNew pn && !m.hasOld po && !atLeast (compare old po new pn) threshold &&
    coversHalf old new m po pn

def promote (compare : Comparator α) (threshold : α) (old new : Tree) (m : Matching)
    (pair : NodeId × NodeId) : Matching :=
  match new.parent? pair.1, old.parent? pair.2 with
  | some pn, some po =>
    if promotable compare threshold old new m pn po then m.link pn po else m
  | _, _ => m

def round (compare : Comparator α) (threshold : α) (old new : Tree) (m : Matching) : Matching :=
  m.pairs.foldl (promote compare threshold old new) m

/-- Rounds until one adds nothing. A round that changes anything adds a pair. -/
def rounds (compare : Comparator α) (threshold : α) (old new : Tree) : Nat → Matching → Matching
  | 0, m => m
  | fuel + 1, m =>
    let next := round compare threshold old new m
    if next.size = m.size then next else rounds compare threshold old new fuel next

/-- Up from the seed, or from the leaves when there is none, then the roots and properties. -/
def bottomUp : Matcher α := fun compare thresholds old new seed ↦
  let m := if seed.size = 0 then linkLeaves compare thresholds.leaf true old new seed else seed
  let m := rounds compare thresholds.inner old new (new.size + 1) m
  m.linkRoots.propagate old new

end FlowMerge.Matching
