import FlowMerge.Matching.Basic

namespace FlowMerge.Matching

def isFreeProperty (t : Tree) (m : Matching) (label : String) (c : NodeId) : Bool :=
  !t.isControlFlow c && !m.hasOld c && t.label c == label

/-- Ties the free property children of two nodes by label, each to the first one left, and goes on
below those it ties. -/
def linkProperties (old new : Tree) : Nat → Matching → NodeId × NodeId → Matching
  | 0, m, _ => m
  | fuel + 1, m, (n, o) =>
    (new.children n).foldl (fun m c ↦
      if new.isControlFlow c || m.hasNew c then m
      else match (old.children o).find? (isFreeProperty old m (new.label c)) with
        | some oc => linkProperties old new fuel (m.link c oc) (c, oc)
        | none => m) m

def propagate (old new : Tree) (m : Matching) : Matching :=
  (m.pairs.filter fun p ↦ new.isControlFlow p.1 && old.isControlFlow p.2).foldl
    (linkProperties old new new.size) m

end FlowMerge.Matching
