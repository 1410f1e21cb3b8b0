import FlowMerge.Merge.Fields
import FlowMerge.Merge.Removal
import FlowMerge.Script.Derive
import FlowMerge.Script.Patch

namespace FlowMerge

structure Diff where
  matching : Matching
  script : Script
deriving Inhabited

variable {α : Type} [Score α]

namespace Diff

def ofTrees (config : Config α) (old new : Tree) : Diff :=
  let m := Script.clean old new (config.matchTrees old new)
  ⟨m, Script.ofMatching old new m⟩

def deltaTree (config : Config α) (old new : Tree) : Except Error Tree :=
  Script.patch old (ofTrees config old new).script

end Diff

namespace Merge

variable (m : Merge)

def finalState (t : NodeId) : MergeState :=
  match m.target.mark t with
  | .inserted | .subtreeInserted => .inserted
  | .movedHere => .moved
  | _ => if (m.target.delta? t).any Delta.isUpdate then .updated else .noChange

/-- Nodes of branch B that nothing happened to belong to neither branch. -/
def disown (n : Node) : Node :=
  if n.overlay.delta?.any Delta.isNil then
    { n with overlay := n.overlay.mapInfo fun i ↦
        if i.provenance = .branchB then { i with provenance := .neither } else i }
  else n

def finish : MergeResult :=
  let m := m.target.live.foldl (fun m t ↦ m.setState t (m.finalState t)) m
  { tree := ⟨m.target.nodes.map disown⟩
    conflicts := m.conflicts.resolveAll
    edits := m.edits
    states := m.states.map fun _ s ↦ s.settled }

def run : MergeResult := m.mergePlacement.mergeContent.mergeDeletions.finish

/-- Merges two branches of a base, given with what they changed. -/
def ofDeltas (config : Config α) (base a b : Tree) : MergeResult := (start config base a b).run

def ofTrees (config : Config α) (base a b : Tree) : Except Error MergeResult := do
  let a ← Diff.deltaTree config base a
  let b ← Diff.deltaTree config base b
  return ofDeltas config base a b

end Merge

end FlowMerge
