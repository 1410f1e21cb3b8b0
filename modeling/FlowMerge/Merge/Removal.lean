import FlowMerge.Merge.Placement

namespace FlowMerge.Merge

variable (m : Merge)

def changedInTarget (t : NodeId) : Bool := (m.target.preorder t).any fun d ↦ !isNil m.target d

/-- Takes a node that branch A deleted out of the target. It is a conflict if branch B changed
something there. -/
def remove (t parent : NodeId) : Merge :=
  let changed := m.changedInTarget t
  let m := m.logEdit .delete t
  let m := if changed then
      (m.queue { kind := .deletion, text := "deleted in branch A, changed in branch B",
                 path := m.target.path t, resolution := .deleted,
                 base := m.basePath? m.target t }).setState t .deleteConflict
    else m.setState t .deleted
  let m := m.modifyTarget fun tree ↦ tree.markSubtree t .deleted
  let m := (m.target.preorder t).foldl (fun m d ↦ m.setProvenance d .branchA) m
  m.modifyTarget fun tree ↦ (tree.addPlaceholder parent t).detach t

def doomed : List NodeId :=
  let kept := m.source.live.filterMap (base? m.source)
  m.target.live.tail.filter fun t ↦ (base? m.target t).any fun b ↦ !kept.contains b

/-- Takes over the deletions of branch A. What went with a node above is left alone. -/
def mergeDeletions : Merge :=
  m.doomed.foldl (fun m t ↦
    if m.target.isAttached t then
      match m.target.parent? t with
      | some parent => m.remove t parent
      | none => m
    else m) m

end FlowMerge.Merge
