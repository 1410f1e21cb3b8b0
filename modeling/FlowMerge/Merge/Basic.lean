import FlowMerge.Merge.Align
import FlowMerge.Merge.Conflict
import FlowMerge.Merge.EditLog
import FlowMerge.Merge.State
import FlowMerge.Tree.Copy

namespace FlowMerge

/-- A merge under way. What branch A did to the base is done to branch B, which is the target. -/
structure Merge where
  source : Tree
  target : Tree
  /-- Nodes of the source, as the new ones, with their counterparts in the target. -/
  matching : Matching
  basePaths : List Path
  /-- Nodes of the source that have no place in the merged tree. -/
  dropped : List NodeId := []
  conflicts : ConflictLog := {}
  edits : EditLog := []
  states : Std.TreeMap NodeId MergeState := {}
deriving Inhabited

structure MergeResult where
  tree : Tree
  conflicts : ConflictLog
  edits : EditLog
  states : Std.TreeMap NodeId MergeState
deriving Inhabited

namespace MergeResult

def state (r : MergeResult) (id : NodeId) : MergeState := (r.states[id]?).getD .unseen

def merged (r : MergeResult) : Tree := r.tree.toPlain

end MergeResult

namespace Merge

def ascribed (branch : Tree) (p : Provenance) : Tree :=
  let t := branch.toMerge
  ⟨t.nodes.map fun n ↦
    { n with overlay := n.overlay.mapInfo fun i ↦ { i with provenance := p } }⟩

def start {α : Type} [Score α] (config : Config α) (base a b : Tree) : Merge :=
  let source := ascribed a .branchA
  let target := ascribed b .branchB
  { source, target, matching := align config.thresholds source target
    basePaths := base.live.map base.path }

variable (m : Merge)

def counterpart? (s : NodeId) : Option NodeId := m.matching.old? s

def basePath? (t : Tree) (id : NodeId) : Option Path := (base? t id).bind fun b ↦ m.basePaths[b]?

def modifyTarget (f : Tree → Tree) : Merge := { m with target := f m.target }

/-- Sets the state of a target node, unless it has a weightier one. -/
def setState (t : NodeId) (s : MergeState) : Merge :=
  { m with states := m.states.insert t (((m.states[t]?).getD .unseen).weightier s) }

def setProvenance (t : NodeId) (p : Provenance) : Merge :=
  m.modifyTarget fun tree ↦ tree.modifyInfo t fun i ↦ { i with provenance := p }

def doubtContent (t : NodeId) : Merge :=
  m.modifyTarget fun tree ↦ tree.modifyInfo t fun i ↦
    { i with confidence := { i.confidence with content := false } }

def doubtPlace (t : NodeId) : Merge :=
  m.modifyTarget fun tree ↦ tree.modifyInfo t fun i ↦
    { i with confidence := { i.confidence with parent := false, position := false } }

def queue (c : Conflict) : Merge := { m with conflicts := m.conflicts.queue c }

def logEdit (kind : EditKind) (t : NodeId) : Merge :=
  let e : Edit := ⟨kind, m.target.path t, m.basePath? m.target t, .branchA⟩
  { m with edits := m.edits ++ [e] }

def drop (s : NodeId) : Merge := { m with dropped := s :: m.dropped }

end Merge

end FlowMerge
