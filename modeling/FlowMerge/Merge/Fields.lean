import FlowMerge.Merge.Basic

namespace FlowMerge.Merge

variable (m : Merge)

def bothInserted (s t : NodeId) : Bool :=
  (m.source.mark s).isInsertion && (m.target.mark t).isInsertion

/-- The field changes of branch A. Of a node that both inserted they are all differences. -/
def sourceUpdates (s t : NodeId) : Updates :=
  if m.bothInserted s t then (m.target.content t).diffFields (m.source.content s)
  else ((m.source.delta? s).map Delta.updates).getD []

def takeField (t : NodeId) (key : String) (current value : Option String) : Merge :=
  let m := m.modifyTarget fun tree ↦
    (tree.modifyContent t fun c ↦ c.setField key value).recordUpdate t key ⟨current, value⟩
  (m.setProvenance t .branchA).logEdit .update t

def updateConflict (t : NodeId) (key : String) : Merge :=
  ((m.queue { kind := .update, text := "both branches set " ++ key, path := m.target.path t,
              resolution := .branchA, base := m.basePath? m.target t,
              field := some key }).setState t .updateConflict).doubtContent t

/-- Takes over one field change. It is a conflict if branch B set the field to something else. -/
def mergeField (contested : String → Bool) (t : NodeId) (m : Merge) (e : String × Update) :
    Merge :=
  let current := (m.target.content t).field e.1
  if current = e.2.new then m
  else
    let m := m.takeField t e.1 current e.2.new
    if contested e.1 then m.updateConflict t e.1 else m.setState t .updated

def mergeFields (m : Merge) (pair : NodeId × NodeId) : Merge :=
  let both := m.bothInserted pair.1 pair.2
  let theirs := ((m.target.delta? pair.2).map Delta.updates).getD []
  (m.sourceUpdates pair.1 pair.2).foldl
    (mergeField (fun key ↦ both || (theirs.get? key).isSome) pair.2) m

def mergeContent : Merge :=
  (m.source.live.filterMap fun s ↦ (m.counterpart? s).map fun t ↦ (s, t)).foldl mergeFields m

end FlowMerge.Merge
