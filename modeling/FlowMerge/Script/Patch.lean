import FlowMerge.Script.Basic
import FlowMerge.Tree.Copy

namespace FlowMerge.Script

def pristine (t : Tree) : Tree :=
  let d := t.toDelta
  d.live.tail.foldl (fun d id ↦
    d.modifyDelta id fun x ↦ { x with origin := some (d.position id) }) d

def missing (c : Change) (what : String) : Error :=
  .notApplicable (c.kind.name ++ " without " ++ what)

def target (d : Tree) (c : Change) : Except Error (Option NodeId) :=
  if c.kind.isInsertion then .ok none
  else match c.old with
    | none => .error (missing c "old path")
    | some p => (d.resolve p).map some

abbrev Step := Change × Option NodeId

def updateField (node : NodeId) (d : Tree) (e : String × Update) : Tree :=
  let before := (d.content node).field e.1
  (d.modifyContent node fun c ↦ c.setField e.1 e.2.new).recordUpdate node e.1 ⟨before, e.2.new⟩

def applyUpdate (d : Tree) (s : Step) : Tree :=
  match s.1.kind, s.2 with
  | .update, some node => s.1.updates.foldl (updateField node) d
  | _, _ => d

def revert (c : Content) (updates : Updates) : Content :=
  updates.foldl (fun c e ↦ c.setField e.1 e.2.old) c

/-- Leaves a stand-in at the parent, which looks as the node did at first, and takes the node out.
-/
def detachMoved (d : Tree) (moveId node parent : NodeId) : Tree :=
  let delta := (d.delta? node).getD {}
  let (d, standIn) := d.alloc (revert (d.content node) delta.updates)
    (.changed { mark := .movedAway, moveId := some moveId, origin := delta.origin })
  let d := (d.addPlaceholder parent standIn).detach node
  d.modifyDelta node fun x ↦ { x with mark := .movedHere, moveId := some moveId }

def applyMove (s : Tree × Nat) (step : Step) : Except Error (Tree × Nat) :=
  match step.1.kind, step.2 with
  | .move, some node =>
    match s.1.parent? node with
    | none => .error (.notApplicable (step.1.text ++ " moves a node that is not attached"))
    | some parent => .ok (detachMoved s.1 (s.2 + 1) node parent, s.2 + 1)
  | _, _ => .ok s

def applyDeletion (d : Tree) (s : Step) : Except Error Tree :=
  match s.1.kind.isDeletion, s.2 with
  | true, some node =>
    match d.parent? node with
    | none => .error (.notApplicable (s.1.text ++ " deletes a node that is not attached"))
    | some parent => .ok (((d.markSubtree node .deleted).addPlaceholder parent node).detach node)
  | _, _ => .ok d

/-- Puts a node where the new path of its change leads, among the live children there. -/
def attach (d : Tree) (c : Change) (node : NodeId) : Except Error Tree :=
  match c.new with
  | none => .error (missing c "new path")
  | some p =>
    match p.parent?, p.getLast? with
    | some above, some i => do
      let parent ← d.resolve above
      match d.insertChild? parent i node with
      | some d => .ok d
      | none => .error (.notApplicable (c.text ++ " indexes position " ++ Decimal.text i ++
          " of a node with " ++ Decimal.text (d.children parent).length ++ " children"))
    | _, _ => .error (.notApplicable (c.text ++ " targets the root"))

def applyAddition (d : Tree) (s : Step) : Except Error Tree :=
  match s.1.kind, s.2 with
  | .move, some node => attach d s.1 node
  | .insertion, _ | .subtreeInsertion, _ =>
    match s.1.payload with
    | none => .error (missing s.1 "payload")
    | some payload =>
      let (d, top) := d.importSubtree payload Tree.root
      attach (d.markSubtree top .inserted) s.1 top
  | _, _ => .ok d

/-- Applies a script to a copy of a tree. First the fields change, then moved nodes and deleted
ones are taken out, and last all new places are filled in the order of the script. What is gone is
kept as a placeholder where it was. -/
def patch (t : Tree) (script : Script) : Except Error Tree := do
  let d := pristine t
  let targets ← script.mapM (target d)
  let steps := script.zip targets
  let d := steps.foldl applyUpdate d
  let (d, _) ← steps.foldlM applyMove (d, 0)
  let d ← steps.foldlM applyDeletion d
  steps.foldlM applyAddition d

end FlowMerge.Script
