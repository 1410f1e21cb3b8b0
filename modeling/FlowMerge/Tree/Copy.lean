import FlowMerge.Tree.Basic

namespace FlowMerge.Tree

def importChildren (src : Tree) (id : NodeId) (a : Overlay) (t : Tree) (copy : NodeId) :
    Tree × List (NodeId × NodeId) :=
  (src.children id).foldl (fun (t, copies) c ↦
    let (t, k) := t.alloc (src.content c) a
    (t.appendChild copy k, (c, k) :: copies)) (t, [])

/-- Copies what is below a node below its copy. Of the children the last is finished first. -/
def importBelow (src : Tree) (a : Overlay) : Nat → Tree → NodeId → NodeId → Tree
  | 0, t, _, _ => t
  | n + 1, t, id, copy =>
    let (t, copies) := importChildren src id a t copy
    copies.foldl (fun t c ↦ importBelow src a n t c.1 c.2) t

def importNode (t src : Tree) (id : NodeId) : Tree × NodeId :=
  t.alloc (src.content id) (t.overlay root).blank

def importSubtree (t src : Tree) (id : NodeId) : Tree × NodeId :=
  let (t, copy) := t.importNode src id
  (importBelow src (t.overlay root).blank src.size t id copy, copy)

def subtreeCopy (t : Tree) (id : NodeId) : Tree :=
  importBelow t .plain t.size (leaf (t.content id)) id root

def nodeCopy (t : Tree) (id : NodeId) : Tree := leaf (t.content id)

/-- The live nodes in a store of their own, in pre-order. The overlay of each is made from its
place in that order. -/
def rebuild (t : Tree) (overlayAt : Nat → Overlay) : Tree :=
  let order := t.live
  ⟨(order.zipIdx.map fun (id, i) ↦
    { content := t.content id
      children := (t.children id).map fun c ↦ order.idxOf c
      parent := (t.parent? id).map fun p ↦ order.idxOf p
      position := t.position id
      overlay := overlayAt i }).toArray⟩

def toPlain (t : Tree) : Tree := t.rebuild fun _ ↦ .plain

def toDelta (t : Tree) : Tree := t.rebuild fun i ↦ .changed { base := some i }

def mergeOverlay (base : Option Nat) : Overlay → Overlay
  | .plain => .merged { base } {}
  | .changed d => .merged d {}
  | .merged d m => .merged d m

/-- The same store with merge overlays. What is recorded stays, and plain nodes are tied to
their place in the pre-order. -/
def toMerge (t : Tree) : Tree :=
  let order := t.live
  ⟨t.nodes.mapIdx fun id n ↦
    { n with overlay := mergeOverlay (order.idxOf? id) n.overlay }⟩

def markSubtree (t : Tree) (id : NodeId) (m : Mark) : Tree :=
  (t.preorder id).foldl (fun t n ↦ t.setMark n m) t

end FlowMerge.Tree
