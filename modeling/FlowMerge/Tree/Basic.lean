import FlowMerge.Overlay
import FlowMerge.Path

namespace FlowMerge

/-- The place of a node in its tree's store. It never changes. -/
abbrev NodeId := Nat

structure Node where
  content : Content
  children : List NodeId := []
  parent : Option NodeId := none
  position : Nat := 0
  overlay : Overlay := .plain
deriving Inhabited

/-- An ordered labelled tree. All nodes ever made are kept: a detached node leaves the tree, but
not the store. The root is the first node. -/
structure Tree where
  nodes : Array Node
deriving Inhabited

namespace Tree

def root : NodeId := 0

def rootedAt (c : Content) (a : Overlay) : Tree := ⟨#[{ content := c, overlay := a }]⟩

def leaf (c : Content) : Tree := rootedAt c .plain

def size (t : Tree) : Nat := t.nodes.size

def node (t : Tree) (id : NodeId) : Node := t.nodes.getD id default

def content (t : Tree) (id : NodeId) : Content := (t.node id).content

def label (t : Tree) (id : NodeId) : String := (t.content id).label

def children (t : Tree) (id : NodeId) : List NodeId := (t.node id).children

def parent? (t : Tree) (id : NodeId) : Option NodeId := (t.node id).parent

def position (t : Tree) (id : NodeId) : Nat := (t.node id).position

def overlay (t : Tree) (id : NodeId) : Overlay := (t.node id).overlay

def delta? (t : Tree) (id : NodeId) : Option Delta := (t.overlay id).delta?

def info? (t : Tree) (id : NodeId) : Option MergeInfo := (t.overlay id).info?

def mark (t : Tree) (id : NodeId) : Mark := ((t.delta? id).map Delta.mark).getD .unchanged

def modify (t : Tree) (id : NodeId) (f : Node → Node) : Tree := ⟨t.nodes.modify id f⟩

def modifyContent (t : Tree) (id : NodeId) (f : Content → Content) : Tree :=
  t.modify id fun n ↦ { n with content := f n.content }

def modifyDelta (t : Tree) (id : NodeId) (f : Delta → Delta) : Tree :=
  t.modify id fun n ↦ { n with overlay := n.overlay.mapDelta f }

def modifyInfo (t : Tree) (id : NodeId) (f : MergeInfo → MergeInfo) : Tree :=
  t.modify id fun n ↦ { n with overlay := n.overlay.mapInfo f }

def setMark (t : Tree) (id : NodeId) (m : Mark) : Tree :=
  t.modifyDelta id fun d ↦ { d with mark := m }

def recordUpdate (t : Tree) (id : NodeId) (key : String) (u : Update) : Tree :=
  t.modifyDelta id fun d ↦ d.record key u

def addPlaceholder (t : Tree) (id placeholder : NodeId) : Tree :=
  t.modifyDelta id fun d ↦ { d with placeholders := d.placeholders ++ [placeholder] }

def alloc (t : Tree) (c : Content) (a : Overlay) : Tree × NodeId :=
  (⟨t.nodes.push { content := c, overlay := a }⟩, t.size)

def renumber (t : Tree) (parent : NodeId) (start : Nat) : Tree :=
  (((t.children parent).drop start).zipIdx start).foldl
    (fun t c ↦ t.modify c.1 fun n ↦ { n with position := c.2 }) t

def insertChild (t : Tree) (parent : NodeId) (i : Nat) (child : NodeId) : Tree :=
  let t := t.modify parent fun n ↦ { n with children := n.children.insertIdx i child }
  let t := t.modify child fun n ↦ { n with parent := some parent }
  t.renumber parent i

/-- Attaches a detached node, unless the place is beyond the children that are there. -/
def insertChild? (t : Tree) (parent : NodeId) (i : Nat) (child : NodeId) : Option Tree :=
  if i ≤ (t.children parent).length then some (t.insertChild parent i child) else none

def appendChild (t : Tree) (parent child : NodeId) : Tree :=
  t.insertChild parent (t.children parent).length child

def addChild (t : Tree) (parent : NodeId) (c : Content) : Tree × NodeId :=
  let (t, id) := t.alloc c (t.overlay parent).blank
  (t.appendChild parent id, id)

def detach (t : Tree) (id : NodeId) : Tree :=
  match t.parent? id with
  | none => t
  | some parent =>
    let i := t.position id
    let t := t.modify parent fun n ↦ { n with children := n.children.eraseIdx i }
    let t := t.modify id fun n ↦ { n with parent := none, position := 0 }
    t.renumber parent i

def ancestorsWithin (t : Tree) : Nat → NodeId → List NodeId
  | 0, _ => []
  | n + 1, id =>
    match t.parent? id with
    | none => []
    | some p => p :: t.ancestorsWithin n p

def ancestors (t : Tree) (id : NodeId) : List NodeId := t.ancestorsWithin t.size id

def isAncestorOrSelf (t : Tree) (ancestor id : NodeId) : Bool :=
  id == ancestor || (t.ancestors id).contains ancestor

def isAttached (t : Tree) (id : NodeId) : Bool := t.isAncestorOrSelf root id

def depth (t : Tree) (id : NodeId) : Nat := (t.ancestors id).length

def preorderWithin (t : Tree) : Nat → NodeId → List NodeId
  | 0, _ => []
  | n + 1, id => id :: (t.children id).flatMap (t.preorderWithin n)

def preorder (t : Tree) (id : NodeId) : List NodeId := t.preorderWithin t.size id

def live (t : Tree) : List NodeId := t.preorder root

def below (t : Tree) (id : NodeId) : List NodeId := (t.preorder id).tail

def subtreeSize (t : Tree) (id : NodeId) : Nat := (t.preorder id).length

def pathWithin (t : Tree) : Nat → NodeId → Path
  | 0, _ => []
  | n + 1, id =>
    match t.parent? id with
    | none => []
    | some p => t.pathWithin n p ++ [t.position id]

/-- The child positions that lead to a node from the top of the subtree it is in. -/
def path (t : Tree) (id : NodeId) : Path := t.pathWithin t.size id

def noSuchChild (whole : Path) (i depth count : Nat) : Error :=
  .notApplicable ("path " ++ Path.text whole ++ " indexes child " ++ Decimal.text i ++
    " at depth " ++ Decimal.text depth ++ " of a node with " ++ Decimal.text count ++ " children")

def resolveFrom (t : Tree) (whole : Path) (id : NodeId) (depth : Nat) : Path → Except Error NodeId
  | [] => .ok id
  | i :: rest =>
    match (t.children id)[i]? with
    | some c => t.resolveFrom whole c (depth + 1) rest
    | none => .error (noSuchChild whole i depth (t.children id).length)

def resolve (t : Tree) (p : Path) : Except Error NodeId := t.resolveFrom p root 0 p

def isControlFlow (t : Tree) (id : NodeId) : Bool := (t.content id).isControlFlow

def controlFlowChildren (t : Tree) (id : NodeId) : List NodeId :=
  (t.children id).filter t.isControlFlow

def isLeaf (t : Tree) (id : NodeId) : Bool :=
  t.isControlFlow id && !(t.children id).any t.isControlFlow

def isInner (t : Tree) (id : NodeId) : Bool :=
  t.isControlFlow id && (t.children id).any t.isControlFlow

def leaves (t : Tree) : List NodeId := t.live.filter fun id ↦ id != root && t.isLeaf id

def innerNodes (t : Tree) : List NodeId := t.live.filter fun id ↦ id != root && t.isInner id

def controlFlowBelow (t : Tree) (id : NodeId) : List NodeId := (t.below id).filter t.isControlFlow

def propertiesWithin (t : Tree) : Nat → NodeId → List NodeId
  | 0, _ => []
  | n + 1, id =>
    ((t.children id).filter fun c ↦ !t.isControlFlow c).flatMap fun c ↦
      c :: t.propertiesWithin n c

def properties (t : Tree) (id : NodeId) : List NodeId := t.propertiesWithin t.size id

def property? (t : Tree) (id : NodeId) (label : String) : Option NodeId :=
  (t.properties id).find? fun p ↦ t.label p == label

def sameWithin (t u : Tree) : Nat → NodeId → NodeId → Bool
  | 0, _, _ => false
  | n + 1, a, b =>
    t.content a == u.content b && (t.children a).length == (u.children b).length &&
      ((t.children a).zip (u.children b)).all fun p ↦ t.sameWithin u n p.1 p.2

/-- Whether two subtrees agree in contents and shape, whatever their overlays. -/
def sameSubtree (t : Tree) (a : NodeId) (u : Tree) (b : NodeId) : Bool := t.sameWithin u t.size a b

def sameContent (t u : Tree) : Bool := t.sameSubtree root u root

end Tree

end FlowMerge
