import FlowMerge.Tree.Basic
import Std.Data.TreeMap

namespace FlowMerge

/-- Nodes of a new tree, each tied to at most one node of an old tree and no two to the same one.
Both directions are kept, and so are proposals that are not decided yet. -/
structure Matching where
  toOld : Std.TreeMap NodeId NodeId := {}
  toNew : Std.TreeMap NodeId NodeId := {}
  proposals : Std.TreeMap NodeId (List NodeId) := {}
deriving Inhabited

namespace Matching

def empty : Matching := {}

def old? (m : Matching) (new : NodeId) : Option NodeId := m.toOld[new]?

def new? (m : Matching) (old : NodeId) : Option NodeId := m.toNew[old]?

def hasNew (m : Matching) (new : NodeId) : Bool := (m.old? new).isSome

def hasOld (m : Matching) (old : NodeId) : Bool := (m.new? old).isSome

def areMatched (m : Matching) (old new : NodeId) : Bool := m.old? new == some old

def size (m : Matching) : Nat := m.toOld.size

def pairs (m : Matching) : List (NodeId × NodeId) := m.toOld.toList

def eraseIfOther (keep : NodeId) (map : Std.TreeMap NodeId NodeId) : Option NodeId →
    Std.TreeMap NodeId NodeId
  | some k => if k = keep then map else map.erase k
  | none => map

def link (m : Matching) (new old : NodeId) : Matching :=
  { m with
    toOld := eraseIfOther new (m.toOld.insert new old) (m.new? old)
    toNew := (eraseIfOther old m.toNew (m.old? new)).insert old new }

def unlinkNew (m : Matching) (new : NodeId) : Matching :=
  match m.old? new with
  | some old => { m with toOld := m.toOld.erase new, toNew := m.toNew.erase old }
  | none => m

def unlinkOld (m : Matching) (old : NodeId) : Matching :=
  match m.new? old with
  | some new => { m with toOld := m.toOld.erase new, toNew := m.toNew.erase old }
  | none => m

/-- Keeps the pairs of a new and an old node that pass a test. The old nodes of all others are
freed one by one. -/
def retain (keep : NodeId → NodeId → Bool) (m : Matching) : Matching :=
  { m with
    toOld := m.toOld.filter keep
    toNew := (m.pairs.filter fun p ↦ !keep p.1 p.2).foldl (fun map p ↦ map.erase p.2) m.toNew }

def ofPairs (ps : List (NodeId × NodeId)) : Matching :=
  ps.foldl (fun m p ↦ m.link p.1 p.2) empty

def candidates (m : Matching) (new : NodeId) : List NodeId := (m.proposals[new]?).getD []

def propose (m : Matching) (new old : NodeId) : Matching :=
  let known := m.candidates new
  { m with proposals := m.proposals.insert new (if old ∈ known then known else known ++ [old]) }

/-- The proposals in the order they are decided in: nodes made later come first, so a node comes
before its ancestors. -/
def pending (m : Matching) : List (NodeId × List NodeId) := m.proposals.toList.reverse

/-- Decides all proposals. The resolver picks one of the proposed nodes or none. -/
def reduce (resolve : Matching → NodeId → List NodeId → Option NodeId) (m : Matching) : Matching :=
  m.pending.foldl (fun m p ↦
    match resolve m p.1 p.2 with
    | some old => m.link p.1 old
    | none => m) { m with proposals := {} }

end Matching

structure Thresholds (α : Type) where
  leaf : α
  inner : α
deriving Inhabited

def Matching.linkRoots (m : Matching) : Matching := m.link Tree.root Tree.root

end FlowMerge
