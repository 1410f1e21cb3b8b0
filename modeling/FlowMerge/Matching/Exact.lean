import FlowMerge.Assignment
import FlowMerge.Matching.Bucket
import Std.Data.HashMap

namespace FlowMerge.Matching

open Score

variable {α : Type} [Score α]

/-- The cost of two places in a padded list: an empty place costs one, two of them nothing. -/
def cell {m : Type → Type} [Monad m] (cost : NodeId → NodeId → m α) :
    Option NodeId → Option NodeId → m α
  | some o, some n => cost o n
  | none, none => pure zero
  | _, _ => pure one

def padded {m : Type → Type} [Monad m] (cost : NodeId → NodeId → m α) (olds news : List NodeId) :
    m (CostMatrix α) :=
  let k := max olds.length news.length
  (List.range k).mapM fun i ↦ (List.range k).mapM fun j ↦ cell cost olds[i]? news[j]?

def blend (children : CostMatrix α) (own : α) : Option α := do
  let least := Assignment.total children (← Assignment.solve children)
  let b := ratio 7 10 * capped (least / ratio children.length 1) + ratio 3 10 * own
  return b * b

def pairCost (compare : Comparator α) (old new : Tree) : Nat → NodeId → NodeId → Option α
  | 0, o, n => some (compare old o new n)
  | fuel + 1, o, n =>
    let os := old.controlFlowChildren o
    let ns := new.controlFlowChildren n
    if os.isEmpty && ns.isEmpty then some (compare old o new n)
    else do
      let children ← padded (pairCost compare old new fuel) os ns
      blend children (compare old o new n)

abbrev Memo (α : Type) := Std.HashMap (NodeId × NodeId) α

/-- As `pairCost`, but no pair is worked out twice. -/
def pairCostMemo (compare : Comparator α) (old new : Tree) :
    Nat → NodeId → NodeId → StateT (Memo α) Option α
  | 0, o, n => pure (compare old o new n)
  | fuel + 1, o, n => do
    match (← get)[(o, n)]? with
    | some c => pure c
    | none =>
      let os := old.controlFlowChildren o
      let ns := new.controlFlowChildren n
      let own := compare old o new n
      let c ← if os.isEmpty && ns.isEmpty then pure own
        else do
          let children ← padded (pairCostMemo compare old new fuel) os ns
          StateT.lift (blend children own)
      modify fun memo ↦ memo.insert (o, n) c
      pure c

def freeNodes (t : Tree) (taken : NodeId → Bool) : List NodeId :=
  t.live.filter fun id ↦ id != Tree.root && t.isControlFlow id && !taken id

def linkAssigned (threshold : α) (costs : CostMatrix α) (olds news : List NodeId) (m : Matching)
    (p : Nat × Nat) : Matching :=
  match olds[p.2]?, news[p.1]? with
  | some o, some n => if lt (costs.entry p.2 p.1) threshold then m.link n o else m
  | _, _ => m

/-- A pairing of all control-flow nodes of least total cost, then properties. Where scores reach
infinity the pairing may never be found. -/
def exact (compare : Comparator α) (thresholds : Thresholds α) (old new : Tree)
    (seed : Matching) : Option Matching := do
  let m := seed.linkRoots
  let olds := freeNodes old m.hasOld
  let news := freeNodes new m.hasNew
  let (costs, _) ← (padded (pairCostMemo compare old new (old.size + 1)) olds news).run {}
  let columns ← Assignment.solve costs
  let m := columns.zipIdx.foldl (linkAssigned thresholds.leaf costs olds news) m
  return m.propagate old new

end FlowMerge.Matching
