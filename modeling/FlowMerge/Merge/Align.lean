import FlowMerge.Config

namespace FlowMerge.Merge

variable {α : Type} [Score α]

def base? (t : Tree) (id : NodeId) : Option Nat := (t.delta? id).bind Delta.base

/-- The last live node that comes from a place in the base. -/
def ofBase? (t : Tree) (b : Nat) : Option NodeId :=
  t.live.reverse.find? fun id ↦ base? t id == some b

def baseMatching (source target : Tree) : Matching :=
  source.live.foldl (fun m s ↦
    match (base? source s).bind (ofBase? target) with
    | some t => m.link s t
    | none => m) .empty

/-- Pairs the nodes of two branches: those from one place in the base, and what both branches
inserted alike. -/
def align (thresholds : Thresholds α) (source target : Tree) : Matching :=
  let seed := baseMatching source target
  let m := Matching.bucket Comparator.process thresholds target source seed
  let m := m.retain fun s t ↦
    seed.areMatched t s || ((base? source s).isNone && (base? target t).isNone)
  seed.pairs.foldl (fun m p ↦
    if !m.hasNew p.1 && !m.hasOld p.2 then m.link p.1 p.2 else m) m

end FlowMerge.Merge
