import FlowMerge.Decimal.Shortest
import FlowMerge.Matching.BottomUp
import FlowMerge.Matching.Exact
import FlowMerge.Matching.Path
import FlowMerge.Matching.TopDown

namespace FlowMerge

namespace Thresholds

variable {α : Type} [Score α]

def standard : Thresholds α := ⟨Score.ratio 1 4, Score.ratio 1 4⟩

def check (name : String) (x : Float) : Except Error Unit :=
  if Score.inUnit x then .ok () else .error (.invalidThreshold name (Decimal.doubleText x))

def ofDoubles (leaf inner : Float) : Except Error (Thresholds Float) := do
  check "leaf" leaf
  check "inner" inner
  return ⟨leaf, inner⟩

end Thresholds

inductive Algorithm where
  | bucket
  | path
  | topDown
  | bottomUp
  | exact
deriving DecidableEq, Inhabited, Repr

namespace Algorithm

def all : List Algorithm := [bucket, path, topDown, bottomUp, exact]

def name : Algorithm → String
  | bucket => "bucket"
  | path => "path"
  | topDown => "top-down"
  | bottomUp => "bottom-up"
  | exact => "exact"

def ofName (s : String) : Except Error Algorithm :=
  match all.find? fun a ↦ a.name == s with
  | some a => .ok a
  | none => .error (.unknownAlgorithm s)

variable {α : Type} [Score α]

/-- What an algorithm makes of a matching, if it comes to an end. -/
def matcher? (a : Algorithm) (compare : Comparator α) (thresholds : Thresholds α)
    (old new : Tree) (seed : Matching) : Option Matching :=
  match a with
  | bucket => some (Matching.bucket compare thresholds old new seed)
  | path => some (Matching.path compare thresholds old new seed)
  | topDown => some (Matching.topDown compare thresholds old new seed)
  | bottomUp => some (Matching.bottomUp compare thresholds old new seed)
  | exact => Matching.exact compare thresholds old new seed

/-- As `matcher?`, with nothing added to the matching where there is no end. -/
def matcher (a : Algorithm) : Matcher α := fun compare thresholds old new seed ↦
  (a.matcher? compare thresholds old new seed).getD seed

end Algorithm

structure Config (α : Type) where
  thresholds : Thresholds α
  algorithm : Algorithm := .bucket
deriving Inhabited

namespace Config

variable {α : Type} [Score α]

def standard : Config α := { thresholds := .standard }

def matchTrees (config : Config α) (old new : Tree) : Matching :=
  config.algorithm.matcher Comparator.process config.thresholds old new .empty

end Config

end FlowMerge
