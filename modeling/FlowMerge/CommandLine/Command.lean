import FlowMerge.CommandLine.Arguments
import FlowMerge.Decimal.Reader

namespace FlowMerge.CommandLine

structure MatchingOptions where
  leaf : Float
  inner : Float
  algorithm : String
deriving Inhabited

inductive Format where
  | operations
  | deltaTree
  | deltaXml
deriving DecidableEq, Inhabited

namespace Format

def name : Format → String
  | operations => "operations"
  | deltaTree => "delta-tree"
  | deltaXml => "delta-xml"

def ofName? (s : String) : Option Format :=
  [operations, deltaTree, deltaXml].find? fun f ↦ f.name == s

end Format

inductive Command where
  | diff (old new : String) (format : Format) (options : MatchingOptions) (output : Option String)
  | merge (base a b : String) (options : MatchingOptions) (output conflicts edits : Option String)
deriving Inhabited

namespace Command

def verboseFlag : Flag := { long := "verbose", short := some 'v', takesValue := false }

def commonFlags : List Flag :=
  [verboseFlag, { long := "leaf-threshold", short := some 't' },
    { long := "inner-threshold", short := some 'i' }, { long := "algorithm", short := some 'a' },
    { long := "output", short := some 'o' }]

def diffFlags : List Flag := { long := "format", short := some 'f' } :: commonFlags

def mergeFlags : List Flag := { long := "conflicts" } :: { long := "edits" } :: commonFlags

def readThreshold (a : Arguments) (long : String) : Option Float :=
  match a.value? long with
  | some s => Decimal.readDouble? s
  | none => some 0.25

def readMatching (a : Arguments) : Option MatchingOptions := do
  let leaf ← readThreshold a "leaf-threshold"
  let inner ← readThreshold a "inner-threshold"
  return ⟨leaf, inner, (a.value? "algorithm").getD "bucket"⟩

def readDiff (args : List String) : Option Command := do
  let a ← Arguments.read? diffFlags args
  let options ← readMatching a
  let format ← Format.ofName? ((a.value? "format").getD "operations")
  match a.positional with
  | [old, new] => some (.diff old new format options (a.value? "output"))
  | _ => none

def readMerge (args : List String) : Option Command := do
  let a ← Arguments.read? mergeFlags args
  let options ← readMatching a
  match a.positional with
  | [base, x, y] =>
    some (.merge base x y options (a.value? "output") (a.value? "conflicts") (a.value? "edits"))
  | _ => none

/-- The command that the arguments of a call ask for, after at most one request for more output. -/
def read? (args : List String) : Option Command :=
  let args := match args with
    | s :: rest => if s = "-v" ∨ s = "--verbose" then rest else args
    | [] => []
  match args with
  | [] => none
  | name :: rest =>
    if name = "diff" ∨ name = "d" then readDiff rest
    else if name = "merge" ∨ name = "m" then readMerge rest
    else none

end Command

end FlowMerge.CommandLine
