import FlowMerge.Path
import FlowMerge.Text.Entity

namespace FlowMerge

inductive ConflictKind where
  | update
  | move
  /-- One branch deleted what the other changed. -/
  | deletion
deriving DecidableEq, Inhabited, Repr

namespace ConflictKind

def name : ConflictKind → String
  | update => "update"
  | move => "move"
  | deletion => "delete"

def all : List ConflictKind := [update, move, deletion]

def ofName? (s : String) : Option ConflictKind := all.find? fun k ↦ k.name == s

end ConflictKind

inductive Resolution where
  | branchA
  | branchB
  | deleted
deriving DecidableEq, Inhabited, Repr

namespace Resolution

def name : Resolution → String
  | branchA => "branch-a"
  | branchB => "branch-b"
  | deleted => "deleted"

def all : List Resolution := [branchA, branchB, deleted]

def ofName? (s : String) : Option Resolution := all.find? fun r ↦ r.name == s

end Resolution

structure Conflict where
  kind : ConflictKind
  text : String
  path : Path
  resolution : Resolution
  base : Option Path := none
  field : Option String := none
deriving Inhabited

namespace Conflict

def line (c : Conflict) : String :=
  c.kind.name ++ " conflict at /" ++ Path.text c.path ++ ": " ++ c.text ++
    " (kept " ++ c.resolution.name ++ ")"

def nodeElement (tree : String) (p : Path) : String :=
  "      <node tree=\"" ++ tree ++ "\" path=\"/" ++ Path.text p ++ "\" />\n"

def element (c : Conflict) : String :=
  "    <" ++ c.kind.name ++ " resolution=\"" ++ c.resolution.name ++ "\"" ++
    ((c.field.map fun f ↦ " field=\"" ++ Text.escapeInQuotes f ++ "\"").getD "") ++ ">\n" ++
    "      " ++ Text.escapeInQuotes c.text ++ "\n" ++
    nodeElement "merged" c.path ++ ((c.base.map (nodeElement "base")).getD "") ++
    "    </" ++ c.kind.name ++ ">\n"

end Conflict

/-- The conflicts of a merge, those that wait for their outcome and the others. -/
structure ConflictLog where
  pending : List Conflict := []
  resolved : List Conflict := []
deriving Inhabited

namespace ConflictLog

def queue (l : ConflictLog) (c : Conflict) : ConflictLog := { l with pending := l.pending ++ [c] }

def resolveAll (l : ConflictLog) : ConflictLog := ⟨[], l.resolved ++ l.pending⟩

def hasPending (l : ConflictLog) : Bool := !l.pending.isEmpty

def count (l : ConflictLog) (k : ConflictKind) : Nat := l.resolved.countP fun c ↦ c.kind == k

def part (name : String) (cs : List Conflict) : String :=
  if cs.isEmpty then ""
  else "  <" ++ name ++ ">\n" ++ String.join (cs.map Conflict.element) ++ "  </" ++ name ++ ">\n"

def document (l : ConflictLog) : String :=
  "<?xml version=\"1.0\" encoding=\"UTF-8\"?>\n<conflictlist>\n" ++
    part "pending" l.pending ++ part "resolved" l.resolved ++ "</conflictlist>\n"

end ConflictLog

end FlowMerge
