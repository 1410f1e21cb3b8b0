import FlowMerge.Overlay
import FlowMerge.Path

namespace FlowMerge

inductive EditKind where
  | insert
  | update
  | move
  | delete
deriving DecidableEq, Inhabited, Repr

namespace EditKind

def name : EditKind → String
  | insert => "insert"
  | update => "update"
  | move => "move"
  | delete => "delete"

def all : List EditKind := [insert, update, move, delete]

def ofName? (s : String) : Option EditKind := all.find? fun k ↦ k.name == s

end EditKind

structure Edit where
  kind : EditKind
  /-- The place of the node after the change, or before it for a deletion. -/
  path : Path
  base : Option Path
  provenance : Provenance
deriving Inhabited

abbrev EditLog := List Edit

namespace Edit

def element (e : Edit) : String :=
  "  <" ++ e.kind.name ++ " path=\"/" ++ Path.text e.path ++ "\"" ++
    ((e.base.map fun p ↦ " src=\"/" ++ Path.text p ++ "\"").getD "") ++
    " origin=\"" ++ Decimal.text e.provenance.code ++ "\" />\n"

end Edit

namespace EditLog

def count (l : EditLog) (k : EditKind) : Nat := l.countP fun e ↦ e.kind == k

def document (l : EditLog) : String :=
  "<?xml version=\"1.0\" encoding=\"UTF-8\"?>\n<edits>\n" ++ String.join (l.map Edit.element) ++
    "</edits>\n"

end EditLog

end FlowMerge
