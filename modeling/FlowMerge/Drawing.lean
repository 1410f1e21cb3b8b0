import FlowMerge.Text.Blank
import FlowMerge.Text.Quoted
import FlowMerge.Tree.Basic

namespace FlowMerge.Drawing

def widest : Nat := 40

def shorten (s : String) : String :=
  let line := Text.collapse s
  if line.length ≤ widest then line else String.ofList (line.toList.take widest) ++ "..."

def value (v : Option String) : String := (v.map fun s ↦ Text.quoted (shorten s)).getD "-"

def content (c : Content) : String :=
  c.label ++
    String.join (c.attributes.entries.map fun e ↦ " " ++ e.1 ++ "=" ++ Text.quoted e.2) ++
    (c.text.map fun s ↦ " " ++ Text.quoted (shorten s)).getD ""

def update (e : String × Update) : String :=
  " " ++ e.1 ++ ": " ++ value e.2.old ++ " -> " ++ value e.2.new

def moveId (d : Delta) : String :=
  if d.mark.isMove then (d.moveId.map fun i ↦ " #" ++ Decimal.text i).getD "" else ""

def delta (d : Delta) : String :=
  if d.isNil then ""
  else " [" ++ d.mark.name ++ String.join (d.updates.map update) ++ moveId d ++ "]"

def info (m : MergeInfo) : String :=
  (match m.provenance with
    | .neither => ""
    | .branchA => " (a)"
    | .branchB => " (b)") ++
  if m.confidence.content then "" else " (?)"

def line (n : Node) : String :=
  content n.content ++ ((n.overlay.delta?.map delta).getD "") ++
    ((n.overlay.info?.map info).getD "") ++ "\n"

/-- The lines of a node, which follow `start`, and those of all below it, which follow `indent`. -/
def subtree (t : Tree) : Nat → String → String → NodeId → String
  | 0, _, _, _ => ""
  | fuel + 1, start, indent, id =>
    let children := t.children id
    start ++ line (t.node id) ++ String.join (children.zipIdx.map fun (c, i) ↦
      if i + 1 = children.length then subtree t fuel (indent ++ "└── ") (indent ++ "    ") c
      else subtree t fuel (indent ++ "├── ") (indent ++ "│   ") c)

end FlowMerge.Drawing

namespace FlowMerge.Tree

def draw (t : Tree) : String := Drawing.subtree t t.size "" "" root

end FlowMerge.Tree
