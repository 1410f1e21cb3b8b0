import FlowMerge.Text.Entity
import FlowMerge.Tree.Basic

namespace FlowMerge.Xml

def processNamespace : String := "http://cpee.org/ns/description/1.0"

def changeNamespaces : List (String × String) :=
  [("ins", "urn:proctree:delta:insert"), ("del", "urn:proctree:delta:delete"),
    ("mvf", "urn:proctree:delta:move-from"), ("mvt", "urn:proctree:delta:move-to"),
    ("upd", "urn:proctree:delta:update")]

def markPrefix : Mark → Option String
  | .unchanged => none
  | .inserted | .subtreeInserted => some "ins"
  | .deleted | .subtreeDeleted => some "del"
  | .movedHere => some "mvt"
  | .movedAway => some "mvf"
  | .updated => some "upd"

def rootAttributes (a : Overlay) : List (String × String) :=
  ("xmlns", processNamespace) ::
    if a.isPlain then [] else changeNamespaces.map fun e ↦ ("xmlns:" ++ e.1, e.2)

/-- The old value of a changed field. Of a changed text only the fact is shown. -/
def updateAttribute (e : String × Update) : String × String :=
  ("upd:" ++ (if e.1 = Content.labelKey then "_label" else e.1),
    if e.1 = Content.textKey then "true" else e.2.old.getD "")

def moveAttribute (d : Delta) : List (String × String) :=
  match d.moveId with
  | some i => [((if d.mark = .movedAway then "mvf" else "mvt") ++ ":id", Decimal.text i)]
  | none => []

def provenanceAttribute (m : MergeInfo) : List (String × String) :=
  if m.provenance = .neither then [] else [("origin", Decimal.text m.provenance.code)]

def attributes (isRoot : Bool) (n : Node) : List (String × String) :=
  (if isRoot then rootAttributes n.overlay else []) ++ n.content.attributes.entries ++
    ((n.overlay.delta?.map fun d ↦ d.updates.map updateAttribute ++ moveAttribute d).getD []) ++
    ((n.overlay.info?.map provenanceAttribute).getD [])

def elementName (n : Node) : String :=
  match n.overlay.delta?.bind fun d ↦ markPrefix d.mark with
  | some p => p ++ ":" ++ n.content.label
  | none => n.content.label

def openTag (isRoot : Bool) (n : Node) : String :=
  "<" ++ elementName n ++ String.join ((attributes isRoot n).map fun e ↦
    " " ++ e.1 ++ "=\"" ++ Text.escape e.2 ++ "\"")

/-- Line breaks and the indentation of lines at some depth, if the output is laid out at all. -/
structure Layout where
  newline : String
  indent : Nat → String

def Layout.compact : Layout := ⟨"", fun _ ↦ ""⟩

def Layout.pretty : Layout := ⟨"\n", fun depth ↦ String.join (List.replicate depth "  ")⟩

def element (layout : Layout) (t : Tree) : Nat → Nat → NodeId → String
  | 0, _, _ => ""
  | fuel + 1, depth, id =>
    let n := t.node id
    let start := layout.indent depth ++ openTag (id == Tree.root) n
    let close := "</" ++ elementName n ++ ">" ++ layout.newline
    match n.content.text, n.children with
    | none, [] => start ++ " />" ++ layout.newline
    | some text, [] => start ++ ">" ++ Text.escape text ++ close
    | text, children =>
      start ++ ">" ++ layout.newline ++
        ((text.map fun s ↦ layout.indent (depth + 1) ++ Text.escape s ++ layout.newline).getD "") ++
        String.join (children.map (element layout t fuel (depth + 1))) ++
        layout.indent depth ++ close

def fragment (layout : Layout) (t : Tree) : String := element layout t t.size 0 Tree.root

def declaration : String := "<?xml version=\"1.0\" encoding=\"UTF-8\"?>\n"

def print (t : Tree) : String := declaration ++ fragment .compact t ++ "\n"

def printPretty (t : Tree) : String := declaration ++ fragment .pretty t

end FlowMerge.Xml
