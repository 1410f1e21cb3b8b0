import FlowMerge.Text.Blank
import FlowMerge.Text.Entity
import FlowMerge.Tree.Copy
import FlowMerge.Xml.Piece

namespace FlowMerge.Xml

def standardIgnored : List String := ["id", "description"]

def badAttribute : Error := .parse "attribute error"

/-- What follows the first colon of a name, or all of it. -/
def localName (name : List Char) : List Char :=
  match name.dropWhile (· != ':') with
  | [] => name
  | _ :: rest => rest

def attributeKey? (c : Char) (cs : List Char) : Option (List Char × List Char) :=
  let ends := fun c ↦ c == '=' || isSpace c
  match (cs.dropWhile (!ends ·)).dropWhile isSpace with
  | '=' :: rest => some (c :: cs.takeWhile (!ends ·), rest)
  | _ => none

def attributeValue? (cs : List Char) : Option (List Char × List Char) :=
  match cs.dropWhile isSpace with
  | q :: rest =>
    if q = '\'' ∨ q = '"' then
      match rest.dropWhile (· != q) with
      | _ :: after => some (rest.takeWhile (· != q), after)
      | [] => none
    else none
  | [] => none

def declaresNamespace (key : List Char) : Bool :=
  key == "xmlns".toList || "xmlns:".toList.isPrefixOf key

def storeAttribute (ignored : List String) (a : Attributes) (key raw : List Char) :
    Except Error Attributes :=
  let name := String.ofList (localName key)
  if declaresNamespace key || ignored.contains name then .ok a
  else match Text.unescape? raw with
    | some value => .ok (a.insert name value)
    | none => .error .xml

/-- Reads the attributes of a tag one by one. No key may occur twice. -/
def attributesWithin (ignored : List String) :
    Nat → List (List Char) → Attributes → List Char → Except Error Attributes
  | 0, _, a, _ => .ok a
  | fuel + 1, seen, a, cs =>
    match cs.dropWhile isSpace with
    | [] => .ok a
    | c :: rest =>
      match attributeKey? c rest with
      | none => .error badAttribute
      | some (key, rest) =>
        if seen.contains key then .error badAttribute
        else match attributeValue? rest with
          | none => .error badAttribute
          | some (raw, rest) => do
            let a ← storeAttribute ignored a key raw
            attributesWithin ignored fuel (key :: seen) a rest

def readAttributes (ignored : List String) (cs : List Char) : Except Error Attributes :=
  attributesWithin ignored (cs.length + 1) [] .empty cs

/-- The tree that has been read so far, and the elements that are open, innermost first. -/
structure Builder where
  tree : Option Tree := none
  opened : List (List Char × NodeId) := []

namespace Builder

def addElement (b : Builder) (c : Content) : Except Error (Tree × NodeId) :=
  match b.tree, b.opened with
  | none, _ => .ok (.leaf c, Tree.root)
  | some t, (_, parent) :: _ => .ok (t.addChild parent c)
  | some _, [] => .error (.parse "multiple root elements")

/-- Adds a run of text to the innermost open element, after a space if there is text already. -/
def addText (b : Builder) (cs : List Char) : Builder :=
  let run := Text.trim cs
  match b.tree, b.opened with
  | some t, (_, id) :: _ =>
    if run.isEmpty then b
    else
      let joined := match (t.content id).text with
        | some previous => previous ++ " " ++ String.ofList run
        | none => String.ofList run
      { b with tree := some (t.modifyContent id fun c ↦ { c with text := some joined }) }
  | _, _ => b

def add (ignored : List String) (b : Builder) : Piece → Except Error Builder
  | .text raw =>
    match Text.unescapeChars raw with
    | some cs => .ok (b.addText cs)
    | none => .error .xml
  | .literal raw => .ok (b.addText raw)
  | .opening name attributes isEmpty => do
    let attributes ← readAttributes ignored attributes
    let (t, id) ← b.addElement { label := String.ofList (localName name), attributes }
    return { tree := some t, opened := if isEmpty then b.opened else (name, id) :: b.opened }
  | .closing name =>
    match b.opened with
    | (expected, _) :: outer =>
      if name = expected then .ok { b with opened := outer } else .error .xml
    | [] => .error .xml
  | .malformed => .error .xml

def finish (b : Builder) : Except Error Tree :=
  if b.opened.isEmpty then
    match b.tree with
    | some t => .ok t
    | none => .error (.parse "document has no root element")
  else
    .error (.parse ("unexpected end of document inside " ++ Decimal.text b.opened.length ++
      " open elements"))

end Builder

def narrow (t : Tree) : Tree :=
  if t.label Tree.root = "description" then t
  else match t.live.find? fun id ↦ t.label id == "description" with
    | some id => t.subtreeCopy id
    | none => t

def withoutByteOrderMark : List Char → List Char
  | '\uFEFF' :: cs => cs
  | cs => cs

def parseIgnoring (ignored : List String) (s : String) : Except Error Tree := do
  let b ← (pieces (withoutByteOrderMark s.toList)).foldlM (Builder.add ignored) {}
  return narrow (← b.finish)

def parse (s : String) : Except Error Tree := parseIgnoring standardIgnored s

end FlowMerge.Xml
