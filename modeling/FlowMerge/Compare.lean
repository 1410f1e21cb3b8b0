import FlowMerge.Sequence
import FlowMerge.Tree.Fingerprint
import FlowMerge.Variables

namespace FlowMerge

/-- A measure of how little two nodes have in common: zero for equal nodes, one for unrelated
ones. -/
abbrev Comparator (α : Type) := Tree → NodeId → Tree → NodeId → α

namespace Comparator

open Score

variable {α : Type} [Score α] (t : Tree) (a : NodeId) (u : Tree) (b : NodeId)

def surroundings : α :=
  match t.parent? a, u.parent? b with
  | some p, some q => if t.label p = u.label q then zero else one
  | _, _ => zero

def endpointText (c : Content) : List Char := ((c.attr? "endpoint").getD "").toList

def endpointDistance (x y : List Char) : α :=
  let longest := max x.length y.length
  if longest = 0 then zero else one - ratio (Sequence.commonLength x y) longest

def propertyText? (t : Tree) (a : NodeId) (label : String) : Option String :=
  (t.property? a label).bind fun p ↦ (t.content p).text

def displayLabel? (t : Tree) (a : NodeId) : Option String :=
  (propertyText? t a "label").or ((t.content a).attr? "label")

def sameDisplayLabel : Bool :=
  match displayLabel? t a, displayLabel? u b with
  | some x, some y => !x.isEmpty && x == y
  | _, _ => false

/-- Different methods move two endpoints half of the way apart, and a common display label halves
what is between them. -/
def endpoint : α :=
  let d := endpointDistance (endpointText (t.content a)) (endpointText (u.content b))
  let d := if propertyText? t a "method" = propertyText? u b "method" then d
    else d + (one - d) * ratio 1 2
  if sameDisplayLabel t a u b then d * ratio 1 2 else d

def call : α :=
  let e : α := endpoint t a u b
  let v := t.usedVariables a
  let w := u.usedVariables b
  let modified := (NameSet.ratio v.written w.written).getD e
  let read := (NameSet.ratio v.read w.read).getD e
  ratio 4 10 * e + ratio 4 10 * modified + ratio 2 10 * read

def manipulate : α :=
  let v := t.usedVariables a
  let w := u.usedVariables b
  let modified : α := (NameSet.ratio v.written w.written).getD one
  let read := (NameSet.ratio v.read w.read).getD modified
  ratio 7 10 * modified + ratio 3 10 * read

def condition : α := (NameSet.ratio (t.usedVariables a).read (u.usedVariables b).read).getD zero

def waiting : α :=
  if (t.content a).attr? "wait" = (u.content b).attr? "wait" then zero else ratio 2 10

def content : α :=
  if t.label a ≠ u.label b then one
  else if t.fingerprint a = u.fingerprint b then zero
  else if t.label a = "call" then call t a u b
  else if t.label a = "manipulate" then manipulate t a u b
  else if t.label a = "parallel" then waiting t a u b
  else if t.label a = "loop" ∨ t.label a = "alternative" then condition t a u b
  else zero

def process : Comparator α := fun t a u b ↦
  ratio 9 10 * content t a u b + ratio 1 10 * surroundings t a u b

end Comparator

end FlowMerge
