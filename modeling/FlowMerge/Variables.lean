import FlowMerge.Score
import FlowMerge.Text.Blank
import FlowMerge.Text.Word
import FlowMerge.Tree.Basic

namespace FlowMerge

/-- A set of names, in order and each of them once. -/
abbrev NameSet := List String

namespace NameSet

def insert (x : String) : NameSet → NameSet
  | [] => [x]
  | y :: ys => if x < y then x :: y :: ys else if x = y then y :: ys else y :: insert x ys

def ofList (xs : List String) : NameSet := xs.foldl (fun s x ↦ insert x s) []

def differences (a b : NameSet) : Nat :=
  (a.filter fun x ↦ !b.contains x).length + (b.filter fun x ↦ !a.contains x).length

/-- How much two sets differ, relative to the larger of them. Nothing for two empty sets. -/
def ratio {α : Type} [Score α] (a b : NameSet) : Option α :=
  let longest := max a.length b.length
  if longest = 0 then none else some (Score.capped (Score.ratio (differences a b) longest))

end NameSet

structure Reference where
  name : String
  isRead : Bool
  isWritten : Bool
deriving DecidableEq, Inhabited

namespace Reference

def marker : List Char := ['d', 'a', 't', 'a', '.']

def startsWith (cs : List Char) (s : String) : Bool := s.toList.isPrefixOf cs

def ofContext (name : String) (after : List Char) : Reference :=
  if ["+=", "-=", "*=", "/=", "||=", "&&=", "<<"].any (startsWith after) then ⟨name, true, true⟩
  else if startsWith after "=" && !(["==", "=>", "=~"].any (startsWith after)) then
    ⟨name, false, true⟩
  else ⟨name, true, false⟩

/-- The mentions of variables in a text that comes after the character `before`. -/
def scanFrom (before : Option Char) : List Char → List Reference
  | [] => []
  | c :: cs =>
    if marker.isPrefixOf (c :: cs) then
      let rest := cs.drop 4
      let name := rest.takeWhile Text.isWordChar
      if before.any Text.isWordChar || name.isEmpty then scanFrom (some '.') rest
      else
        let after := rest.dropWhile Text.isWordChar
        ofContext (String.ofList name) (Text.trimStart after) :: scanFrom name.getLast? after
    else scanFrom (some c) cs
termination_by cs => cs.length
decreasing_by
  · simp +arith
  · have := (List.dropWhile_sublist Text.isWordChar (l := cs.drop 4)).length_le
    simp_all +arith
    omega
  · simp

def scan (s : String) : List Reference := scanFrom none s.toList

end Reference

structure Variables where
  read : NameSet := []
  written : NameSet := []
deriving DecidableEq, Inhabited

namespace Variables

def ofReferences (rs : List Reference) : Variables where
  read := .ofList ((rs.filter Reference.isRead).map Reference.name)
  written := .ofList ((rs.filter Reference.isWritten).map Reference.name)

end Variables

namespace Content

def references (c : Content) : List Reference :=
  (c.text.map Reference.scan).getD [] ++ c.attributes.entries.flatMap fun e ↦ Reference.scan e.2

end Content

namespace Tree

def usedVariables (t : Tree) (id : NodeId) : Variables :=
  .ofReferences ((id :: t.properties id).flatMap fun n ↦ (t.content n).references)

end Tree

end FlowMerge
