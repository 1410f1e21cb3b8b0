import FlowMerge.Decimal.Natural
import FlowMerge.Error
import FlowMerge.Text.Blank

namespace FlowMerge

/-- The child positions that lead from the root to a node. -/
abbrev Path := List Nat

namespace Path

def limit : Nat := 0x10000000000000000

def text (p : Path) : String :=
  String.ofList (Text.joinWith ['/'] (p.map Decimal.digits))

def pieces : List Char → List (List Char)
  | [] => [[]]
  | c :: cs =>
    if c = '/' then [] :: pieces cs
    else match pieces cs with
      | [] => [[c]]
      | p :: ps => (c :: p) :: ps

/-- A position is written in digits, possibly after a plus sign. -/
def segment? (cs : List Char) : Option Nat := do
  let n ← Decimal.value? (if cs.head? = some '+' then cs.drop 1 else cs)
  if n < limit then some n else none

def parse (s : String) : Except Error Path :=
  if s.isEmpty then .ok []
  else match (pieces s.toList).mapM segment? with
    | some p => .ok p
    | none => .error (.invalidPath s)

def parent? (p : Path) : Option Path :=
  if p.isEmpty then none else some p.dropLast

def child (p : Path) (i : Nat) : Path := p ++ [i]

def compare : Path → Path → Ordering
  | [], [] => .eq
  | [], _ :: _ => .lt
  | _ :: _, [] => .gt
  | i :: p, j :: q => (Ord.compare i j).then (compare p q)

end Path

end FlowMerge
