import FlowMerge.Score

namespace FlowMerge

abbrev CostMatrix (α : Type) := List (List α)

namespace CostMatrix

variable {α : Type} [Score α]

def isSquare (m : CostMatrix α) : Bool := m.all fun row ↦ row.length == m.length

def entry (m : CostMatrix α) (i j : Nat) : α := (m.getD i []).getD j Score.zero

end CostMatrix

namespace Assignment

open Score

variable {α : Type} [Score α]

/-- Prices for rows and columns, and the row that each column is given to. Rows and columns count
from one: column zero holds the row that is being placed, and row zero stands for none. -/
structure State (α : Type) where
  rowPrice : Array α
  columnPrice : Array α
  owner : Array Nat
deriving Inhabited

/-- A search for the cheapest way to place a row. A column has no `slack` before a cost below
infinity is seen for it. -/
structure Search (α : Type) where
  slack : Array (Option α)
  previous : Array Nat
  visited : Array Bool
  column : Nat
deriving Inhabited

def below (x : α) : Option α → Bool
  | none => belowTop x
  | some y => lt x y

def price (a : Array α) (i : Nat) : α := a.getD i zero

def examine (cost : Nat → Nat → α) (s : State α) (row : Nat)
    (acc : Search α × Option α × Nat) (j : Nat) : Search α × Option α × Nat :=
  let (q, least, best) := acc
  if q.visited.getD j false then (q, least, best)
  else
    let reduced := cost (row - 1) (j - 1) - price s.rowPrice row - price s.columnPrice j
    let q := if below reduced (q.slack.getD j none) then
        { q with slack := q.slack.setIfInBounds j (some reduced)
                 previous := q.previous.setIfInBounds j q.column }
      else q
    match q.slack.getD j none with
    | some x => if below x least then (q, some x, j) else (q, least, best)
    | none => (q, least, best)

def reprice (n : Nat) (amount : α) (s : State α) (q : Search α) : State α × Search α :=
  (List.range (n + 1)).foldl (fun (s, q) j ↦
    if q.visited.getD j false then
      let i := s.owner.getD j 0
      ({ s with rowPrice := s.rowPrice.modify i (· + amount)
                columnPrice := s.columnPrice.modify j (· - amount) }, q)
    else (s, { q with slack := q.slack.modify j (Option.map (· - amount)) })) (s, q)

/-- Reaches one more column, until one that no row owns. There is no result where none of the
columns that are left has a slack below infinity: the slacks would lose an infinite amount and be no
numbers from then on, below which no cost ever is, and the search would stay at column zero. -/
def search (n : Nat) (cost : Nat → Nat → α) :
    Nat → State α → Search α → Option (State α × Search α)
  | 0, _, _ => none
  | fuel + 1, s, q =>
    let q := { q with visited := q.visited.setIfInBounds q.column true }
    let row := s.owner.getD q.column 0
    let (q, least, best) :=
      ((List.range n).map (· + 1)).foldl (examine cost s row) (q, none, 0)
    match least with
    | none => none
    | some amount =>
      let (s, q) := reprice n amount s q
      let q := { q with column := best }
      if s.owner.getD best 0 = 0 then some (s, q) else search n cost fuel s q

def shift (previous : Array Nat) : Nat → Array Nat → Nat → Array Nat
  | 0, owner, _ => owner
  | fuel + 1, owner, j =>
    let k := previous.getD j 0
    let owner := owner.setIfInBounds j (owner.getD k 0)
    if k = 0 then owner else shift previous fuel owner k

def place (n : Nat) (cost : Nat → Nat → α) (s : State α) (row : Nat) : Option (State α) := do
  let s := { s with owner := s.owner.setIfInBounds 0 row }
  let q : Search α :=
    ⟨Array.replicate (n + 1) none, Array.replicate (n + 1) 0, Array.replicate (n + 1) false, 0⟩
  let (s, q) ← search n cost (n + 1) s q
  return { s with owner := shift q.previous (n + 1) s.owner q.column }

def start (n : Nat) : State α :=
  ⟨Array.replicate (n + 1) zero, Array.replicate (n + 1) zero, Array.replicate (n + 1) 0⟩

def columnOf (owner : Array Nat) (n row : Nat) : Nat :=
  (((List.range n).find? fun j ↦ owner.getD (j + 1) 0 == row + 1)).getD 0

def solve (m : CostMatrix α) : Option (List Nat) := do
  let n := m.length
  let rows := (m.map List.toArray).toArray
  let cost := fun i j ↦ (rows.getD i #[]).getD j zero
  let s ← ((List.range n).map (· + 1)).foldlM (place n cost) (start n)
  return (List.range n).map (columnOf s.owner n)

def solve? (m : CostMatrix α) : Option (List Nat) := if m.isSquare then solve m else none

def total (m : CostMatrix α) (columns : List Nat) : α :=
  sum (columns.zipIdx.map fun (j, i) ↦ m.entry i j)

end Assignment

end FlowMerge
