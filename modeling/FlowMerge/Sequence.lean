namespace FlowMerge.Sequence

variable {α β : Type}

/-- The lengths for one more element `x`, from those without it (`above`) and from `left`, the
length before the first remaining element. -/
def nextLengths [BEq α] (x : α) (left : Nat) : List α → List Nat → List Nat
  | y :: ys, diagonal :: above =>
    let n := if x == y then diagonal + 1 else max left (above.headD 0)
    n :: nextLengths x n ys above
  | _, _ => []

def lengths [BEq α] (a b : List α) : List Nat :=
  a.foldl (fun row x ↦ 0 :: nextLengths x 0 b row) (List.replicate (b.length + 1) 0)

def commonLength [BEq α] (a b : List α) : Nat := (lengths a b).getLastD 0

variable (eq : α → β → Bool)

/-- The greatest numbers of pairs that `x :: _` and each end of `b` allow, from those without `x`
(`below`). -/
def row (x : α) : List β → List Nat → List Nat
  | y :: ys, here :: below =>
    let rest := row x ys below
    (if eq x y then below.headD 0 + 1 else max here (rest.headD 0)) :: rest
  | _, _ => [0]

def table (b : List β) : List α → List (List Nat)
  | [] => [List.replicate (b.length + 1) 0]
  | x :: xs =>
    let rest := table b xs
    row eq x b (rest.headD []) :: rest

/-- Follows the numbers `best` from the starts of two lists, which stand at `i` and `j`. -/
def follow (best : Nat → Nat → Nat) (i j : Nat) : List α → List β → List (Nat × Nat)
  | x :: xs, y :: ys =>
    if eq x y && best i j == best (i + 1) (j + 1) + 1 then
      (i, j) :: follow best (i + 1) (j + 1) xs ys
    else if best (i + 1) j ≤ best i (j + 1) then follow best i (j + 1) (x :: xs) ys
    else follow best (i + 1) j xs (y :: ys)
  | _, _ => []
termination_by a b => a.length + b.length

/-- The places of a longest common subsequence, as early as possible in the first list. -/
def commonPairs (a : List α) (b : List β) : List (Nat × Nat) :=
  let rows := ((table eq b a).map List.toArray).toArray
  follow eq (fun i j ↦ (rows.getD i #[]).getD j 0) 0 0 a b

end FlowMerge.Sequence
