namespace FlowMerge.Decimal

def digitChar (d : Nat) : Char := Char.ofNat (0x30 + d)

def digits (n : Nat) : List Char :=
  if _h : n < 10 then [digitChar n] else digits (n / 10) ++ [digitChar (n % 10)]
termination_by n

def text (n : Nat) : String := String.ofList (digits n)

def digitValue? (c : Char) : Option Nat :=
  if '0' ≤ c ∧ c ≤ '9' then some (c.toNat - 0x30) else none

/-- The value of a run of digits that continues a number worth `acc`. -/
def valueFrom (acc : Nat) : List Char → Option Nat
  | [] => some acc
  | c :: cs => do valueFrom (10 * acc + (← digitValue? c)) cs

def value? : List Char → Option Nat
  | [] => none
  | cs => valueFrom 0 cs

end FlowMerge.Decimal
