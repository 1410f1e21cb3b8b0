import FlowMerge.Decimal.Natural

namespace FlowMerge.Decimal

/-- A positive number `mantissa * 2 ^ exponent` of a binary format. The number below it is half as
far away as the one above where the exponent changes. -/
structure Binary where
  mantissa : Nat
  exponent : Int
  halfBelow : Bool
deriving DecidableEq

namespace Binary

def quarters (b : Binary) (n : Nat) : Nat × Nat :=
  if 2 ≤ b.exponent then (n * Nat.pow 2 (b.exponent - 2).toNat, 1)
  else (n, Nat.pow 2 (2 - b.exponent).toNat)

def inUnits (e : Int) (x : Nat × Nat) : Nat × Nat :=
  if 0 ≤ e then (x.1, x.2 * Nat.pow 10 e.toNat) else (x.1 * Nat.pow 10 (-e).toNat, x.2)

def value (b : Binary) : Nat × Nat := b.quarters (4 * b.mantissa)

def low (b : Binary) : Nat × Nat := b.quarters (4 * b.mantissa - if b.halfBelow then 1 else 2)

def high (b : Binary) : Nat × Nat := b.quarters (4 * b.mantissa + 2)

def readsBack (b : Binary) (e : Int) (c : Nat) : Bool :=
  let (lp, ld) := inUnits e b.low
  let (hp, hd) := inUnits e b.high
  if b.mantissa % 2 = 0 then lp ≤ c * ld && c * hd ≤ hp else lp < c * ld && c * hd < hp

/-- The better of the two neighbours of the number among the multiples of `10 ^ e`, if one reads
back. Of two equally near ones it is the upper. -/
def neighbour? (b : Binary) (e : Int) : Option Nat :=
  let (p, d) := inUnits e b.value
  let c := p / d
  match b.readsBack e c, b.readsBack e (c + 1) with
  | true, true => some (if 2 * (p % d) < d then c else c + 1)
  | true, false => some c
  | false, true => some (c + 1)
  | false, false => none

/-- The count of decimal places before the point. Below one it is minus that of the zeros after
the point. -/
def magnitude (b : Binary) : Int :=
  let (p, d) := b.value
  if d ≤ p then (digits (p / d)).length
  else - (((List.range 400).find? fun j ↦ d ≤ p * Nat.pow 10 (j + 1)).getD 0 : Nat)

def shortest (b : Binary) : Nat × Int :=
  let k := b.magnitude
  ((List.range 17).findSome? fun n ↦
    let e : Int := k - (n + 1 : Nat)
    (b.neighbour? e).map fun c ↦ (c, e)).getD (0, 0)

end Binary

def positional (c : Nat) (e : Int) : List Char :=
  if 0 ≤ e then digits c ++ List.replicate e.toNat '0'
  else
    let places := (-e).toNat
    let ds := digits c
    let ds := List.replicate (places + 1 - ds.length) '0' ++ ds
    let whole := ds.take (ds.length - places)
    let fraction := (ds.drop (ds.length - places)).reverse.dropWhile (· == '0')
    if fraction.isEmpty then whole else whole ++ '.' :: fraction.reverse

def signBit : Nat := 0x8000000000000000

def exponentBit : Nat := 0x10000000000000

def Binary.ofBits (n : Nat) : Binary :=
  let e : Nat := n / exponentBit
  let f := n % exponentBit
  if e = 0 then ⟨f, -1074, false⟩ else ⟨f + exponentBit, (e : Int) - 1075, f = 0 && 1 < e⟩

def doubleText (x : Float) : String :=
  let bits := x.toBits.toNat
  let n := bits % signBit
  let sign := if signBit ≤ bits then "-" else ""
  if 0x7FF * exponentBit < n then "NaN"
  else if n = 0x7FF * exponentBit then sign ++ "inf"
  else if n = 0 then sign ++ "0"
  else
    let (c, e) := (Binary.ofBits n).shortest
    sign ++ String.ofList (positional c e)

end FlowMerge.Decimal
