import FlowMerge.Decimal.Natural

namespace FlowMerge.Decimal

def takeDigits (cs : List Char) : List Char × List Char :=
  (cs.takeWhile Char.isDigit, cs.dropWhile Char.isDigit)

def takeSign : List Char → Bool × List Char
  | '-' :: cs => (true, cs)
  | '+' :: cs => (false, cs)
  | cs => (false, cs)

def exponent? : List Char → Option Int
  | [] => some 0
  | c :: cs =>
    if c == 'e' || c == 'E' then
      let (negative, ds) := takeSign cs
      (value? ds).map fun n ↦ if negative then -(n : Int) else n
    else none

def scientific? (cs : List Char) : Option (Nat × Int) :=
  let (whole, rest) := takeDigits cs
  let (fraction, rest) := match rest with
    | '.' :: r => takeDigits r
    | r => ([], r)
  match value? (whole ++ fraction), exponent? rest with
  | some c, some e => some (c, e - fraction.length)
  | _, _ => none

def nearestDouble (c : Nat) (e : Int) : Float :=
  let magnitude := (digits c).length + e
  if c = 0 || magnitude < -400 then 0.0
  else if 400 < magnitude then 1.0 / 0.0
  else if e < 0 then Float.ofScientific c true (-e).toNat
  else Float.ofScientific c false e.toNat

def lower (cs : List Char) : String := String.ofList (cs.map Char.toLower)

def readDouble? (s : String) : Option Float :=
  let (negative, cs) := takeSign s.toList
  let x : Option Float :=
    if lower cs = "inf" ∨ lower cs = "infinity" then some (1.0 / 0.0)
    else if lower cs = "nan" then some (0.0 / 0.0)
    else (scientific? cs).map fun (c, e) ↦ nearestDouble c e
  x.map fun y ↦ if negative then -y else y

end FlowMerge.Decimal
