import FlowMerge.Decimal.Natural

namespace FlowMerge.Text

def entities : List (String × Char) :=
  [("amp", '&'), ("lt", '<'), ("gt", '>'), ("apos", '\''), ("quot", '"')]

def entityName? (c : Char) : Option String := (entities.find? fun e ↦ e.2 == c).map Prod.fst

def escapeChar (plain : Char → Bool) (c : Char) : List Char :=
  match entityName? c with
  | some name => if plain c then [c] else '&' :: name.toList ++ [';']
  | none => [c]

def escape (s : String) : String := String.ofList (s.toList.flatMap (escapeChar fun _ ↦ false))

/-- As `escape`, but apostrophes stay. It serves between double quotes. -/
def escapeInQuotes (s : String) : String :=
  String.ofList (s.toList.flatMap (escapeChar (· == '\'')))

def hexValue? (c : Char) : Option Nat :=
  if '0' ≤ c ∧ c ≤ '9' then some (c.toNat - 0x30)
  else if 'a' ≤ c ∧ c ≤ 'f' then some (c.toNat - 0x57)
  else if 'A' ≤ c ∧ c ≤ 'F' then some (c.toNat - 0x37)
  else none

def hexFrom (acc : Nat) : List Char → Option Nat
  | [] => some acc
  | c :: cs => do hexFrom (16 * acc + (← hexValue? c)) cs

/-- The character with a code. The codes zero and those of surrogates have none. -/
def charOfCode? (n : Nat) : Option Char :=
  if 0 < n ∧ n.isValidChar then some (Char.ofNat n) else none

def reference? : List Char → Option Char
  | '#' :: 'x' :: c :: cs => (hexFrom 0 (c :: cs)).bind charOfCode?
  | '#' :: cs => (Decimal.value? cs).bind charOfCode?
  | cs => (entities.find? fun e ↦ e.1.toList == cs).map Prod.snd

def endsReference (c : Char) : Bool := c == ';' || c == '&'

def unescapeChars : List Char → Option (List Char)
  | [] => some []
  | c :: cs =>
    if c = '&' then
      match _h : cs.dropWhile fun c ↦ !endsReference c with
      | ';' :: rest => do
        let c ← reference? (cs.takeWhile fun c ↦ !endsReference c)
        return c :: (← unescapeChars rest)
      | _ => none
    else (unescapeChars cs).map (c :: ·)
termination_by cs => cs.length
decreasing_by
  · have := (List.dropWhile_sublist (fun c ↦ !endsReference c) (l := cs)).length_le
    simp_all
    omega
  · simp

def unescape? (s : List Char) : Option String := (unescapeChars s).map String.ofList

end FlowMerge.Text
