namespace FlowMerge.CommandLine

structure Flag where
  long : String
  short : Option Char := none
  takesValue : Bool := true
deriving DecidableEq

structure Arguments where
  positional : List String := []
  values : List (String × String) := []
deriving DecidableEq, Inhabited

namespace Arguments

def value? (a : Arguments) (long : String) : Option String :=
  (a.values.find? fun e ↦ e.1 == long).map Prod.snd

def set? (a : Arguments) (f : Flag) (value : String) : Option Arguments :=
  if (a.value? f.long).isSome then none
  else some { a with values := a.values ++ [(f.long, value)] }

def looksLikeOption (s : String) : Bool := s.toList.head? == some '-' && s != "-"

/-- What an argument asks for: options that are complete, and possibly one that waits for the next
argument. -/
structure Reading where
  done : List (Flag × String) := []
  waiting : Option Flag := none

def readLong (flags : List Flag) (cs : List Char) : Option Reading := do
  let name := cs.takeWhile (· != '=')
  let f ← flags.find? fun f ↦ f.long.toList == name
  match cs.dropWhile (· != '='), f.takesValue with
  | [], true => some { waiting := some f }
  | [], false => some { done := [(f, "")] }
  | _ :: value, true => some { done := [(f, String.ofList value)] }
  | _ :: _, false => none

/-- Reads short options after one dash. The first that takes a value takes all that follows. -/
def readShort (flags : List Flag) : List Char → Option Reading
  | [] => some {}
  | c :: cs => do
    let f ← flags.find? fun f ↦ f.short == some c
    if f.takesValue then
      match cs with
      | [] => some { waiting := some f }
      | '=' :: value => some { done := [(f, String.ofList value)] }
      | value => some { done := [(f, String.ofList value)] }
    else
      let r ← readShort flags cs
      some { r with done := (f, "") :: r.done }

def readOption (flags : List Flag) (cs : List Char) : Option Reading :=
  match cs with
  | '-' :: '-' :: long => readLong flags long
  | _ :: short => readShort flags short
  | [] => none

/-- Sorts arguments out. After `--` all are positional. -/
def readFrom (flags : List Flag) (a : Arguments) : List String → Option Arguments
  | [] => some a
  | "--" :: rest => some { a with positional := a.positional ++ rest }
  | s :: rest =>
    if looksLikeOption s then do
      let r ← readOption flags s.toList
      let a ← r.done.foldlM (fun a e ↦ a.set? e.1 e.2) a
      match r.waiting, rest with
      | none, rest => readFrom flags a rest
      | some f, v :: rest =>
        if looksLikeOption v then none
        else
          let a ← a.set? f v
          readFrom flags a rest
      | some _, [] => none
    else readFrom flags { a with positional := a.positional ++ [s] } rest
termination_by args => args.length

def read? (flags : List Flag) (args : List String) : Option Arguments := readFrom flags {} args

end Arguments

end FlowMerge.CommandLine
