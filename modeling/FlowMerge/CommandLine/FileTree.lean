import FlowMerge.Path

namespace FlowMerge.CommandLine

inductive PathError where
  | missing
  | notFolder
  | folder
  | tooLong
deriving DecidableEq, Inhabited

def PathError.message : PathError → String
  | missing => "No such file or directory (os error 2)"
  | notFolder => "Not a directory (os error 20)"
  | folder => "Is a directory (os error 21)"
  | tooLong => "File name too long (os error 36)"

inductive Device where
  | null
  | stdout
  | stderr
deriving DecidableEq, Inhabited

def Device.standard : List (List String × Device) :=
  [(["dev", "null"], null), (["dev", "stdout"], stdout), (["dev", "stderr"], stderr)]

/-- Files and devices, each with the names that lead to it from the top, and the working folder.
Every place above one of these is a folder. -/
structure FileTree where
  files : List (List String × String) := []
  devices : List (List String × Device) := Device.standard
  here : List String := []
deriving DecidableEq, Inhabited

namespace FileTree

def longestName : Nat := 255

def longestPath : Nat := 4095

def segments (path : String) : List String := (Path.pieces path.toList).map String.ofList

def isDot (name : String) : Bool := name = "" ∨ name = "."

/-- A tree with files in and below the working folder. A slash is in no name, so that no path leads
from elsewhere to that folder. -/
def ofFiles (files : List (String × String)) : FileTree :=
  let here := ["tmp", "/"]
  { here, files := files.map fun f ↦ (here ++ (segments f.1).filter fun n ↦ !isDot n, f.2) }

def isFile (t : FileTree) (names : List String) : Bool :=
  (t.files.lookup names).isSome || (t.devices.lookup names).isSome

def isFolder (t : FileTree) (names : List String) : Bool :=
  names.isPrefixOf t.here ||
    (t.files.map Prod.fst ++ t.devices.map Prod.fst).any fun f ↦ names.isPrefixOf f && f != names

/-- Follows names from a place, which has to be a folder if any are left. A new name with a slash
after it asks for a folder. -/
def follow (t : FileTree) (names : List String) : List String → Except PathError (List String)
  | [] => .ok names
  | name :: rest =>
    if !t.isFolder names then .error (if t.isFile names then .notFolder else .missing)
    else if isDot name then t.follow names rest
    else if name = ".." then t.follow names.dropLast rest
    else if !rest.isEmpty && rest.all (· == "") then .error .folder
    else if longestName < name.utf8ByteSize then .error .tooLong
    else t.follow (names ++ [name]) rest

def locate (t : FileTree) (path : String) : Except PathError (List String) :=
  if longestPath < path.utf8ByteSize then .error .tooLong
  else match segments path with
    | [""] => .error .missing
    | "" :: names => t.follow [] names
    | names => t.follow t.here names

def read? (t : FileTree) (path : String) : Option String :=
  match t.locate path with
  | .ok names => t.files.lookup names
  | .error _ => none

def target (t : FileTree) (path : String) : Except PathError (List String) := do
  let names ← t.locate path
  if t.isFolder names then throw .folder
  return names

def put (t : FileTree) (names : List String) (text : String) : FileTree :=
  { t with files := (names, text) :: t.files.filter fun f ↦ f.1 != names }

end FileTree

end FlowMerge.CommandLine
