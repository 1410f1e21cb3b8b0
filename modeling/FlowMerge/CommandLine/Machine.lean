import FlowMerge.CommandLine.FileTree
import FlowMerge.CommandLine.Run

namespace FlowMerge.CommandLine

structure Machine where
  tree : FileTree
  stdout : String := ""
  stderr : String := ""
deriving DecidableEq, Inhabited

namespace Machine

def print (m : Machine) (text : String) : Machine := { m with stdout := m.stdout ++ text }

def report (m : Machine) (text : String) : Machine := { m with stderr := m.stderr ++ text }

def put (m : Machine) (names : List String) (text : String) : Machine :=
  match m.tree.devices.lookup names with
  | none => { m with tree := m.tree.put names text }
  | some .null => m
  | some .stdout => m.print text
  | some .stderr => m.report text

def host : Host (StateM Machine) where
  read path := return (← get).tree.read? path
  write path text := do
    match (← get).tree.target path with
    | .ok names =>
      modify fun m ↦ m.put names text
      return none
    | .error e => return some e.message
  print text := modify fun m ↦ m.print text
  report text := modify fun m ↦ m.report text

def run (m : Machine) (args : List String) : Nat × Machine :=
  StateT.run (CommandLine.run host args) m

end Machine

end FlowMerge.CommandLine
