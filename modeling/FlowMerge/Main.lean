import FlowMerge.CommandLine.Run

namespace FlowMerge

def terminal : CommandLine.Host IO where
  read path := do
    try return some (← IO.FS.readFile path)
    catch _ => return none
  write path text := do
    try
      IO.FS.writeFile path text
      return none
    catch e => return some (toString e)
  print text := IO.print text
  report text := IO.eprint text

end FlowMerge

def main (args : List String) : IO UInt32 :=
  return UInt32.ofNat (← FlowMerge.CommandLine.run FlowMerge.terminal args)
