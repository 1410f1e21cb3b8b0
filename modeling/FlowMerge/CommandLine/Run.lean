import FlowMerge.CommandLine.Command
import FlowMerge.Drawing
import FlowMerge.Merge.Run
import FlowMerge.Script.Placeholders
import FlowMerge.Xml.Reader
import FlowMerge.Xml.Writer

namespace FlowMerge.CommandLine

/-- What a call needs from where it runs: files by their paths and two streams of text. A write that
fails gives the reason. -/
structure Host (m : Type → Type) where
  read (path : String) : m (Option String)
  write (path text : String) : m (Option String)
  print (text : String) : m Unit
  report (text : String) : m Unit

/-- A call that may fail with a message. What it has done by then stays done. -/
abbrev Session (m : Type → Type) := ExceptT String m

namespace Session

variable {m : Type → Type} [Monad m]

def report (host : Host m) (line : String) : Session m Unit := host.report (line ++ "\n")

def write (host : Host m) (path : Option String) (text : String) : Session m Unit := do
  match path with
  | some p =>
    if let some reason ← host.write p text then throw reason
  | none => host.print text

def check {β : Type} : Except Error β → Session m β
  | .ok x => pure x
  | .error e => throw e.message

def configuration (options : MatchingOptions) : Session m (Config Float) := do
  let thresholds ← check (Thresholds.ofDoubles options.leaf options.inner)
  let algorithm ← check (Algorithm.ofName options.algorithm)
  return { thresholds, algorithm }

def readTree (host : Host m) (role path : String) : Session m Tree := do
  report host ("Parsing " ++ role ++ ": " ++ path)
  match ← host.read path with
  | some text => check (Xml.parse text)
  | none => throw ("file not found: " ++ path)

def describe (config : Config Float) (old new : Tree) : Format → Except Error String
  | .operations => .ok (Script.text (Diff.ofTrees config old new).script)
  | .deltaTree => do return (← Diff.deltaTree config old new).resolvePlaceholders.draw
  | .deltaXml => do
    return Xml.printPretty (← Diff.deltaTree config old new).resolvePlaceholders

def reportConflicts (host : Host m) (l : ConflictLog) : Session m Unit := do
  if l.resolved.isEmpty then report host "Merge complete."
  else
    report host ("Merge complete with " ++ Decimal.text l.resolved.length ++ " resolved conflicts:")
    l.resolved.forM fun c ↦ report host ("  " ++ c.line)

def run (host : Host m) : Command → Session m Unit
  | .diff old new format options output => do
    let config ← configuration options
    let old ← readTree host "old" old
    let new ← readTree host "new" new
    report host ("Diffing (" ++ config.algorithm.name ++ ")...")
    write host output (← check (describe config old new format))
    report host "Diff complete."
  | .merge base a b options output conflicts edits => do
    let config ← configuration options
    let base ← readTree host "base" base
    let a ← readTree host "branch A" a
    let b ← readTree host "branch B" b
    report host ("Merging (" ++ config.algorithm.name ++ ")...")
    let result ← check (Merge.ofTrees config base a b)
    write host output (Xml.printPretty result.merged)
    if conflicts.isSome then write host conflicts result.conflicts.document
    if edits.isSome then write host edits result.edits.document
    reportConflicts host result.conflicts

end Session

variable {m : Type → Type} [Monad m]

def Command.run (host : Host m) (c : Command) : m Nat := do
  match ← ExceptT.run (Session.run host c) with
  | .ok () => return 0
  | .error message =>
    host.report ("Error: " ++ message ++ "\n")
    return 1

def run (host : Host m) (args : List String) : m Nat := do
  match Command.read? args with
  | some c => c.run host
  | none =>
    host.report "invalid arguments\n"
    return 2

end FlowMerge.CommandLine
