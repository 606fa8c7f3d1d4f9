import TaskLoop.CommandLine.Report

namespace TaskLoop.CommandLine

def usage : String :=
  "Usage: run [--config FILE] [--hook-interval N] [--memory-limit N] [--chunk-name NAME]\n" ++
  "           [--timeout-ms N] [--stats] FILE...\n" ++
  "       check FILE..."

def paths : Request → List String
  | .check files => files
  | .run r => r.config.toList ++ r.files

def readFile (path : String) : IO (Option (List UInt8)) := do
  match ← (IO.FS.readBinFile path).toBaseIO with
  | .ok bytes => return some bytes.toList
  | .error _ => return none

def readFiles (paths : List String) : IO Reading := do
  let contents ← paths.mapM fun path => return (path, ← readFile path)
  return fun path => (contents.find? (·.1 == path)).bind (·.2)

def printLines (lines : List String) : IO Unit := lines.forM IO.println

def elapsed (since : Nat) : IO UInt64 := return UInt64.ofNat ((← IO.monoMsNow) - since)

/-- Carries a process on until it is over, with the clock set and the output printed in between. -/
partial def drive (since : Nat) (p : Process) : IO Process := do
  printLines (printedLines p.world)
  let p := { p with world := { p.world with log := [] } }
  if p.isOver then return p
  let now ← elapsed since
  drive since ((p.atTime now).run 1000)

def finish (failure : Option Failure) : IO UInt32 := do
  match failure with
  | none => return 0
  | some failure =>
    IO.eprint failure.text
    return 1

def runRequest (read : Reading) (r : RunRequest) : IO UInt32 := do
  let since ← IO.monoMsNow
  let (lines, result) := launch read 0 r
  printLines lines
  match result with
  | .error failure => finish (some failure)
  | .ok l =>
    let p ← drive since l.process
    printLines (closing r p.world)
    finish (l.failure? r)

end TaskLoop.CommandLine

open TaskLoop.CommandLine in
def main (args : List String) : IO UInt32 := do
  match parse args with
  | .error .help =>
    IO.println usage
    return 0
  | .error .usage =>
    IO.eprintln usage
    return 2
  | .ok request =>
    let read ← readFiles (paths request)
    match request with
    | .run r => runRequest read r
    | .check files =>
      let report := check read files
      printLines report.lines
      finish report.failure
