import TaskLoop.CommandLine.Request
import TaskLoop.Session
import TaskLoop.Session.Clock

namespace TaskLoop.CommandLine

abbrev Reading := String → Option (List UInt8)

inductive Failure where
  | readingConfig (path : String)
  | parsingConfig (path : String)
  | reading (path : String)
  | rejected (count total : Nat)
  | notCompiled (count total : Nat)
deriving DecidableEq, Repr

def Failure.message : Failure → String
  | readingConfig path => s!"reading config {path}"
  | parsingConfig path => s!"parsing config {path}"
  | reading path => s!"reading {path}"
  | rejected count total => s!"{count} of {total} scripts failed to load"
  | notCompiled count total => s!"{count} of {total} files failed to compile"

def Failure.text (f : Failure) : String := s!"Error: {f.message}\n"

structure Report where
  lines : List String
  failure : Option Failure
deriving DecidableEq, Repr

def Report.status (r : Report) : UInt32 := if r.failure.isSome then 1 else 0

def Report.output (r : Report) : String := String.join (r.lines.map (· ++ "\n"))

def Report.errorLine? (r : Report) : Option String :=
  r.failure.map fun f => String.ofList (Text.firstLine f.text.toList)

def readText? (read : Reading) (path : String) : Option (List Char) := do
  let bytes ← read path
  match Text.Utf8.decode bytes with
  | .ok text => some text
  | .error _ => none

def verdictOn (path : String) (text : List Char) : Except String String :=
  match Source.compile path text with
  | .ok p => .ok s!"ok {path} ({p.functions.size - 1} functions)"
  | .error d => .error s!"error {d.message path}"

def checkFiles (read : Reading) : List String → List String × Except Failure Nat
  | [] => ([], .ok 0)
  | path :: rest =>
    match readText? read path with
    | none => ([], .error (.reading path))
    | some text =>
      let (lines, failed) := checkFiles read rest
      match verdictOn path text with
      | .ok line => (line :: lines, failed)
      | .error line => (line :: lines, failed.map (· + 1))

def check (read : Reading) (files : List String) : Report :=
  match checkFiles read files with
  | (lines, .error failure) => ⟨lines, some failure⟩
  | (lines, .ok 0) => ⟨lines, none⟩
  | (lines, .ok failed) => ⟨lines, some (.notCompiled failed files.length)⟩

def resolve (read : Reading) (r : RunRequest) : Except Failure Settings :=
  match r.config with
  | none => .ok (({} : Settings).apply r.overrides)
  | some path =>
    match readText? read path with
    | none => .error (.readingConfig path)
    | some text =>
      match Settings.parse? text with
      | none => .error (.parsingConfig path)
      | some settings => .ok (settings.apply r.overrides)

/-- The host functions of scripts: `print` takes an integer and prints it, `uptime` pushes the time,
and `interrupt` interrupts every task. -/
def hosts : List (String × List (HostCall Action)) :=
  [("print", [⟨[.engine 0 .print], none, true⟩]),
   ("uptime", [⟨[.engine 0 .pushTime], none, true⟩]),
   ("interrupt", [⟨[.queue 0 (.interruptAll "" (World.interruptedNotice 0) none)], none, false⟩])]

def world (settings : Settings) (now : UInt64) : World :=
  { now
    queues := #[some { config := settings.queue }]
    engines := #[.machine { machine := { limits := settings.machine }, hosts }] }

def startFiles (read : Reading) (w : World) (rejected : Nat) :
    List String → World × Except Failure Nat
  | [] => (w, .ok rejected)
  | path :: rest =>
    match read path with
    | none => (w, .error (.reading path))
    | some source =>
      match w.parseAndStart 0 0 source with
      | (.ok _, w) => startFiles read w rejected rest
      | (.error _, w) => startFiles read w (rejected + 1) rest

def eventLine? : Event → Option String
  | .status _ m => some s!"{m.tag.letter} {m.text}"
  | .printed n => some s!"{n.toInt}"
  | _ => none

def printedLines (w : World) : List String := w.log.reverse.filterMap eventLine?

def statsLines (s : Stats) : List String :=
  ["\x7b", s!"  \"passes\": {s.passes},", s!"  \"steps\": {s.steps},",
   s!"  \"completed\": {s.completed},", s!"  \"interrupts\": {s.interrupts}", "\x7d"]

structure Launch where
  process : Process
  rejected : Nat

def launch (read : Reading) (now : UInt64) (r : RunRequest) : List String × Except Failure Launch :=
  match resolve read r with
  | .error failure => ([], .error failure)
  | .ok settings =>
    match startFiles read (world settings now) 0 r.files with
    | (w, .error failure) => (printedLines w, .error failure)
    | (w, .ok rejected) =>
      let ready := match r.timeout with
        | none => w
        | some timeout => w.startWatchdog 0 timeout
      (printedLines w, .ok ⟨ready.begin (.act (.queue 0 .runOnce)), rejected⟩)

def closing (r : RunRequest) (w : World) : List String :=
  if r.stats then statsLines (((w.queue? 0).map (·.stats)).getD {}) else []

def Launch.failure? (l : Launch) (r : RunRequest) : Option Failure :=
  if 0 < l.rejected then some (.rejected l.rejected r.files.length) else none

/-- Runs the scripts of a request while the clock runs, unless that takes more steps than the fuel
allows. -/
def run? (fuel : Nat) (read : Reading) (clock : Clock) (r : RunRequest) : Option Report :=
  match launch read (clock 0) r with
  | (lines, .error failure) => some ⟨lines, some failure⟩
  | (lines, .ok l) =>
    let p := l.process.runUnder clock 0 fuel
    if p.isOver then some ⟨lines ++ printedLines p.world ++ closing r p.world, l.failure? r⟩ else none

def answer? (fuel : Nat) (read : Reading) (clock : Clock) : Request → Option Report
  | .check files => some (check read files)
  | .run r => run? fuel read clock r

end TaskLoop.CommandLine
