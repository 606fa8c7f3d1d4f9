import TaskLoop.Text.Split
import TaskLoop.Text.Numeral
import TaskLoop.Text.Utf8
import TaskLoop.Error
import TaskLoop.Traceback

namespace TaskLoop

inductive PacerChunk where
  | steps (count : Nat)
  | forever
  /-- Recurses so many levels, then counts forever. -/
  | nested (levels : Nat)
  | raise (message : String)
  | outOfMemory
  | status (code : Int)
deriving DecidableEq, Repr

def PacerChunk.parts (source : List Char) : String × List Char :=
  let text := Text.trim source
  (String.ofList (text.takeWhile (· != ' ')), (text.dropWhile (· != ' ')).drop 1)

def PacerChunk.parse (source : List Char) : Except LoadError PacerChunk :=
  let (word, argument) := parts source
  let text := String.ofList argument
  match word with
  | "steps" =>
    match Text.unsigned? 64 argument with
    | some n => .ok (.steps n)
    | none => .error (.malformed s!"bad step count '{text}'")
  | "forever" => .ok .forever
  | "nested" =>
    match Text.unsigned? 64 argument with
    | some n => .ok (.nested n)
    | none => .error (.malformed s!"bad depth '{text}'")
  | "raise" => .ok (.raise text)
  | "oom" => .ok .outOfMemory
  | "status" =>
    match Text.signed? 32 argument with
    | some code => .ok (.status code)
    | none => .error (.malformed s!"bad status '{text}'")
  | "huge" => .error (.memory "chunk too large")
  | "weird" => .error (.other 7 "unsupported chunk")
  | other => .error (.malformed s!"unexpected '{other}'")

/-- A pacer stands in for a script engine where only the pace of execution matters: its chunks do nothing but
count instructions. Keys are never used twice. -/
structure Pacer where
  stack : List PacerChunk := []
  entries : Array (Option PacerChunk) := #[]
  executed : Nat := 0

namespace Pacer

def load (p : Pacer) (bytes : List UInt8) : Except LoadError Pacer :=
  match Text.Utf8.decode bytes with
  | .error fault => .error (.malformed fault.message)
  | .ok source =>
    match PacerChunk.parse source with
    | .error e => .error e
    | .ok chunk => .ok { p with stack := chunk :: p.stack }

def reference? (p : Pacer) : Option (Nat × Pacer) :=
  match p.stack with
  | [] => none
  | chunk :: rest =>
    some (p.entries.size, { p with stack := rest, entries := p.entries.push (some chunk) })

def unreference (p : Pacer) (key : Nat) : Pacer :=
  { p with entries := p.entries.setIfInBounds key none }

def get? (p : Pacer) (key : Nat) : Option PacerChunk := (p.entries[key]?).join

def truncate (p : Pacer) (height : Nat) : Pacer :=
  { p with stack := p.stack.drop (p.stack.length - height) }

def live (p : Pacer) : Nat := p.entries.countP (·.isSome)

def count (p : Pacer) : Pacer := { p with executed := p.executed + 1 }

def trace (depth : Nat) : List TraceFrame :=
  (List.range depth).map fun i =>
    { chunk := "mock", function := if i = 0 then "" else s!"level{i + 1}", line := i + 1 }

inductive Rest where
  | chunk (c : PacerChunk)
  /-- An error whose instruction has been counted. -/
  | raised (message : String)
deriving DecidableEq, Repr

/-- What comes next in a chunk: the end, an error to raise, or one more instruction and then the
rest at the given depth. -/
inductive Progress where
  | finished (result : Except CallError Unit)
  | raising (message : String)
  | tick (rest : Rest) (depth : Nat)

def next (depth : Nat) : Rest → Progress
  | .chunk (.steps 0) => .finished (.ok ())
  | .chunk (.steps (n + 1)) => .tick (.chunk (.steps n)) depth
  | .chunk .forever => .tick (.chunk .forever) depth
  | .chunk (.nested 0) => .tick (.chunk .forever) depth
  | .chunk (.nested (n + 1)) => .tick (.chunk (.nested n)) (depth + 1)
  | .chunk (.raise message) => .tick (.raised message) depth
  | .chunk .outOfMemory => .finished (.error .memory)
  | .chunk (.status code) => .finished (.error (.other code))
  | .raised message => .raising message

end Pacer

end TaskLoop
