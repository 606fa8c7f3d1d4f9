import TaskLoop.Text.Numeral
import TaskLoop.Settings

namespace TaskLoop.CommandLine

structure RunRequest where
  files : List String := []
  config : Option String := none
  overrides : Overrides := {}
  timeout : Option UInt64 := none
  stats : Bool := false
deriving DecidableEq, Repr

inductive Request where
  | run (request : RunRequest)
  | check (files : List String)
deriving DecidableEq, Repr

inductive Refusal where
  | usage
  | help
deriving DecidableEq, Repr

inductive Flag where
  | config
  | hookInterval
  | memoryLimit
  | chunkName
  | timeout
deriving DecidableEq, Repr

def Flag.ofName? : String → Option Flag
  | "config" => some config
  | "hook-interval" => some hookInterval
  | "memory-limit" => some memoryLimit
  | "chunk-name" => some chunkName
  | "timeout-ms" => some timeout
  | _ => none

def path? (text : String) : Option String := if text = "" then none else some text

/-- A 32-bit count. It is read as a signed number first, so a minus sign before zero is fine. -/
def interval? (text : String) : Option UInt32 :=
  ((Text.signed? 64 text.toList).filter fun n : Int => 0 ≤ n ∧ n < UInt32.size).map fun n =>
    UInt32.ofNat n.toNat

def amount? (text : String) : Option UInt64 := (Text.unsigned? 64 text.toList).map UInt64.ofNat

def once {α : Type} (old new : Option α) : Option (Option α) :=
  match old, new with
  | none, some a => some (some a)
  | _, _ => none

namespace RunRequest

def set? (r : RunRequest) (flag : Flag) (text : String) : Option RunRequest :=
  match flag with
  | .config => (once r.config (path? text)).map fun config => { r with config }
  | .hookInterval =>
    (once r.overrides.hookInterval (interval? text)).map fun hookInterval =>
      { r with overrides := { r.overrides with hookInterval } }
  | .memoryLimit =>
    (once r.overrides.memory (amount? text)).map fun memory =>
      { r with overrides := { r.overrides with memory } }
  | .chunkName =>
    (once r.overrides.chunkName (some text)).map fun chunkName =>
      { r with overrides := { r.overrides with chunkName } }
  | .timeout => (once r.timeout (amount? text)).map fun timeout => { r with timeout }

def addFile? (r : RunRequest) (text : String) : Option RunRequest :=
  (path? text).map fun path => { r with files := r.files ++ [path] }

end RunRequest

inductive Argument where
  | escape
  | help
  | long (name : String) (value : Option String)
  | short
  | plain (text : String)
deriving DecidableEq, Repr

def Argument.ofText (text : String) : Argument :=
  match text.toList with
  | ['-', '-'] => .escape
  | '-' :: '-' :: rest =>
    let name := String.ofList (rest.takeWhile (· != '='))
    match rest.dropWhile (· != '=') with
    | [] => if name = "help" then .help else .long name none
    | _ :: value => .long name (some (String.ofList value))
  | ['-'] => .plain text
  | '-' :: 'h' :: _ => .help
  | '-' :: _ => .short
  | _ => .plain text

def orUsage {α : Type} : Option α → Except Refusal α
  | some a => .ok a
  | none => .error .usage

/-- Files may stand between options; after the escape everything is a file. -/
def parseRun (r : RunRequest) : List String → Except Refusal RunRequest
  | [] => if r.files.isEmpty then .error .usage else .ok r
  | text :: rest =>
    match Argument.ofText text with
    | .escape =>
      match rest.foldlM RunRequest.addFile? r with
      | none => .error .usage
      | some r => if r.files.isEmpty then .error .usage else .ok r
    | .help => .error .help
    | .short => .error .usage
    | .plain text =>
      match r.addFile? text with
      | none => .error .usage
      | some r => parseRun r rest
    | .long "stats" value =>
      if r.stats ∨ value.isSome then .error .usage else parseRun { r with stats := true } rest
    | .long name (some value) =>
      match Flag.ofName? name >>= (r.set? · value) with
      | none => .error .usage
      | some r => parseRun r rest
    | .long name none =>
      match rest with
      | [] => .error .usage
      | value :: rest =>
        match Argument.ofText value with
        | .plain value =>
          match Flag.ofName? name >>= (r.set? · value) with
          | none => .error .usage
          | some r => parseRun r rest
        | _ => .error .usage

def parseCheck (files : List String) : List String → Except Refusal (List String)
  | [] => if files.isEmpty then .error .usage else .ok files
  | text :: rest =>
    match Argument.ofText text with
    | .escape => do
      let more ← orUsage (rest.mapM path?)
      if (files ++ more).isEmpty then .error .usage else .ok (files ++ more)
    | .help => .error .help
    | .plain text =>
      match path? text with
      | none => .error .usage
      | some path => parseCheck (files ++ [path]) rest
    | _ => .error .usage

def parse : List String → Except Refusal Request
  | "run" :: rest => (parseRun {} rest).map .run
  | "check" :: rest => (parseCheck [] rest).map .check
  | ["help"] | ["help", "run"] | ["help", "check"] | ["help", "help"] => .error .help
  | text :: _ => if Argument.ofText text = .help then .error .help else .error .usage
  | [] => .error .usage

end TaskLoop.CommandLine
