import TaskLoop.Json.Value
import TaskLoop.Machine.Basic
import TaskLoop.Queue.Config

namespace TaskLoop

structure Settings where
  queue : QueueConfig := {}
  machine : Limits := {}
deriving DecidableEq, Repr

structure Overrides where
  hookInterval : Option UInt32 := none
  memory : Option UInt64 := none
  chunkName : Option String := none
deriving DecidableEq, Repr

namespace Json

def valuesAt (name : String) (fields : List (Option (List Char) × Value)) : List Value :=
  (fields.filter (·.1 = some name.toList)).map (·.2)

def pick? (names : List String) (fields : List (Option (List Char) × Value)) :
    Option (List (Option Value)) :=
  names.mapM fun name =>
    match valuesAt name fields with
    | [] => some none
    | [v] => some (some v)
    | _ => none

/-- The fields of a record, in the order of their names; an absent field is `none`. A record is
written as an object, in which other keys do not matter but a name must not occur twice, or as an
array of its first fields. -/
def record? (names : List String) : Value → Option (List (Option Value))
  | .object fields =>
    let fields := fields.map fun (key, v) => (text? key, v)
    if fields.all (·.1.isSome) then pick? names fields else none
  | .array items =>
    if items.length ≤ names.length then
      some (items.map some ++ List.replicate (names.length - items.length) none)
    else none
  | _ => none

/-- An integer literal below `2 ^ width`. A minus sign is refused even before zero. -/
def unsigned? (width : Nat) : Value → Option Nat
  | .number n => if n.integral ∧ ¬ n.negative ∧ n.whole < 1 <<< width then some n.whole else none
  | _ => none

def string? : Value → Option String
  | .string units => (text? units).map String.ofList
  | _ => none

def fieldOr {α : Type} (default : α) (read : Value → Option α) : Option Value → Option α
  | none => some default
  | some v => read v

end Json

open Json

def RepeatPolicy.ofName? : String → Option RepeatPolicy
  | "from_deadline" => some .fromDeadline
  | "from_now" => some .fromNow
  | _ => none

/-- A policy is written as its name, or as an object with its name and null. -/
def RepeatPolicy.ofJson? : Json.Value → Option RepeatPolicy
  | .string units => string? (.string units) >>= ofName?
  | .object [(key, .null)] => string? (.string key) >>= ofName?
  | _ => none

def uint32? (v : Json.Value) : Option UInt32 := (unsigned? 32 v).map UInt32.ofNat

def uint64? (v : Json.Value) : Option UInt64 := (unsigned? 64 v).map UInt64.ofNat

def QueueConfig.ofJson? (v : Json.Value) : Option QueueConfig := do
  let d : QueueConfig := {}
  match ← record? ["hook_interval", "repeat_policy", "chunk_name"] v with
  | [interval, policy, name] =>
    return {
      hookInterval := ← fieldOr d.hookInterval uint32? interval
      repeatPolicy := ← fieldOr d.repeatPolicy RepeatPolicy.ofJson? policy
      chunkName := ← fieldOr d.chunkName string? name }
  | _ => none

def Limits.ofJson? (v : Json.Value) : Option Limits := do
  let d : Limits := {}
  match ← record? ["memory_limit", "max_call_depth", "max_stack"] v with
  | [memory, callDepth, stack] =>
    return {
      memory := ← fieldOr d.memory uint64? memory
      callDepth := ← fieldOr d.callDepth uint64? callDepth
      stack := ← fieldOr d.stack uint64? stack }
  | _ => none

namespace Settings

def ofJson? (v : Json.Value) : Option Settings := do
  match ← record? ["scheduler", "vm"] v with
  | [queue, machine] =>
    return {
      queue := ← fieldOr {} QueueConfig.ofJson? queue
      machine := ← fieldOr {} Limits.ofJson? machine }
  | _ => none

def parse? (text : List Char) : Option Settings := Json.parse? text >>= ofJson?

def apply (s : Settings) (o : Overrides) : Settings :=
  { queue := { s.queue with
      hookInterval := o.hookInterval.getD s.queue.hookInterval
      chunkName := o.chunkName.getD s.queue.chunkName }
    machine := { s.machine with memory := o.memory.getD s.machine.memory } }

end Settings

end TaskLoop
