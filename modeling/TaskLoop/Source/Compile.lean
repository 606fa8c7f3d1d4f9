import TaskLoop.Text.Numeral
import TaskLoop.Program
import TaskLoop.Source.Outline

namespace TaskLoop.Source

structure Scope where
  label? : String → Option Nat
  function? : String → Option Nat

def mnemonic (text : List Char) : String := String.ofList (text.takeWhile (!Text.isBlank ·))

def operand? (text : List Char) : Option String :=
  match text.dropWhile (!Text.isBlank ·) with
  | [] => none
  | _ :: rest => some (String.ofList (Text.trim rest))

def bare (mnemonic : String) (op : Op) : Option String → Except Fault Op
  | none => .ok op
  | some text => .error (.unexpectedOperand mnemonic text)

def reading (mnemonic : String) (read : String → Except Fault Op) :
    Option String → Except Fault Op
  | none => .error (.missingOperand mnemonic)
  | some text => read text

def readPush (text : String) : Except Fault Op :=
  match Text.signed? 64 text.toList with
  | some n => .ok (.push (Int64.ofInt n))
  | none => .error (.invalidInteger text)

def readAlloc (text : String) : Except Fault Op :=
  match Text.unsigned? 64 text.toList with
  | some n => .ok (.alloc (UInt64.ofNat n))
  | none => .error (.invalidSize text)

def readHost (name : String) : Except Fault Op :=
  if Text.isIdentifier name.toList then .ok (.host name) else .error (.invalidHostName name)

def readJump (scope : Scope) (op : Nat → Op) (label : String) : Except Fault Op :=
  match scope.label? label with
  | some target => .ok (op target)
  | none => .error (.unknownLabel label)

def readCall (scope : Scope) (name : String) : Except Fault Op :=
  match scope.function? name with
  | some function => .ok (.call function)
  | none => .error (.unknownFunction name)

def compileOp (scope : Scope) (text : List Char) : Except Fault Op :=
  let operand := operand? text
  match mnemonic text with
  | "push" => reading "push" readPush operand
  | "pop" => bare "pop" .pop operand
  | "dup" => bare "dup" .dup operand
  | "add" => bare "add" .add operand
  | "sub" => bare "sub" .sub operand
  | "ret" => bare "ret" .ret operand
  | "jump" => reading "jump" (readJump scope .jump) operand
  | "jumpz" => reading "jumpz" (readJump scope .jumpz) operand
  | "call" => reading "call" (readCall scope) operand
  | "raise" => reading "raise" (fun message => .ok (.raise message)) operand
  | "host" => reading "host" readHost operand
  | "alloc" => reading "alloc" readAlloc operand
  | other => .error (.unknownInstruction other)

/-- The label that a line defines: the text before a colon at its end. -/
def label? (text : List Char) : Option String :=
  if text.getLast? = some ':' then some (String.ofList text.dropLast) else none

structure Layout where
  labels : List (String × Nat) := []
  code : Array Line := #[]
deriving Repr

def Layout.position? (s : Layout) (label : String) : Option Nat := List.lookup label s.labels

/-- Takes in the next line of a body: a label stands for the instruction after it. -/
def Layout.add (s : Layout) (l : Line) : Except Diagnostic Layout :=
  match label? l.text with
  | none => .ok { s with code := s.code.push l }
  | some label =>
    if Text.isIdentifier label.toList then
      if (s.position? label).isSome then .error ⟨l.number, .duplicateLabel label⟩
      else .ok { s with labels := (label, s.code.size) :: s.labels }
    else .error ⟨l.number, .invalidLabel label⟩

def layout (body : Body) : Except Diagnostic Layout := body.lines.toList.foldlM Layout.add {}

def compileLine (scope : Scope) (l : Line) : Except Diagnostic Op :=
  (compileOp scope l.text).mapError (⟨l.number, ·⟩)

def compileBody (function? : String → Option Nat) (body : Body) : Except Diagnostic FunctionCode := do
  let s ← layout body
  let code ← s.code.mapM (compileLine ⟨s.position?, function?⟩)
  return ⟨body.name, code, s.code.map (·.number)⟩

def duplicate? (seen : List String) : List Body → Option Body
  | [] => none
  | body :: rest => if seen.contains body.name then some body else duplicate? (body.name :: seen) rest

/-- The index of a function among the bodies; the main chunk has index zero and no name to call. -/
def functionIndex? (functions : List Body) (name : String) : Option Nat :=
  (functions.findIdx? (·.name == name)).map (· + 1)

def compileBodies (chunk : String) (bodies : List Body) : Except Diagnostic Program :=
  match duplicate? [] bodies.tail with
  | some body => .error ⟨body.header, .duplicateFunction body.name⟩
  | none => do
    let functions ← bodies.mapM (compileBody (functionIndex? bodies.tail))
    return ⟨chunk, functions.toArray⟩

def compile (chunk : String) (source : List Char) : Except Diagnostic Program := do
  compileBodies chunk (← bodies source)

end TaskLoop.Source
