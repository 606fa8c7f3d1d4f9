import TaskLoop.Text.Split
import TaskLoop.Source.Fault

namespace TaskLoop.Source

/-- A line that is left after the comment is cut off and the ends are trimmed, with its number in
the source. -/
structure Line where
  number : Nat
  text : List Char
deriving DecidableEq, Repr

def significant (raw : List Char) : List Char := Text.trim (raw.takeWhile (· != '#'))

def lines (source : List Char) : List Line :=
  ((Text.lines source).zipIdx 1).filterMap fun (raw, number) =>
    let text := significant raw
    if text.isEmpty then none else some ⟨number, text⟩

def Line.words (l : Line) : List String := (Text.words l.text).map String.ofList

/-- The lines of the main chunk (with an empty name, header zero) or of a function, whose header
stands on line `header`. -/
structure Body where
  name : String
  header : Nat
  lines : Array Line
deriving DecidableEq, Repr

structure Outline where
  main : Array Line := #[]
  functions : Array Body := #[]
  opened : Option Body := none
deriving Repr

def functionName : List String → Except Fault String
  | [] => .error .missingFunctionName
  | name :: rest =>
    if Text.isIdentifier name.toList then
      match rest with
      | [] => .ok name
      | word :: _ => .error (.unexpectedWord word)
    else .error (.invalidFunctionName name)

namespace Outline

def openFunction (o : Outline) (header : Nat) (rest : List String) : Except Fault Outline :=
  match o.opened with
  | some _ => .error .nestedFunction
  | none => do
    let name ← functionName rest
    return { o with opened := some ⟨name, header, #[]⟩ }

def closeFunction (o : Outline) : Except Fault Outline :=
  match o.opened with
  | none => .error .endOutsideFunction
  | some body => .ok { o with functions := o.functions.push body, opened := none }

def addLine (o : Outline) (l : Line) : Outline :=
  match o.opened with
  | none => { o with main := o.main.push l }
  | some body => { o with opened := some { body with lines := body.lines.push l } }

/-- Takes in the next line: a header opens a function, `end` closes it, and any other line belongs
to the open function or else to the main chunk. -/
def add (o : Outline) (l : Line) : Except Diagnostic Outline :=
  match l.words with
  | "fn" :: rest => (o.openFunction l.number rest).mapError (⟨l.number, ·⟩)
  | "end" :: _ => o.closeFunction.mapError (⟨l.number, ·⟩)
  | _ => .ok (o.addLine l)

def bodies (o : Outline) : Except Diagnostic (List Body) :=
  match o.opened with
  | some body => .error ⟨body.header, .missingEnd body.name⟩
  | none => .ok (⟨"", 0, o.main⟩ :: o.functions.toList)

end Outline

def bodies (source : List Char) : Except Diagnostic (List Body) := do
  let outline ← (lines source).foldlM Outline.add {}
  outline.bodies

end TaskLoop.Source
