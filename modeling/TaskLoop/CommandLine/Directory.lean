import TaskLoop.Text.Split

namespace TaskLoop.CommandLine

structure Directory where
  files : List (String × List UInt8) := []

def longestPath : Nat := 4095

def pathSteps (path : List Char) : List (List Char) := Text.split (· == '/') path

def isStill (step : List Char) : Bool := step.isEmpty || step == ['.']

/-- The name of the file that a relative path leads to. A path that ends in a slash or in a dot
leads to a directory. -/
def fileName? (path : List Char) : Option String :=
  if path.head? = some '/' ∨ path.getLast? = some '/' then none
  else
    let steps := pathSteps path
    if (steps.getLast?.map isStill).getD true || steps.contains ['.', '.'] then none
    else some (String.ofList (['/'].intercalate (steps.filter (!isStill ·))))

/-- The content of a file. A path that is too long leads nowhere, even if most of its steps stay
where they are. -/
def Directory.read (d : Directory) (path : String) : Option (List UInt8) :=
  if longestPath < path.utf8ByteSize then none
  else do
    let name ← fileName? path.toList
    (d.files.find? (·.1 == name)).map (·.2)

end TaskLoop.CommandLine
