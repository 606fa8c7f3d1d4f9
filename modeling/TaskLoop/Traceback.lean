
namespace TaskLoop

/-- An active call: its chunk, its function (empty for the main chunk) and the source line that it
is executing. -/
structure TraceFrame where
  chunk : String
  function : String
  line : Nat
deriving DecidableEq, Repr

def TraceFrame.text (f : TraceFrame) : String :=
  if f.function = "" then s!"{f.chunk}:{f.line}: in main chunk"
  else s!"{f.chunk}:{f.line}: in function '{f.function}'"

/-- The message alone if no call was active; otherwise the message and the calls, innermost first.
`frames` has the outermost call first. -/
def traceback (message : String) (frames : List TraceFrame) : String :=
  if frames.isEmpty then message
  else frames.reverse.foldl (fun text f => text ++ "\n\t" ++ f.text)
    (message ++ "\nstack traceback:")

end TaskLoop
