
namespace TaskLoop

inductive LoadError where
  | malformed (message : String)
  | memory (message : String)
  | other (code : Int) (message : String)
deriving DecidableEq, Repr

namespace LoadError

def code : LoadError → Int
  | malformed _ => 3
  | memory _ => 4
  | other code _ => code

def message : LoadError → String
  | malformed m => m
  | memory m => m
  | other _ m => m

def text : LoadError → String
  | malformed m => s!"syntax error: {m}"
  | memory m => s!"not enough memory: {m}"
  | other code m => s!"load failed with status {code}: {m}"

def notice : LoadError → String
  | malformed m => s!"ERROR: Syntax error: {m}"
  | memory m => s!"ERROR: Not enough memory to load code: {m}"
  | other code m => s!"ERROR: Could not load code (error #{code}): {m}"

end LoadError

inductive CallError where
  | runtime (message : String)
  | memory
  | other (code : Int)
deriving DecidableEq, Repr

namespace CallError

def code : CallError → Int
  | runtime _ => 2
  | memory => 4
  | other code => code

def text : CallError → String
  | runtime m => s!"runtime error: {m}"
  | memory => "not enough memory"
  | other code => s!"call failed with status {code}"

def notice : CallError → String
  | runtime m => s!"ERROR: Thrown from code: {m}"
  | memory => "ERROR: Not enough memory to execute code."
  | other code => s!"ERROR: Could not run code: {code}"

end CallError

end TaskLoop
