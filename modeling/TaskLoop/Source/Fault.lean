
namespace TaskLoop.Source

inductive Fault where
  | nestedFunction
  | missingFunctionName
  | invalidFunctionName (name : String)
  | unexpectedWord (word : String)
  | endOutsideFunction
  | missingEnd (function : String)
  | duplicateFunction (name : String)
  | invalidLabel (label : String)
  | duplicateLabel (label : String)
  | missingOperand (mnemonic : String)
  | unexpectedOperand (mnemonic operand : String)
  | invalidInteger (text : String)
  | invalidSize (text : String)
  | unknownLabel (label : String)
  | unknownFunction (name : String)
  | invalidHostName (name : String)
  | unknownInstruction (mnemonic : String)
deriving DecidableEq, Repr

def Fault.message : Fault → String
  | nestedFunction => "nested function definition"
  | missingFunctionName => "expected a function name after 'fn'"
  | invalidFunctionName name => s!"invalid function name '{name}'"
  | unexpectedWord word => s!"unexpected '{word}'"
  | endOutsideFunction => "'end' outside of a function"
  | missingEnd function => s!"function '{function}' is missing 'end'"
  | duplicateFunction name => s!"function '{name}' defined twice"
  | invalidLabel label => s!"invalid label '{label}'"
  | duplicateLabel label => s!"label '{label}' defined twice"
  | missingOperand mnemonic => s!"'{mnemonic}' expects an operand"
  | unexpectedOperand mnemonic operand => s!"'{mnemonic}' takes no operand, found '{operand}'"
  | invalidInteger text => s!"invalid integer '{text}'"
  | invalidSize text => s!"invalid size '{text}'"
  | unknownLabel label => s!"unknown label '{label}'"
  | unknownFunction name => s!"unknown function '{name}'"
  | invalidHostName name => s!"invalid host function name '{name}'"
  | unknownInstruction mnemonic => s!"unknown instruction '{mnemonic}'"

structure Diagnostic where
  line : Nat
  fault : Fault
deriving DecidableEq, Repr

def Diagnostic.message (chunk : String) (d : Diagnostic) : String :=
  s!"{chunk}:{d.line}: {d.fault.message}"

end TaskLoop.Source
