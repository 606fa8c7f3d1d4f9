
namespace TaskLoop.Json

/-- A unit of a string: a character, or a surrogate that was written as an escape. A string with a lone
surrogate is well formed but has no text. -/
inductive StringUnit where
  | char (c : Char)
  | surrogate (n : Nat)
deriving DecidableEq, Repr

def StringUnit.ofCode (n : Nat) : StringUnit :=
  if 0xd800 ≤ n ∧ n ≤ 0xdfff then .surrogate n else .char (Char.ofNat n)

/-- What a number says: its sign, its whole part, and whether it is an integer literal, without a
fraction and without an exponent. -/
structure Number where
  negative : Bool := false
  whole : Nat := 0
  integral : Bool := true
deriving DecidableEq, Repr

inductive Token where
  | leftBrace
  | rightBrace
  | leftBracket
  | rightBracket
  | comma
  | colon
  | null
  | bool (b : Bool)
  | number (n : Number)
  | string (units : List StringUnit)
deriving DecidableEq, Repr

inductive NumberPart where
  | sign
  | zero
  | whole
  | point
  | fraction
  | mark
  | exponentSign
  | exponent
deriving DecidableEq, Repr

/-- The token that a scanner is inside of. Letters and units are kept with the last one in front;
`missing` counts the hexadecimal digits still to come. -/
inductive Mode where
  | between
  | word (letters : List Char)
  | number (part : NumberPart) (n : Number)
  | string (units : List StringUnit)
  | escape (units : List StringUnit)
  | code (units : List StringUnit) (value missing : Nat)
deriving Repr

structure Scanner where
  tokens : List Token := []
  mode : Mode := .between
deriving Repr

def isSpace (c : Char) : Bool := c == ' ' || c == '\t' || c == '\n' || c == '\r'

def isLetter (c : Char) : Bool := 'a' ≤ c && c ≤ 'z'

def digit (c : Char) : Nat := c.toNat - '0'.toNat

def hexDigit? (c : Char) : Option Nat :=
  if c.isDigit then some (digit c)
  else if 'a' ≤ c && c ≤ 'f' then some (c.toNat - 'a'.toNat + 10)
  else if 'A' ≤ c && c ≤ 'F' then some (c.toNat - 'A'.toNat + 10)
  else none

def escaped? (c : Char) : Option Char :=
  match c with
  | '"' => some '"'
  | '\\' => some '\\'
  | '/' => some '/'
  | 'b' => some '\x08'
  | 'f' => some '\x0c'
  | 'n' => some '\n'
  | 'r' => some '\r'
  | 't' => some '\t'
  | _ => none

def word? (letters : List Char) : Option Token :=
  match String.ofList letters with
  | "null" => some .null
  | "true" => some (.bool true)
  | "false" => some (.bool false)
  | _ => none

def NumberPart.complete : NumberPart → Bool
  | zero | whole | fraction | exponent => true
  | sign | point | mark | exponentSign => false

def extend? (part : NumberPart) (n : Number) (c : Char) : Option (NumberPart × Number) :=
  if c.isDigit then
    match part with
    | .sign => some (if c = '0' then (.zero, n) else (.whole, { n with whole := digit c }))
    | .whole => some (.whole, { n with whole := 10 * n.whole + digit c })
    | .point | .fraction => some (.fraction, n)
    | .mark | .exponentSign | .exponent => some (.exponent, n)
    | .zero => none
  else if c = '.' then
    match part with
    | .zero | .whole => some (.point, { n with integral := false })
    | _ => none
  else if c = 'e' ∨ c = 'E' then
    match part with
    | .zero | .whole | .fraction => some (.mark, { n with integral := false })
    | _ => none
  else if c = '+' ∨ c = '-' then
    match part with
    | .mark => some (.exponentSign, n)
    | _ => none
  else none

namespace Scanner

def emit (s : Scanner) (t : Token) : Scanner := ⟨t :: s.tokens, .between⟩

def begin? (s : Scanner) (c : Char) : Option Scanner :=
  match c with
  | '\x7b' => some (s.emit .leftBrace)
  | '\x7d' => some (s.emit .rightBrace)
  | '[' => some (s.emit .leftBracket)
  | ']' => some (s.emit .rightBracket)
  | ',' => some (s.emit .comma)
  | ':' => some (s.emit .colon)
  | '"' => some { s with mode := .string [] }
  | '-' => some { s with mode := .number .sign { negative := true } }
  | c =>
    if isSpace c then some { s with mode := .between }
    else if isLetter c then some { s with mode := .word [c] }
    else (extend? .sign {} c).map fun (part, n) => { s with mode := .number part n }

def finish? (s : Scanner) : Option Scanner :=
  match s.mode with
  | .between => some s
  | .word letters => (word? letters.reverse).map s.emit
  | .number part n => if part.complete then some (s.emit (.number n)) else none
  | .string _ | .escape _ | .code .. => none

def feed? (s : Scanner) (c : Char) : Option Scanner :=
  match s.mode with
  | .between => s.begin? c
  | .word letters =>
    if isLetter c then some { s with mode := .word (c :: letters) }
    else s.finish? >>= (·.begin? c)
  | .number part n =>
    match extend? part n c with
    | some (part, n) => some { s with mode := .number part n }
    | none => s.finish? >>= (·.begin? c)
  | .string units =>
    if c = '"' then some (s.emit (.string units.reverse))
    else if c = '\\' then some { s with mode := .escape units }
    else if c.toNat < 0x20 then none
    else some { s with mode := .string (.char c :: units) }
  | .escape units =>
    if c = 'u' then some { s with mode := .code units 0 4 }
    else (escaped? c).map fun c => { s with mode := .string (.char c :: units) }
  | .code units value missing =>
    (hexDigit? c).map fun d =>
      let value := 16 * value + d
      if missing ≤ 1 then { s with mode := .string (.ofCode value :: units) }
      else { s with mode := .code units value (missing - 1) }

end Scanner

def tokens? (text : List Char) : Option (List Token) := do
  let s ← text.foldlM Scanner.feed? {}
  let s ← s.finish?
  return s.tokens.reverse

end TaskLoop.Json
