import TaskLoop.Json.Token

namespace TaskLoop.Json

inductive Value where
  | null
  | bool (b : Bool)
  | number (n : Number)
  | string (units : List StringUnit)
  | array (items : List Value)
  | object (fields : List (List StringUnit × Value))
deriving Repr

def text? : List StringUnit → Option (List Char)
  | [] => some []
  | .char c :: rest => (text? rest).map (c :: ·)
  | .surrogate high :: .surrogate low :: rest =>
    if high < 0xdc00 ∧ 0xdc00 ≤ low then
      (text? rest).map (Char.ofNat (0x10000 + (high - 0xd800) * 0x400 + (low - 0xdc00)) :: ·)
    else none
  | .surrogate _ :: _ => none

/-- A container around the value being read. The items and fields read last are in front. -/
inductive Container where
  | array (items : List Value)
  | object (fields : List (List StringUnit × Value)) (key : List StringUnit)

inductive Expected where
  | value
  | firstItem
  | afterItem (items : List Value)
  | firstKey
  | key (fields : List (List StringUnit × Value))
  | colon (fields : List (List StringUnit × Value)) (key : List StringUnit)
  | afterField (fields : List (List StringUnit × Value))
  | nothing (value : Value)

structure Reader where
  containers : List Container := []
  expected : Expected := .value

namespace Reader

def complete (containers : List Container) (v : Value) : Reader :=
  match containers with
  | [] => ⟨[], .nothing v⟩
  | .array items :: rest => ⟨rest, .afterItem (v :: items)⟩
  | .object fields key :: rest => ⟨rest, .afterField ((key, v) :: fields)⟩

def begin? (containers : List Container) : Token → Option Reader
  | .null => some (complete containers .null)
  | .bool b => some (complete containers (.bool b))
  | .number n => some (complete containers (.number n))
  | .string units => some (complete containers (.string units))
  | .leftBracket => some ⟨containers, .firstItem⟩
  | .leftBrace => some ⟨containers, .firstKey⟩
  | _ => none

def feed? (r : Reader) (t : Token) : Option Reader :=
  match r.expected, t with
  | .value, t => begin? r.containers t
  | .firstItem, .rightBracket => some (complete r.containers (.array []))
  | .firstItem, t => begin? (.array [] :: r.containers) t
  | .afterItem items, .comma => some ⟨.array items :: r.containers, .value⟩
  | .afterItem items, .rightBracket => some (complete r.containers (.array items.reverse))
  | .firstKey, .rightBrace => some (complete r.containers (.object []))
  | .firstKey, .string key => some { r with expected := .colon [] key }
  | .key fields, .string key => some { r with expected := .colon fields key }
  | .colon fields key, .colon => some ⟨.object fields key :: r.containers, .value⟩
  | .afterField fields, .comma => some { r with expected := .key fields }
  | .afterField fields, .rightBrace => some (complete r.containers (.object fields.reverse))
  | _, _ => none

end Reader

def ofTokens? (ts : List Token) : Option Value := do
  let r ← ts.foldlM Reader.feed? {}
  match r.expected with
  | .nothing v => some v
  | _ => none

def parse? (text : List Char) : Option Value := tokens? text >>= ofTokens?

end TaskLoop.Json
