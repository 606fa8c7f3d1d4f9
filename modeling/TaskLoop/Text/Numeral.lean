
namespace TaskLoop.Text

def digitValue (c : Char) : Nat := c.toNat - '0'.toNat

def ofDigits? (s : List Char) : Option Nat :=
  if s ≠ [] ∧ s.all Char.isDigit then
    some (s.foldl (fun n c => 10 * n + digitValue c) 0)
  else none

/-- An unsigned numeral below `2 ^ width`; a single plus sign may stand in front. -/
def unsigned? (width : Nat) (s : List Char) : Option Nat :=
  let digits := match s with
    | '+' :: rest => rest
    | _ => s
  (ofDigits? digits).filter (· < 1 <<< width)

def signed? (width : Nat) (s : List Char) : Option Int :=
  match s with
  | '-' :: rest => ((ofDigits? rest).filter (· ≤ 1 <<< (width - 1))).map fun n => -(n : Int)
  | '+' :: rest => ((ofDigits? rest).filter (· < 1 <<< (width - 1))).map Int.ofNat
  | _ => ((ofDigits? s).filter (· < 1 <<< (width - 1))).map Int.ofNat

end TaskLoop.Text
