import TaskLoop.Text.Blank

namespace TaskLoop.Text

def addToPieces (sep : Char → Bool) (c : Char) (pieces : List (List Char)) : List (List Char) :=
  if sep c then [] :: pieces
  else match pieces with
    | [] => [[c]]
    | p :: ps => (c :: p) :: ps

/-- The pieces between separators. A separator at the very end closes the last piece and opens
none, so the empty text has no piece. -/
def split (sep : Char → Bool) (s : List Char) : List (List Char) :=
  s.foldr (addToPieces sep) []

/-- The lines of a text, without their newlines. A carriage return before a newline stays, as a
blank at the end of its line. -/
def lines (s : List Char) : List (List Char) := split (· == '\n') s

/-- The first line of a text. A carriage return directly before the newline ends the line with it;
any other belongs to the line. -/
def firstLine : List Char → List Char
  | [] => []
  | '\n' :: _ => []
  | '\r' :: '\n' :: _ => []
  | c :: rest => c :: firstLine rest

def words (s : List Char) : List (List Char) := (split isBlank s).filter (!·.isEmpty)

def trimStart (s : List Char) : List Char := s.dropWhile isBlank

def trimEnd (s : List Char) : List Char := (s.reverse.dropWhile isBlank).reverse

def trim (s : List Char) : List Char := trimEnd (trimStart s)

def isIdentifierStart (c : Char) : Bool := c.isAlpha || c == '_'

def isIdentifierRest (c : Char) : Bool := c.isAlphanum || c == '_'

def isIdentifier : List Char → Bool
  | [] => false
  | c :: cs => isIdentifierStart c && cs.all isIdentifierRest

@[simp] theorem split_nil (sep : Char → Bool) : split sep [] = [] := rfl

@[simp] theorem split_cons (sep : Char → Bool) (c : Char) (s : List Char) :
    split sep (c :: s) = addToPieces sep c (split sep s) := rfl

end TaskLoop.Text
