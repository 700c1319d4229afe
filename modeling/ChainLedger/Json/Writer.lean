import ChainLedger.Json
import ChainLedger.Text.Decimal
import ChainLedger.Word

/-!
# Writing JSON

The compact text of a value, without any blank, and its indented text, two
blanks a level.  In strings only the quote, the backslash and the control
characters are escaped.
-/

namespace ChainLedger

namespace Json

/-- A character of a string as it is written. -/
def escape (c : Char) : List Char :=
  if c = '"' then ['\\', '"']
  else if c = '\\' then ['\\', '\\']
  else if c = '\n' then ['\\', 'n']
  else if c = '\r' then ['\\', 'r']
  else if c = '\t' then ['\\', 't']
  else if c = '\x08' then ['\\', 'b']
  else if c = '\x0c' then ['\\', 'f']
  else if c.toNat < 32 then '\\' :: 'u' :: Hex.digits 4 c.toNat
  else [c]

/-- A string in quotes; one that denotes no text is written as a replacement
character. -/
def quoted (s : Option String) : List Char :=
  '"' :: ((s.getD "\ufffd").toList.flatMap escape ++ ['"'])

/-- A value that is neither array nor object. -/
def scalarChars : Json → List Char
  | bool true => ['t', 'r', 'u', 'e']
  | bool false => ['f', 'a', 'l', 's', 'e']
  | int i => Decimal.ofInt i
  | real spelling => spelling.toList
  | str s => quoted s
  | null | arr _ | obj _ => ['n', 'u', 'l', 'l']

mutual

/-- The compact text of a value. -/
def compactChars : Json → List Char
  | arr items => '[' :: (compactItems items ++ [']'])
  | obj members => '{' :: (compactMembers members ++ ['}'])
  | null => scalarChars null
  | bool b => scalarChars (bool b)
  | int i => scalarChars (int i)
  | real spelling => scalarChars (real spelling)
  | str s => scalarChars (str s)

/-- The compact text of the items of an array. -/
def compactItems : List Json → List Char
  | [] => []
  | [j] => j.compactChars
  | j :: rest => j.compactChars ++ ',' :: compactItems rest

/-- The compact text of the members of an object. -/
def compactMembers : List (Option String × Json) → List Char
  | [] => []
  | [(name, j)] => quoted name ++ ':' :: j.compactChars
  | (name, j) :: rest => quoted name ++ ':' :: (j.compactChars ++ ',' :: compactMembers rest)

end

/-- The compact text of a value. -/
def compact (j : Json) : String := String.ofList j.compactChars

/-- A new line at a level. -/
def newLine (level : Nat) : List Char := '\n' :: List.replicate (2 * level) ' '

mutual

/-- The indented text of a value at a level. -/
def prettyChars (level : Nat) : Json → List Char
  | arr [] => ['[', ']']
  | arr (j :: rest) =>
    '[' :: (newLine (level + 1) ++ (j.prettyChars (level + 1) ++
      (prettyItems (level + 1) rest ++ (newLine level ++ [']']))))
  | obj [] => ['{', '}']
  | obj ((name, j) :: rest) =>
    '{' :: (newLine (level + 1) ++ (quoted name ++ ':' :: ' ' :: (j.prettyChars (level + 1) ++
      (prettyMembers (level + 1) rest ++ (newLine level ++ ['}'])))))
  | null => scalarChars null
  | bool b => scalarChars (bool b)
  | int i => scalarChars (int i)
  | real spelling => scalarChars (real spelling)
  | str s => scalarChars (str s)

/-- The indented text of the items after the first. -/
def prettyItems (level : Nat) : List Json → List Char
  | [] => []
  | j :: rest => ',' :: (newLine level ++ (j.prettyChars level ++ prettyItems level rest))

/-- The indented text of the members after the first. -/
def prettyMembers (level : Nat) : List (Option String × Json) → List Char
  | [] => []
  | (name, j) :: rest =>
    ',' :: (newLine level ++ (quoted name ++ ':' :: ' ' :: (j.prettyChars level ++
      prettyMembers level rest)))

end

/-- The indented text of a value. -/
def pretty (j : Json) : String := String.ofList (j.prettyChars 0)

end Json

end ChainLedger
