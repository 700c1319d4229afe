import ChainLedger.Toml.Lexeme

/-!
# Writing TOML strings

A string is written in the first of four styles that shows it well: in double
quotes without escapes, in single quotes, over several lines in double quotes
with at most two of them in a row, or over several lines in single quotes.  What
no style shows without escapes is written with them.
-/

namespace ChainLedger

namespace Toml

/-- The length of the longest run of a character, when the text comes after
`current` of them. -/
def longestRun (x : Char) : Nat → List Char → Nat
  | current, [] => current
  | current, c :: cs =>
    if c = x then longestRun x (current + 1) cs else max current (longestRun x 0 cs)

/-- The escape of a character other than a quote, if it needs one. -/
def escape? (c : Char) : Option (List Char) :=
  if c = '\x08' then some ['\\', 'b']
  else if c = '\t' then some ['\\', 't']
  else if c = '\x0c' then some ['\\', 'f']
  else if c = '\r' then some ['\\', 'r']
  else if c = '\\' then some ['\\', '\\']
  else if isText c || c = '\n' then none
  else some ('\\' :: 'u' :: ((Hex.digits 4 c.toNat).map Char.toUpper))

/-- The inside of a string in double quotes on one line. -/
def writeBasic : List Char → List Char
  | [] => []
  | c :: cs =>
    (if c = '"' then ['\\', '"']
      else if c = '\n' then ['\\', 'n']
      else (escape? c).getD [c]) ++ writeBasic cs

/-- The inside of a string in double quotes over several lines, after a number of
quotes in a row.  Every third one is escaped. -/
def writeBasicLines (quotes : Nat) : List Char → List Char
  | [] => []
  | c :: cs =>
    if c = '"' then
      if quotes < 2 then '"' :: writeBasicLines (quotes + 1) cs
      else '\\' :: '"' :: writeBasicLines 0 cs
    else (escape? c).getD [c] ++ writeBasicLines 0 cs

/-- The string of some characters in the style that shows it well. -/
def writeChars (cs : List Char) : List Char :=
  let plain := cs.all fun c => isText c || c = '\n'
  let lines := cs.contains '\n'
  let start := if lines then ['\n'] else []
  let backslash := cs.contains '\\'
  let basicLines := '"' :: '"' :: '"' :: (start ++ (writeBasicLines 0 cs ++ ['"', '"', '"']))
  let basic := '"' :: (writeBasic cs ++ ['"'])
  if plain ∧ ¬ backslash ∧ ¬ cs.contains '"' ∧ ¬ lines then basic
  else if plain ∧ ¬ cs.contains '\'' ∧ ¬ lines then '\'' :: (cs ++ ['\''])
  else if plain ∧ ¬ backslash ∧ longestRun '"' 0 cs ≤ 2 then basicLines
  else if plain ∧ longestRun '\'' 0 cs ≤ 2 then
    '\'' :: '\'' :: '\'' :: (start ++ (cs ++ ['\'', '\'', '\'']))
  else if lines then basicLines
  else basic

/-- The string of a text. -/
def write (s : String) : String := String.ofList (writeChars s.toList)

/-- One line with a key and its value. -/
def line (key value : String) : String := key ++ " = " ++ value ++ "\n"

end Toml

end ChainLedger
