import ChainLedger.Text.Unprintable

/-!
# Quoted text

A text in quotes as messages show it: quotes and backslashes are escaped, line
ends, tabs and the null character have letters, and other characters that do
not print by themselves are written as their number in hexadecimal digits.
-/

namespace ChainLedger

namespace Text

/-- A character by its number. -/
def numbered (c : Char) : List Char :=
  '\\' :: 'u' :: '\x7b' :: (Nat.toDigits 16 c.toNat ++ ['\x7d'])

/-- A character as it is shown in quotes. -/
def quotedChar (c : Char) : List Char :=
  if c = '\x00' then ['\\', '0']
  else if c = '\t' then ['\\', 't']
  else if c = '\r' then ['\\', 'r']
  else if c = '\n' then ['\\', 'n']
  else if c = '\\' then ['\\', '\\']
  else if c = '"' then ['\\', '"']
  else if isUnprintable c then numbered c
  else [c]

/-- A text in quotes. -/
def quoted (s : String) : String := String.ofList ('"' :: (s.toList.flatMap quotedChar ++ ['"']))

end Text

end ChainLedger
