import IndexedStore.Text.Printable

/-!
# Quoted texts

A text in double quotes, as names are shown in the description of an object: a string's `Debug`. Quotes,
backslashes, line ends and tabs are escaped by a letter, and characters that do not print by themselves by
their number.
-/

namespace IndexedStore

namespace Text

/-- One character as it stands between double quotes. -/
def escapeChar (c : Char) : List Char :=
  if c = '"' then ['\\', '"']
  else if c = '\\' then ['\\', '\\']
  else if c = '\n' then ['\\', 'n']
  else if c = '\r' then ['\\', 'r']
  else if c = '\t' then ['\\', 't']
  else if c = '\x00' then ['\\', '0']
  else if isPrintable c then [c]
  else ['\\', 'u', '\x7b'] ++ Nat.toDigits 16 c.toNat ++ ['\x7d']

/-- A text in double quotes. -/
def quoted (s : String) : String :=
  String.ofList ('"' :: s.toList.flatMap escapeChar ++ ['"'])

end Text

end IndexedStore
