import IncludeDeps.Text.Hidden

/-!
# Quoted text

A quoted text stands between double quotes and shows every character: the
quote and the backslash are written with a backslash before them, the usual
controls by their letter, and any other character that does not show by its
code point.
-/

namespace IncludeDeps.Text

/-- The written form of one character of a quoted text. -/
def escaped (c : Char) : List Char :=
  if c = '\x00' then ['\\', '0']
  else if c = '\t' then ['\\', 't']
  else if c = '\r' then ['\\', 'r']
  else if c = '\n' then ['\\', 'n']
  else if c = '\\' then ['\\', '\\']
  else if c = '"' then ['\\', '"']
  else if isHidden c then ['\\', 'u', '\x7b'] ++ Nat.toDigits 16 c.toNat ++ ['\x7d']
  else [c]

/-- The text between double quotes, with its escapes. -/
def quoted (text : String) : String :=
  String.ofList ('"' :: (text.toList.flatMap escaped ++ ['"']))

end IncludeDeps.Text
