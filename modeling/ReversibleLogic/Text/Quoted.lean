import ReversibleLogic.Text.Escaped

/-!
# Quoted text

`quote s` puts a string between double quotes so that every character of the result can be seen: quotes and
backslashes are written with a backslash, the usual control characters by a letter, and the characters of `isEscaped`
by their number in hexadecimal.
-/

namespace ReversibleLogic.Text

/-- one character inside quotes. -/
def quoteChar (c : Char) : String :=
  if c = '\x00' then "\\0"
  else if c = '\t' then "\\t"
  else if c = '\r' then "\\r"
  else if c = '\n' then "\\n"
  else if c = '\\' then "\\\\"
  else if c = '"' then "\\\""
  else if isEscaped c.toNat then "\\u\x7b" ++ String.ofList (Nat.toDigits 16 c.toNat) ++ "\x7d"
  else c.toString

/-- `s` between double quotes. -/
def quote (s : String) : String := "\"" ++ String.join (s.toList.map quoteChar) ++ "\""

end ReversibleLogic.Text
