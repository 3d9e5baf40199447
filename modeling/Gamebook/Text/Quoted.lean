import Gamebook.Text.Numeral
import Gamebook.Text.Printable

/-!
# Quoted text

Messages and listings show characters and texts between quotation marks. A character that would
not be seen, or that would be taken for a mark, is written with a backslash: `\0`, `\t`, `\r`,
`\n`, `\\`, the surrounding mark itself, and the code point in hexadecimal for all others.
-/

namespace Gamebook.Text

/-- A character as written between two `mark`s. -/
def escape (mark : Char) (c : Char) : String :=
  if c = '\x00' then "\\0"
  else if c = '\t' then "\\t"
  else if c = '\r' then "\\r"
  else if c = '\n' then "\\n"
  else if c = '\\' then "\\\\"
  else if c = mark then String.ofList ['\\', c]
  else if isCombining c || !isPrintable c then
    "\\u\x7b" ++ hexLower c.toNat ++ "\x7d"
  else c.toString

/-- A character between single marks. -/
def quoteChar (c : Char) : String := "'" ++ escape '\'' c ++ "'"

/-- A text between double marks. -/
def quote (s : String) : String :=
  "\"" ++ String.join (s.toList.map (escape '"')) ++ "\""

end Gamebook.Text
