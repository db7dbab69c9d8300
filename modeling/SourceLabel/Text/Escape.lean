import SourceLabel.Text.Numeral
import SourceLabel.Text.Printable

/-!
# Quoted text in messages

A name that is refused is shown with its invisible characters written out, so that the message holds no
control characters. Quotes and backslashes are marked with a backslash.
-/
namespace SourceLabel.Text

/-- A character by its number, as `\u` and hexadecimal digits in braces. -/
def numbered (c : Char) : String :=
  "\\u\x7b" ++ hexDigits c.toNat ++ "\x7d"

/-- One character of a quoted text. A character that would be drawn onto the opening quote is written
out only where the text begins. -/
def escapeChar (atStart : Bool) (c : Char) : String :=
  if c = '\x00' then "\\0"
  else if c = '\t' then "\\t"
  else if c = '\r' then "\\r"
  else if c = '\n' then "\\n"
  else if c = '\\' then "\\\\"
  else if c = '\'' then "\\'"
  else if c = '"' then "\\\""
  else if atStart && isExtender c then numbered c
  else if isPrintable c then c.toString
  else numbered c

def escape (s : String) : String :=
  match s.toList with
  | [] => ""
  | c :: rest => escapeChar true c ++ String.join (rest.map (escapeChar false))

/-- A path between double quotes. Single quotes need no mark there, and every other character is written
as at the start of a text. -/
def quotePath (s : String) : String :=
  let escapeInPath (c : Char) : String := if c = '\'' then "'" else escapeChar true c
  "\"" ++ String.join (s.toList.map escapeInPath) ++ "\""

end SourceLabel.Text
