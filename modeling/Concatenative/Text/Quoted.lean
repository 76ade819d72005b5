import Concatenative.Text.Extender
import Concatenative.Text.Printable

/-! String literals in double quotes. The quote, the backslash and four control characters have
short escapes; any other character that would not show by itself is written by its code point. -/

namespace Concatenative.Text

/-- The code point in hexadecimal, between braces. -/
def codeEscape (c : Char) : String :=
  "\\u\x7b" ++ String.ofList (Nat.toDigits 16 c.toNat) ++ "\x7d"

/-- One character of a string literal. -/
def quotedChar (c : Char) : String :=
  match c with
  | '"' => "\\\""
  | '\\' => "\\\\"
  | '\n' => "\\n"
  | '\r' => "\\r"
  | '\t' => "\\t"
  | '\x00' => "\\0"
  | c => if isPrintable c && !isExtender c then c.toString else codeEscape c

/-- A text as a string literal. -/
def quoted (s : String) : String :=
  "\"" ++ String.join (s.toList.map quotedChar) ++ "\""

end Concatenative.Text
