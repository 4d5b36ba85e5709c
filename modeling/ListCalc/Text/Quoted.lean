/-
Quoted text.

Error messages show pieces of source between double quotes.  `quote` keeps
every printable character, writes the quote and the backslash behind a
backslash, uses the one-letter escapes for the seven named controls, and writes
the remaining characters as `\x`, `\u` or `\U` with two, four or eight
lower-case hexadecimal digits.
-/
import ListCalc.Text.Printable

namespace ListCalc.Text

/-- The lower-case hexadecimal digits of `n`, with zeros in front up to `width`. -/
def hexPadded (width n : Nat) : String :=
  let digits := Nat.toDigits 16 n
  String.ofList (List.replicate (width - digits.length) '0' ++ digits)

/-- How one character is written between the quotes. -/
def escape (c : Char) : String :=
  if c = '"' then "\\\""
  else if c = '\\' then "\\\\"
  else if isPrintable c then c.toString
  else match c.toNat with
    | 7 => "\\a"
    | 8 => "\\b"
    | 9 => "\\t"
    | 10 => "\\n"
    | 11 => "\\v"
    | 12 => "\\f"
    | 13 => "\\r"
    | n =>
      if n < 0x20 || n == 0x7F then "\\x" ++ hexPadded 2 n
      else if n < 0x10000 then "\\u" ++ hexPadded 4 n
      else "\\U" ++ hexPadded 8 n

/-- The text between double quotes, on one line and free of invisible characters. -/
def quote (s : String) : String :=
  "\"" ++ String.join (s.toList.map escape) ++ "\""

end ListCalc.Text
