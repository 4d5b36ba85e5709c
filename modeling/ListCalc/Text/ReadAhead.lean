/-
Lines as they are typed.

Input is read through a buffer of fixed size.  A line that does not fit into it
with its line feed comes in portions, each of which counts as a line.  A portion
fills the buffer, except that a carriage return at its very end is left to the
portion behind it, where its line feed may stand.

* `portions` — the portions of the bytes of one line;
* `typedLines` — the lines of a whole input without their ends.
-/
import ListCalc.Text.Lines
import ListCalc.Text.Utf8

namespace ListCalc.Text

/-- How many bytes the buffer holds. -/
def bufferSize : Nat := 4096

/-- The bytes of a line are read at once. -/
def fitsBuffer (bytes : List UInt8) : Bool :=
  bytes.length < bufferSize
    || (bytes.length == bufferSize && bytes.getLast? == some '\n'.val.toUInt8)

/-- How many bytes of a line that does not fit are read at once. -/
def portionSize (bytes : List UInt8) : Nat :=
  if (bytes.take bufferSize).getLast? = some '\r'.val.toUInt8 then bufferSize - 1 else bufferSize

theorem portionSize_pos (bytes : List UInt8) : 0 < portionSize bytes := by
  unfold portionSize bufferSize
  split <;> omega

/-- The portions in which the bytes of a line come. -/
def portions (bytes : List UInt8) : List (List UInt8) :=
  if _h : bytes = [] then []
  else if fitsBuffer bytes then [bytes]
  else bytes.take (portionSize bytes) :: portions (bytes.drop (portionSize bytes))
termination_by bytes.length
decreasing_by
  have := portionSize_pos bytes
  have := List.length_pos_iff.mpr _h
  simp only [List.length_drop]
  omega

/-- The lines of an input without their ends. -/
def typedLines (input : String) : List String :=
  (linesWithEnds input).flatMap fun line =>
    (portions line.toUTF8.toList).map fun portion =>
      String.ofList (withoutEnd (decodeFrom 0 portion))

end ListCalc.Text
