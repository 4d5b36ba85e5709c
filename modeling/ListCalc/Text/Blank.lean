/-
Blank characters.

`isBlank` is the White_Space property of Unicode: the space, the controls from
tab to carriage return, next line, the no-break space and the seventeen wider
separators.  `allBlank` holds of a text made of them.
-/

namespace ListCalc.Text

/-- A character that separates words without being part of one. -/
def isBlank (c : Char) : Bool :=
  let n := c.toNat
  (0x09 ≤ n && n ≤ 0x0D) || n == 0x20 || n == 0x85 || n == 0xA0 || n == 0x1680
    || (0x2000 ≤ n && n ≤ 0x200A) || n == 0x2028 || n == 0x2029 || n == 0x202F
    || n == 0x205F || n == 0x3000

/-- No character of the text is anything but blank. -/
def allBlank (s : String) : Bool :=
  s.toList.all isBlank

end ListCalc.Text
