/-
Reading bytes as text.

`decode` reads UTF-8 and never fails: each byte that does not belong to a well
formed sequence becomes one replacement character.  Overlong forms, surrogates
and values above 10FFFF are not well formed.
-/

namespace ListCalc.Text

/-- A byte that continues a sequence. -/
def isContinuation (b : UInt8) : Bool :=
  0x80 ≤ b && b ≤ 0xBF

/-- The bits that a continuation byte adds. -/
def continuationBits (b : UInt8) : Nat :=
  b.toNat % 0x40

/-- The second bytes that may follow `a`: they exclude overlong forms, surrogates and
values above 10FFFF. -/
def secondByteFits (a b : UInt8) : Bool :=
  if a = 0xE0 then 0xA0 ≤ b && b ≤ 0xBF
  else if a = 0xED then 0x80 ≤ b && b ≤ 0x9F
  else if a = 0xF0 then 0x90 ≤ b && b ≤ 0xBF
  else if a = 0xF4 then 0x80 ≤ b && b ≤ 0x8F
  else isContinuation b

/-- The character at the front of the bytes and how many bytes follow its first one. -/
def firstChar? : List UInt8 → Option (Char × Nat)
  | [] => none
  | a :: rest =>
    if a < 0x80 then some (Char.ofNat a.toNat, 0)
    else if 0xC2 ≤ a && a ≤ 0xDF then
      match rest with
      | b :: _ =>
        if isContinuation b then
          some (Char.ofNat ((a.toNat - 0xC0) * 0x40 + continuationBits b), 1)
        else none
      | _ => none
    else if 0xE0 ≤ a && a ≤ 0xEF then
      match rest with
      | b :: c :: _ =>
        if secondByteFits a b && isContinuation c then
          some (Char.ofNat (((a.toNat - 0xE0) * 0x40 + continuationBits b) * 0x40
            + continuationBits c), 2)
        else none
      | _ => none
    else if 0xF0 ≤ a && a ≤ 0xF4 then
      match rest with
      | b :: c :: d :: _ =>
        if secondByteFits a b && isContinuation c && isContinuation d then
          some (Char.ofNat ((((a.toNat - 0xF0) * 0x40 + continuationBits b) * 0x40
            + continuationBits c) * 0x40 + continuationBits d), 3)
        else none
      | _ => none
    else none

/-- The characters of the bytes after the first `skip` of them, which belong to a character
already read. -/
def decodeFrom : Nat → List UInt8 → List Char
  | _, [] => []
  | skip + 1, _ :: rest => decodeFrom skip rest
  | 0, a :: rest =>
    match firstChar? (a :: rest) with
    | some (c, more) => c :: decodeFrom more rest
    | none => '\uFFFD' :: decodeFrom 0 rest

/-- The text of some bytes. -/
def decode (bytes : List UInt8) : String :=
  String.ofList (decodeFrom 0 bytes)

end ListCalc.Text
