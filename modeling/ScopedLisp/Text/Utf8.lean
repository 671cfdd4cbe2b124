/-!
# UTF-8

Reading bytes as text. A character is a lead byte and up to three continuation bytes; the first of
them is held to a narrower interval after some lead bytes, which leaves out overlong forms,
surrogates and values beyond the last code point.

* `Utf8.decode`: the text of a byte sequence, or the first fault in it;
* `Utf8.Fault.message`: the wording of a fault.
-/

namespace ScopedLisp.Text.Utf8

/-- What can be wrong with a byte sequence. -/
inductive Reason where
  | badLead
  | badContinuation
  | truncated
deriving DecidableEq, Repr

/-- The bytes from `start` up to `stop`, the first of which is `byte`, are not a character. -/
structure Fault where
  start : Nat
  stop : Nat
  byte : UInt8
  reason : Reason
deriving DecidableEq, Repr

/-- A character of which some bytes have been read. -/
structure Unfinished where
  /-- The position of its lead byte. -/
  start : Nat
  /-- Its lead byte. -/
  lead : UInt8
  /-- How many bytes are missing after the next one. -/
  more : Nat
  /-- The least next byte. -/
  least : Nat
  /-- The greatest next byte. -/
  greatest : Nat
  /-- The bits read so far. -/
  bits : Nat

/-- What a byte starts: a character of its own, a longer one, or nothing. -/
def Unfinished.ofLead? (start : Nat) (b : UInt8) : Option Unfinished :=
  let n := b.toNat
  if n < 0xc2 then none
  else if n < 0xe0 then some ⟨start, b, 0, 0x80, 0xbf, n % 0x20⟩
  else if n == 0xe0 then some ⟨start, b, 1, 0xa0, 0xbf, 0⟩
  else if n == 0xed then some ⟨start, b, 1, 0x80, 0x9f, 0xd⟩
  else if n < 0xf0 then some ⟨start, b, 1, 0x80, 0xbf, n % 0x10⟩
  else if n == 0xf0 then some ⟨start, b, 2, 0x90, 0xbf, 0⟩
  else if n < 0xf4 then some ⟨start, b, 2, 0x80, 0xbf, n % 0x8⟩
  else if n == 0xf4 then some ⟨start, b, 2, 0x80, 0x8f, 4⟩
  else none

/-- Reads on at position `pos`, after the characters of `done`, the last first, and the bytes of a
character that `pending` holds. -/
def decodeFrom (pos : Nat) (done : List Char) (pending : Option Unfinished) :
    List UInt8 → Except Fault (List Char)
  | [] =>
    match pending with
    | none => .ok done.reverse
    | some p => .error ⟨p.start, pos, p.lead, .truncated⟩
  | b :: bs =>
    match pending with
    | none =>
      if b.toNat < 0x80 then decodeFrom (pos + 1) (Char.ofNat b.toNat :: done) none bs
      else match Unfinished.ofLead? pos b with
        | some p => decodeFrom (pos + 1) done (some p) bs
        | none => .error ⟨pos, pos + 1, b, .badLead⟩
    | some p =>
      if p.least ≤ b.toNat ∧ b.toNat ≤ p.greatest then
        let bits := p.bits * 0x40 + b.toNat % 0x40
        match p.more with
        | 0 => decodeFrom (pos + 1) (Char.ofNat bits :: done) none bs
        | more + 1 =>
          decodeFrom (pos + 1) done (some ⟨p.start, p.lead, more, 0x80, 0xbf, bits⟩) bs
      else .error ⟨p.start, pos, p.lead, .badContinuation⟩

/-- The text that the bytes stand for. -/
def decode (bytes : List UInt8) : Except Fault String :=
  (decodeFrom 0 [] none bytes).map String.ofList

/-- The wording of a reason. -/
def Reason.message : Reason → String
  | .badLead => "invalid start byte"
  | .badContinuation => "invalid continuation byte"
  | .truncated => "unexpected end of data"

/-- A byte as two hexadecimal digits. -/
def hexByte (b : UInt8) : String :=
  String.ofList [Nat.digitChar (b.toNat / 16), Nat.digitChar (b.toNat % 16)]

/-- The wording of a fault: a single byte is shown, several are given by position. -/
def Fault.message (f : Fault) : String :=
  let place :=
    if f.stop == f.start + 1 then "byte 0x" ++ hexByte f.byte ++ " in position " ++ toString f.start
    else "bytes in position " ++ toString f.start ++ "-" ++ toString (f.stop - 1)
  "'utf-8' codec can't decode " ++ place ++ ": " ++ f.reason.message

end ScopedLisp.Text.Utf8
