/-! # Reading bytes as text

Program output is a sequence of bytes, and a writer that takes only so many of them may
cut a character in two.  `decodeLossy` reads such bytes as UTF-8: every character that
is there in full is kept, and every longest piece that starts a character but does not
finish one, like every byte that starts none, becomes U+FFFD. -/

namespace LetLang.Utf8

/-- A character of which the first bytes have been read. -/
structure Pending where
  /-- The bits read so far. -/
  bits : Nat
  /-- How many bytes are still missing. -/
  missing : Nat
  /-- The least value that the next byte may have. -/
  low : Nat
  /-- The greatest value that the next byte may have. -/
  high : Nat
deriving DecidableEq, Repr

/-- What a leading byte of a longer character announces.  The bounds on the second byte
    leave out overlong forms, surrogates and codes past the last character. -/
def announce (b : Nat) : Option Pending :=
  if 0xC2 ≤ b ∧ b ≤ 0xDF then some ⟨b - 0xC0, 1, 0x80, 0xBF⟩
  else if b = 0xE0 then some ⟨0, 2, 0xA0, 0xBF⟩
  else if b = 0xED then some ⟨0xD, 2, 0x80, 0x9F⟩
  else if 0xE1 ≤ b ∧ b ≤ 0xEF then some ⟨b - 0xE0, 2, 0x80, 0xBF⟩
  else if b = 0xF0 then some ⟨0, 3, 0x90, 0xBF⟩
  else if 0xF1 ≤ b ∧ b ≤ 0xF3 then some ⟨b - 0xF0, 3, 0x80, 0xBF⟩
  else if b = 0xF4 then some ⟨4, 3, 0x80, 0x8F⟩
  else none

/-- The character that stands for bytes that are not UTF-8. -/
def replacement : Char := '\ufffd'

/-- Read a byte between two characters: the text read so far, in reverse order, and the
    character that the byte begins. -/
def start (done : List Char) (b : Nat) : List Char × Option Pending :=
  if b < 0x80 then (Char.ofNat b :: done, none)
  else
    match announce b with
    | some p => (done, some p)
    | none => (replacement :: done, none)

/-- Read a byte inside a character. -/
def resume (done : List Char) (p : Pending) (b : Nat) : List Char × Option Pending :=
  if p.low ≤ b ∧ b ≤ p.high then
    let bits := p.bits * 64 + (b - 0x80)
    if p.missing ≤ 1 then (Char.ofNat bits :: done, none)
    else (done, some ⟨bits, p.missing - 1, 0x80, 0xBF⟩)
  else start (replacement :: done) b

/-- Read all bytes, after the text `done` in reverse order. -/
def read : List Char × Option Pending → List UInt8 → List Char
  | (done, none), [] => done.reverse
  | (done, some _), [] => (replacement :: done).reverse
  | (done, none), b :: rest => read (start done b.toNat) rest
  | (done, some p), b :: rest => read (resume done p b.toNat) rest

/-- The text of a sequence of bytes, with U+FFFD where it is not UTF-8. -/
def decodeLossy (bytes : ByteArray) : String := String.ofList (read ([], none) bytes.data.toList)

end LetLang.Utf8
