import LetLang.Text.Utf8

/-! # Program output

The bytes that a program has written.  A limit models a writer that runs full: it keeps
the bytes for which it has room and refuses the rest. -/

namespace LetLang

/-- What has been written, and what the writer can still take. -/
structure Output where
  written : ByteArray
  /-- How many bytes the writer takes, if there is a limit. -/
  limit : Option Nat
  /-- Whether the writer can be flushed. -/
  flushable : Bool

namespace Output

/-- A writer that takes everything. -/
def unlimited : Output := ⟨.empty, none, true⟩

instance : Inhabited Output := ⟨unlimited⟩

/-- The part of `bytes` for which there is room. -/
def accepted (o : Output) (bytes : ByteArray) : ByteArray :=
  match o.limit with
  | some n => bytes.extract 0 (n - o.written.size)
  | none => bytes

/-- Whether there is room for all of `bytes`. -/
def fits (o : Output) (bytes : ByteArray) : Bool :=
  match o.limit with
  | some n => bytes.size ≤ n - o.written.size
  | none => true

/-- Write what there is room for. -/
def write (o : Output) (bytes : ByteArray) : Output :=
  { o with written := o.written ++ o.accepted bytes }

/-- The same writer with everything taken away that was written. -/
def drained (o : Output) : Output := { o with written := .empty }

/-- What was written, as text. -/
def text (o : Output) : String := Utf8.decodeLossy o.written

end Output

end LetLang
