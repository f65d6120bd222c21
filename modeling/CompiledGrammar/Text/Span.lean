/-!
# Spans and positions

A `Span` is a range of bytes of a text, a `Position` the line and column of one of its bytes.
-/

namespace CompiledGrammar

/-- The bytes from `start` up to, but not including, `stop`. -/
structure Span where
  /-- The offset of the first byte. -/
  start : Nat
  /-- The offset just after the last byte. -/
  stop : Nat
deriving DecidableEq, Repr

namespace Span

/-- The span between two offsets, if they are in order. -/
def ofBounds? (start stop : Nat) : Option Span :=
  if start ≤ stop then some ⟨start, stop⟩ else none

/-- The empty span at an offset, as the end of the input has. -/
def empty (offset : Nat) : Span := ⟨offset, offset⟩

/-- The span covers no byte. -/
def isEmpty (s : Span) : Bool := s.start == s.stop

end Span

/-- A line and a column, both counted from one.  Columns count bytes. -/
structure Position where
  /-- The line. -/
  line : Nat
  /-- The column. -/
  column : Nat
deriving DecidableEq, Repr

/-- The position of the first byte of a text. -/
def Position.first : Position := ⟨1, 1⟩

/-- The position after a byte: a line terminator starts a new line. -/
def Position.next (terminator : UInt8) (p : Position) (b : UInt8) : Position :=
  if b = terminator then ⟨p.line + 1, 1⟩ else ⟨p.line, p.column + 1⟩

/-- The position after the bytes of a character. -/
def Position.afterChar (terminator : UInt8) (p : Position) (c : Char) : Position :=
  (String.utf8EncodeChar c).foldl (Position.next terminator) p

end CompiledGrammar
