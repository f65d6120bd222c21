import CompiledGrammar.Text.Span
import CompiledGrammar.Text.Utf8

/-!
# Input buffers

A `Buffer` is the text that a lexer scans.  It either shares its text with whoever supplied it or
owns it; tokens and trees hold spans only, so a buffer is also what renders them later
(`Buffer.slice?`).
-/

namespace CompiledGrammar

/-- Why an input could not be loaded. -/
inductive InputError where
  /-- The file cannot be read. -/
  | unreadable
  /-- The bytes are not UTF-8. -/
  | notUtf8 (cause : Utf8.DecodeError)
deriving DecidableEq, Repr

/-- The text of an input error. -/
def InputError.message : InputError → String
  | .unreadable => "Can't read input"
  | .notUtf8 cause => "Input is not valid UTF-8: " ++ cause.message

/-- The text a lexer scans. -/
structure Buffer where
  /-- The characters of the text. -/
  chars : List Char
  /-- Whether the text is shared with its supplier, and not owned by the buffer. -/
  isShared : Bool
deriving DecidableEq, Repr

namespace Buffer

/-- The buffer of a lexer that has no input: empty, and its own. -/
def empty : Buffer := ⟨[], false⟩

/-- A buffer sharing the text `s`. -/
def shared (s : String) : Buffer := ⟨s.toList, true⟩

/-- A buffer owning the text `s`. -/
def owned (s : String) : Buffer := ⟨s.toList, false⟩

/-- A buffer of bytes, which must be UTF-8. -/
def ofBytes (bytes : List UInt8) (isShared : Bool) : Except InputError Buffer :=
  match Utf8.decode bytes with
  | .ok chars => .ok ⟨chars, isShared⟩
  | .error cause => .error (.notUtf8 cause)

/-- A buffer owning the contents of a file; `none` is a file that cannot be read. -/
def ofFile : Option (List UInt8) → Except InputError Buffer
  | some contents => ofBytes contents false
  | none => .error .unreadable

variable (b : Buffer)

/-- The text as a string. -/
def text : String := String.ofList b.chars

/-- The length of the text in bytes. -/
def byteLength : Nat := Utf8.byteLength b.chars

/-- The text is empty. -/
def isEmpty : Bool := b.chars.isEmpty

/-- The same text, owned. -/
def toOwned : Buffer := { b with isShared := false }

/-- The text of a span, unless the span lies outside the buffer or cuts a character. -/
def slice? (s : Span) : Option String :=
  (Utf8.dropBytes? s.start b.chars).bind fun rest =>
    (Utf8.takeBytes? (s.stop - s.start) rest).map String.ofList

end Buffer

end CompiledGrammar
