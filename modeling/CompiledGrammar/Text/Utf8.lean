/-!
# UTF-8

Input arrives as bytes and is scanned as characters, while positions in it are byte offsets.
This module relates the two.

* `Utf8.decode` reads bytes as characters, or says where and why they are not UTF-8
  (`Utf8.DecodeError`).  It accepts exactly the shortest forms of the scalar values: overlong
  forms, surrogates and values above `U+10FFFF` are refused at the earliest byte.
* `Utf8.byteLength` measures a list of characters in bytes.
* `Utf8.dropBytes?` and `Utf8.takeBytes?` cut a list of characters at a byte offset, and fail
  where the offset is outside the text or inside a character.
-/

namespace CompiledGrammar

namespace Utf8

/-- Why a sequence of bytes is not UTF-8. -/
structure DecodeError where
  /-- The number of bytes before the first character that cannot be decoded. -/
  validUpTo : Nat
  /-- The number of bytes of the malformed sequence, or none if the bytes end inside a character
  that is well formed as far as it goes. -/
  badLength : Option Nat
deriving DecidableEq, Repr

/-- The text of a decoding error. -/
def DecodeError.message (e : DecodeError) : String :=
  match e.badLength with
  | some n => s!"invalid utf-8 sequence of {n} bytes from index {e.validUpTo}"
  | none => s!"incomplete utf-8 byte sequence from index {e.validUpTo}"

/-- A character of which some bytes have been read and at least one is still owed. -/
structure Pending where
  /-- How many bytes have been read. -/
  taken : Nat
  /-- How many bytes are owed after the next one. -/
  owed : Nat
  /-- The least value the next byte may have. -/
  low : UInt8
  /-- The greatest value the next byte may have. -/
  high : UInt8
  /-- The bits of the character read so far. -/
  bits : Nat
deriving DecidableEq, Repr

/-- What the first byte of a character announces: the whole character, or what must follow. -/
inductive Lead where
  /-- A character of one byte. -/
  | single
  /-- The first byte of a longer character. -/
  | multi (pending : Pending)
  /-- A byte no character starts with. -/
  | invalid
deriving DecidableEq, Repr

/-- The classes of first bytes.  The bounds on the second byte are what rules out overlong
forms, surrogates and values above `U+10FFFF`. -/
def Lead.ofByte (b : UInt8) : Lead :=
  if b < 0x80 then .single
  else if b < 0xC2 then .invalid
  else if b < 0xE0 then .multi ⟨1, 0, 0x80, 0xBF, b.toNat % 0x20⟩
  else if b < 0xF0 then
    .multi ⟨1, 1, if b = 0xE0 then 0xA0 else 0x80, if b = 0xED then 0x9F else 0xBF,
      b.toNat % 0x10⟩
  else if b < 0xF5 then
    .multi ⟨1, 2, if b = 0xF0 then 0x90 else 0x80, if b = 0xF4 then 0x8F else 0xBF,
      b.toNat % 0x08⟩
  else .invalid

/-- Decode the bytes that follow `start` bytes of complete characters and those of `pending`. -/
def decodeFrom (start : Nat) (pending : Option Pending) :
    List UInt8 → Except DecodeError (List Char)
  | [] => if pending.isSome then .error ⟨start, none⟩ else .ok []
  | b :: bytes =>
    match pending with
    | none =>
      match Lead.ofByte b with
      | .single => (decodeFrom (start + 1) none bytes).map (Char.ofNat b.toNat :: ·)
      | .multi p => decodeFrom start (some p) bytes
      | .invalid => .error ⟨start, some 1⟩
    | some p =>
      if p.low ≤ b ∧ b ≤ p.high then
        let bits := p.bits * 0x40 + b.toNat % 0x40
        match p.owed with
        | 0 => (decodeFrom (start + p.taken + 1) none bytes).map (Char.ofNat bits :: ·)
        | owed + 1 => decodeFrom start (some ⟨p.taken + 1, owed, 0x80, 0xBF, bits⟩) bytes
      else .error ⟨start, some p.taken⟩

/-- The characters that `bytes` encodes. -/
def decode (bytes : List UInt8) : Except DecodeError (List Char) :=
  decodeFrom 0 none bytes

/-! ### Byte offsets -/

/-- The number of bytes that encode `cs`. -/
def byteLength (cs : List Char) : Nat :=
  cs.foldr (fun c n => c.utf8Size + n) 0

@[simp] theorem byteLength_nil : byteLength [] = 0 := rfl

@[simp] theorem byteLength_cons (c : Char) (cs : List Char) :
    byteLength (c :: cs) = c.utf8Size + byteLength cs := rfl

@[simp] theorem byteLength_append (cs ds : List Char) :
    byteLength (cs ++ ds) = byteLength cs + byteLength ds := by
  induction cs with
  | nil => simp
  | cons c cs ih => simp [ih, Nat.add_assoc]

/-- What is left of a text after its first `n` bytes, if those are whole characters of it. -/
def dropBytes? : Nat → List Char → Option (List Char)
  | 0, cs => some cs
  | _ + 1, [] => none
  | n + 1, c :: cs => if c.utf8Size ≤ n + 1 then dropBytes? (n + 1 - c.utf8Size) cs else none

/-- The first `n` bytes of a text, if those are whole characters of it. -/
def takeBytes? : Nat → List Char → Option (List Char)
  | 0, _ => some []
  | _ + 1, [] => none
  | n + 1, c :: cs =>
    if c.utf8Size ≤ n + 1 then (takeBytes? (n + 1 - c.utf8Size) cs).map (c :: ·) else none

end Utf8

end CompiledGrammar
