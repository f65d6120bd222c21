import CompiledGrammar.Table.Error
import CompiledGrammar.Text.Utf16

/-!
# Records

A table is a header followed by records, and a record is a list of tagged values.  Words are
little-endian, strings are UTF-16 ended by a zero word, and a record is the byte `M`, a word that
counts its values, and the values.

* `encodeRecord` writes a record and `encodeString` a string, such as the header.
* `readRecord` reads one record at a `ByteCursor`.
* `readRecords` reads all of them, up to the end of the bytes or the first error.
-/

namespace CompiledGrammar

/-- One tagged value of a record. -/
inductive Value where
  /-- No value. -/
  | empty
  /-- A byte. -/
  | byte (b : UInt8)
  /-- A truth value. -/
  | bool (b : Bool)
  /-- A signed word. -/
  | int (n : Int16)
  /-- A string. -/
  | str (s : String)
deriving DecidableEq, Repr

/-- The values of one record. -/
abbrev Record := List Value

/-! ### Writing -/

/-- The two bytes of a word, low byte first. -/
def wordBytes (w : UInt16) : List UInt8 :=
  [UInt8.ofNat (w.toNat % 0x100), UInt8.ofNat (w.toNat / 0x100)]

/-- The bytes of a string, with the zero word that ends it. -/
def encodeString (s : String) : List UInt8 :=
  (Utf16.encode s.toList).flatMap wordBytes ++ wordBytes 0

/-- The byte that starts a record. -/
def recordTag : UInt8 := 'M'.toUInt8

/-- The byte that starts each type of value. -/
def Value.tag : Value → UInt8
  | .empty => 'E'.toUInt8
  | .byte _ => 'b'.toUInt8
  | .bool _ => 'B'.toUInt8
  | .int _ => 'I'.toUInt8
  | .str _ => 'S'.toUInt8

/-- The bytes of a value, after its tag. -/
def Value.payload : Value → List UInt8
  | .empty => []
  | .byte b => [b]
  | .bool b => [if b then 1 else 0]
  | .int n => wordBytes n.toUInt16
  | .str s => encodeString s

/-- The bytes of a value. -/
def Value.encode (v : Value) : List UInt8 :=
  v.tag :: v.payload

/-- The bytes of a record.  The count has room for 65535 values. -/
def encodeRecord (r : Record) : List UInt8 :=
  recordTag :: (wordBytes (UInt16.ofNat r.length) ++ r.flatMap Value.encode)

/-! ### Reading -/

/-- A place in a sequence of bytes. -/
structure ByteCursor where
  /-- How many bytes come before this place. -/
  offset : Nat
  /-- The bytes from this place on. -/
  rest : List UInt8
deriving DecidableEq, Repr

/-- The error of finding the bytes at an end. -/
def ByteCursor.truncated (c : ByteCursor) : TableError :=
  ⟨.truncated, some c.offset⟩

/-- Read a byte. -/
def readByte (c : ByteCursor) : Except TableError (UInt8 × ByteCursor) :=
  match c.rest with
  | b :: rest => .ok (b, ⟨c.offset + 1, rest⟩)
  | [] => .error c.truncated

/-- Read a word, which is never split. -/
def readWord (c : ByteCursor) : Except TableError (UInt16 × ByteCursor) :=
  match c.rest with
  | low :: high :: rest =>
    .ok (UInt16.ofNat (low.toNat + 0x100 * high.toNat), ⟨c.offset + 2, rest⟩)
  | _ => .error c.truncated

/-- Read words up to a zero word, which is consumed too. -/
def readUnits (offset : Nat) : List UInt8 → Except TableError (List UInt16 × ByteCursor)
  | low :: high :: rest =>
    let unit := UInt16.ofNat (low.toNat + 0x100 * high.toNat)
    if unit = 0 then .ok ([], ⟨offset + 2, rest⟩)
    else (readUnits (offset + 2) rest).map fun (units, c) => (unit :: units, c)
  | rest => .error (ByteCursor.truncated ⟨offset, rest⟩)

/-- Read a string. -/
def readString (c : ByteCursor) : Except TableError (String × ByteCursor) :=
  (readUnits c.offset c.rest).map fun (units, c) => (String.ofList (Utf16.decode units), c)

/-- Read a value. -/
def readValue (c : ByteCursor) : Except TableError (Value × ByteCursor) := do
  let (tag, body) ← readByte c
  if tag = 'E'.toUInt8 then
    return (.empty, body)
  else if tag = 'b'.toUInt8 then
    let (b, next) ← readByte body
    return (.byte b, next)
  else if tag = 'B'.toUInt8 then
    let (b, next) ← readByte body
    return (.bool (b == 1), next)
  else if tag = 'I'.toUInt8 then
    let (w, next) ← readWord body
    return (.int w.toInt16, next)
  else if tag = 'S'.toUInt8 then
    let (s, next) ← readString body
    return (.str s, next)
  else
    throw ⟨.unknownValueTag tag, some c.offset⟩

/-- Read `n` values. -/
def readValues : Nat → ByteCursor → Except TableError (Record × ByteCursor)
  | 0, c => .ok ([], c)
  | n + 1, c => do
    let (v, c) ← readValue c
    let (vs, c) ← readValues n c
    return (v :: vs, c)

/-- Read a record. -/
def readRecord (c : ByteCursor) : Except TableError (Record × ByteCursor) := do
  let (tag, body) ← readByte c
  if tag = recordTag then
    let (count, values) ← readWord body
    readValues count.toNat values
  else
    throw ⟨.unknownRecordTag tag, some c.offset⟩

/-! ### Reading makes progress -/

theorem length_of_readByte {c d : ByteCursor} {b : UInt8} (h : readByte c = .ok (b, d)) :
    d.rest.length + 1 = c.rest.length := by
  unfold readByte at h
  split at h
  · rename_i hrest
    cases h
    simp [hrest]
  · cases h

theorem length_of_readWord {c d : ByteCursor} {w : UInt16} (h : readWord c = .ok (w, d)) :
    d.rest.length + 2 = c.rest.length := by
  unfold readWord at h
  split at h
  · rename_i hrest
    cases h
    simp [hrest]
  · cases h

theorem length_of_readUnits : ∀ {bytes : List UInt8} {offset : Nat} {units : List UInt16}
    {d : ByteCursor}, readUnits offset bytes = .ok (units, d) → d.rest.length < bytes.length
  | [], _, _, _, h => by cases h
  | [_], _, _, _, h => by cases h
  | low :: high :: rest, offset, units, d, h => by
    simp only [readUnits] at h
    split at h
    · cases h; simp only [List.length_cons]; omega
    · cases hr : readUnits (offset + 2) rest with
      | error e => simp [hr, Except.map] at h
      | ok r =>
        simp only [hr, Except.map, Except.ok.injEq, Prod.mk.injEq] at h
        have := length_of_readUnits hr
        rw [← h.2]
        simp only [List.length_cons]
        omega

theorem length_of_readString {c d : ByteCursor} {s : String} (h : readString c = .ok (s, d)) :
    d.rest.length < c.rest.length := by
  unfold readString at h
  cases hr : readUnits c.offset c.rest with
  | error e => simp [hr, Except.map] at h
  | ok r =>
    obtain ⟨us, e⟩ := r
    simp only [hr, Except.map, Except.ok.injEq, Prod.mk.injEq] at h
    obtain ⟨-, rfl⟩ := h
    exact length_of_readUnits hr

theorem length_of_readValue {c d : ByteCursor} {v : Value} (h : readValue c = .ok (v, d)) :
    d.rest.length < c.rest.length := by
  simp only [readValue, bind, Except.bind, pure, Except.pure, throw, throwThe,
    MonadExceptOf.throw] at h
  cases hb : readByte c with
  | error e => simp [hb] at h
  | ok r =>
    obtain ⟨tag, body⟩ := r
    have hlen := length_of_readByte hb
    simp only [hb] at h
    split at h
    · cases h; omega
    split at h
    · cases h2 : readByte body with
      | error e => simp [h2] at h
      | ok r2 => simp only [h2] at h; cases h; have := length_of_readByte h2; omega
    split at h
    · cases h2 : readByte body with
      | error e => simp [h2] at h
      | ok r2 => simp only [h2] at h; cases h; have := length_of_readByte h2; omega
    split at h
    · cases h2 : readWord body with
      | error e => simp [h2] at h
      | ok r2 => simp only [h2] at h; cases h; have := length_of_readWord h2; omega
    split at h
    · cases h2 : readString body with
      | error e => simp [h2] at h
      | ok r2 => simp only [h2] at h; cases h; have := length_of_readString h2; omega
    · cases h

theorem length_of_readValues {n : Nat} {c d : ByteCursor} {r : Record}
    (h : readValues n c = .ok (r, d)) : d.rest.length ≤ c.rest.length := by
  induction n generalizing c d r with
  | zero => cases h; exact Nat.le_refl _
  | succ n ih =>
    simp only [readValues, bind, Except.bind, pure, Except.pure] at h
    cases hv : readValue c with
    | error e => simp [hv] at h
    | ok x =>
      simp only [hv] at h
      cases hvs : readValues n x.2 with
      | error e => simp [hvs] at h
      | ok y =>
        simp only [hvs] at h
        cases h
        have h1 := length_of_readValue hv
        have h2 := ih hvs
        omega

/-- A record takes up at least one byte. -/
theorem length_of_readRecord {c d : ByteCursor} {r : Record} (h : readRecord c = .ok (r, d)) :
    d.rest.length < c.rest.length := by
  simp only [readRecord, bind, Except.bind, throw, throwThe, MonadExceptOf.throw] at h
  cases hb : readByte c with
  | error e => simp [hb] at h
  | ok x =>
    simp only [hb] at h
    split at h
    · cases hw : readWord x.2 with
      | error e => simp [hw] at h
      | ok y =>
        simp only [hw] at h
        have h1 := length_of_readByte hb
        have h2 := length_of_readWord hw
        have h3 := length_of_readValues h
        omega
    · cases h

/-! ### All records -/

/-- The records from a place on, each with its offset, and the error that ended the reading
before the end of the bytes, if one did. -/
def readRecords (c : ByteCursor) : List (Nat × Record) × Option TableError :=
  match c.rest with
  | [] => ([], none)
  | _ :: _ =>
    match _h : readRecord c with
    | .ok (r, d) =>
      let (rs, failure) := readRecords d
      ((c.offset, r) :: rs, failure)
    | .error e => ([], some e)
termination_by c.rest.length
decreasing_by exact length_of_readRecord _h

end CompiledGrammar
