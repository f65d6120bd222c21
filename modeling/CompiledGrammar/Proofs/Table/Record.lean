import CompiledGrammar.Proofs.Table.Layout
import CompiledGrammar.Proofs.Text.Utf16

/-!
# Reading undoes writing

What has been written is read back as it was, and reading goes on right behind it.

* `Reads` says that of a reader, some bytes and what they stand for, whatever comes before and after
  the bytes; readers that are run one after the other read what is written one after the other
  (`Reads.bind`).
* A value can be stored if it is no string with a `U+0000` in it, and a record if its values can and
  are no more than its count has room for (`Value.IsStorable`, `Record.IsStorable`).  What can be
  stored is read back (`Value.reads`, `Record.reads`), and so are any number of records
  (`readRecords_append`).
* `Table.decode_eq` concludes that decoding a header and records is to add one record after the
  other.
-/

namespace CompiledGrammar

/-- The reader takes the bytes for the value, whatever comes before and after them. -/
def Reads {α : Type} (read : ByteCursor → Except TableError (α × ByteCursor)) (bytes : List UInt8)
    (a : α) : Prop :=
  ∀ offset rest, read ⟨offset, bytes ++ rest⟩ = .ok (a, ⟨offset + bytes.length, rest⟩)

/-- Reading one thing and then another. -/
theorem Reads.bind {α β : Type} {read : ByteCursor → Except TableError (α × ByteCursor)}
    {bytes bytes' : List UInt8} {a : α} {b : β} (h : Reads read bytes a)
    (next : α → ByteCursor → Except TableError (β × ByteCursor)) (h' : Reads (next a) bytes' b) :
    Reads (fun c => read c >>= fun (a, c) => next a c) (bytes ++ bytes') b := by
  intro offset rest
  have hread := h offset (bytes' ++ rest)
  have hnext := h' (offset + bytes.length) rest
  rw [List.append_assoc, List.length_append, ← Nat.add_assoc]
  simp only [hread]
  exact hnext

/-- What has been read may be made into something else. -/
theorem Reads.map {α β : Type} {read : ByteCursor → Except TableError (α × ByteCursor)}
    {bytes : List UInt8} {a : α} (h : Reads read bytes a) (f : α → β) :
    Reads (fun c => read c >>= fun (a, c) => pure (f a, c)) bytes (f a) := by
  intro offset rest
  simp only [h offset rest]
  rfl

/-- The same reading, one byte further on. -/
theorem Reads.behind {α : Type} {read : ByteCursor → Except TableError (α × ByteCursor)}
    {bytes : List UInt8} {a : α} (h : Reads read bytes a) (tag : UInt8) (offset : Nat)
    (rest : List UInt8) :
    read ⟨offset + 1, bytes ++ rest⟩ = .ok (a, ⟨offset + (tag :: bytes).length, rest⟩) := by
  rw [h, List.length_cons, Nat.add_assoc, Nat.add_comm 1]

/-! ### Words and strings -/

theorem reads_word (w : UInt16) : Reads readWord (wordBytes w) w := by
  intro offset rest
  have hbound : w.toNat < 0x10000 := w.toNat_lt
  have hlow : (UInt8.ofNat (w.toNat % 0x100)).toNat = w.toNat % 0x100 :=
    UInt8.toNat_ofNat_of_lt' (Nat.mod_lt _ (by decide))
  have hhigh : (UInt8.ofNat (w.toNat / 0x100)).toNat = w.toNat / 0x100 :=
    UInt8.toNat_ofNat_of_lt' (Nat.div_lt_of_lt_mul hbound)
  have hsum : w.toNat % 0x100 + 0x100 * (w.toNat / 0x100) = w.toNat := Nat.mod_add_div _ _
  simp only [readWord, wordBytes, List.cons_append, List.nil_append, hlow, hhigh, hsum,
    UInt16.ofNat_toNat, List.length_cons, List.length_nil]

theorem reads_units {us : List UInt16} (h : ∀ u ∈ us, u ≠ 0) :
    Reads (fun c => readUnits c.offset c.rest) (us.flatMap wordBytes ++ wordBytes 0) us := by
  induction us with
  | nil => exact fun _ _ => rfl
  | cons u us ih =>
    obtain ⟨hu, hus⟩ := List.forall_mem_cons.1 h
    intro offset rest
    -- the first unit is read as the word that it is, and does not end the string
    have hword := reads_word u offset (us.flatMap wordBytes ++ wordBytes 0 ++ rest)
    have hrest := ih hus (offset + 2) rest
    simp only [readWord, wordBytes, List.cons_append, List.nil_append, Except.ok.injEq,
      Prod.mk.injEq] at hword
    simp only [List.flatMap_cons, wordBytes, List.cons_append, List.nil_append, readUnits,
      hword.1, if_neg hu] at hrest ⊢
    rw [hrest]
    simp only [Except.map, List.length_cons]
    congr 3
    omega

theorem reads_string {s : String} (h : '\x00' ∉ s.toList) :
    Reads readString (encodeString s) s := by
  intro offset rest
  have hunits := reads_units (fun u hu => Utf16.ne_zero_of_mem_encode h hu) offset rest
  unfold encodeString
  simp only [readString, hunits, Except.map, Utf16.decode_encode, String.ofList_toList]

/-! ### Values and records -/

/-- The value is no string that would end early. -/
def Value.IsStorable : Value → Prop
  | .str s => '\x00' ∉ s.toList
  | _ => True

@[simp] theorem Value.isStorable_empty : Value.empty.IsStorable := trivial

@[simp] theorem Value.isStorable_byte (b : UInt8) : (Value.byte b).IsStorable := trivial

@[simp] theorem Value.isStorable_bool (b : Bool) : (Value.bool b).IsStorable := trivial

@[simp] theorem Value.isStorable_int (n : Int16) : (Value.int n).IsStorable := trivial

@[simp] theorem Value.isStorable_str {s : String} :
    (Value.str s).IsStorable ↔ '\x00' ∉ s.toList := Iff.rfl

/-- A record of values that can be stored, and that its count has room for. -/
structure Record.IsStorable (r : Record) : Prop where
  length : r.length ≤ 0xFFFF
  values : ∀ v ∈ r, v.IsStorable

theorem Value.reads {v : Value} (h : v.IsStorable) : Reads readValue v.encode v := by
  intro offset rest
  -- the tag leads to the reader for the payload
  cases v with
  | empty => rfl
  | byte b => rfl
  | bool b => cases b <;> rfl
  | int n =>
    have hword := (reads_word n.toUInt16).map fun w : UInt16 => Value.int w.toInt16
    rw [Int16.toInt16_toUInt16] at hword
    exact hword.behind 'I'.toUInt8 offset rest
  | str s => exact ((reads_string h).map Value.str).behind 'S'.toUInt8 offset rest

theorem reads_values {r : Record} (h : ∀ v ∈ r, v.IsStorable) :
    Reads (readValues r.length) (r.flatMap Value.encode) r := by
  induction r with
  | nil => exact fun _ _ => rfl
  | cons v r ih =>
    obtain ⟨hv, hr⟩ := List.forall_mem_cons.1 h
    exact (Value.reads hv).bind
      (fun v c => readValues r.length c >>= fun read => pure (v :: read.1, read.2))
      ((ih hr).map (v :: ·))

/-- **A record that can be stored is read back.** -/
theorem Record.reads {r : Record} (h : r.IsStorable) : Reads readRecord (encodeRecord r) r := by
  have hcount : (UInt16.ofNat r.length).toNat = r.length :=
    UInt16.toNat_ofNat_of_lt' (Nat.lt_succ_of_le h.length)
  have hvalues := reads_values h.values
  rw [← hcount] at hvalues
  have hcounted := (reads_word (UInt16.ofNat r.length)).bind
    (fun count => readValues count.toNat) hvalues
  exact hcounted.behind recordTag

/-! ### All records -/

/-- The records with the offsets at which they are written, the first one at `offset`. -/
def located (offset : Nat) : List Record → List (Nat × Record)
  | [] => []
  | r :: rs => (offset, r) :: located (offset + (encodeRecord r).length) rs

theorem located_append (offset : Nat) (rs rs' : List Record) :
    located offset (rs ++ rs') =
      located offset rs ++ located (offset + (rs.flatMap encodeRecord).length) rs' := by
  induction rs generalizing offset with
  | nil => rfl
  | cons r rs ih =>
    rw [List.cons_append, located, located, ih, List.flatMap_cons, List.length_append,
      List.cons_append, Nat.add_assoc]

theorem readRecords_of_ok {c d : ByteCursor} {r : Record} (h : readRecord c = .ok (r, d)) :
    readRecords c = ((c.offset, r) :: (readRecords d).1, (readRecords d).2) := by
  have hlen := length_of_readRecord h
  rw [readRecords]
  split
  · rename_i hrest
    rw [hrest] at hlen
    cases hlen
  · split
    · rename_i hok
      rw [h] at hok
      cases hok
      rfl
    · rename_i herror
      rw [h] at herror
      cases herror

/-- Records that can be stored are read one after the other, and then whatever comes after them. -/
theorem readRecords_append {rs : List Record} (h : ∀ r ∈ rs, r.IsStorable) (offset : Nat)
    (rest : List UInt8) :
    readRecords ⟨offset, rs.flatMap encodeRecord ++ rest⟩ =
      (located offset rs ++
          (readRecords ⟨offset + (rs.flatMap encodeRecord).length, rest⟩).1,
        (readRecords ⟨offset + (rs.flatMap encodeRecord).length, rest⟩).2) := by
  induction rs generalizing offset with
  | nil => rfl
  | cons r rs ih =>
    obtain ⟨hr, hrs⟩ := List.forall_mem_cons.1 h
    have hread := Record.reads hr offset (rs.flatMap encodeRecord ++ rest)
    have hbytes : (r :: rs).flatMap encodeRecord ++ rest =
        encodeRecord r ++ (rs.flatMap encodeRecord ++ rest) := by
      rw [List.flatMap_cons, List.append_assoc]
    rw [hbytes, readRecords_of_ok hread, ih hrs, located, List.flatMap_cons, List.length_append,
      List.cons_append, Nat.add_assoc]

theorem readRecords_end (offset : Nat) : readRecords ⟨offset, []⟩ = ([], none) := by
  rw [readRecords]

theorem Table.decode_header (rest : List UInt8) :
    Table.decode (encodeString tableHeader ++ rest) =
      Table.decodeRecords ⟨(encodeString tableHeader).length, rest⟩ := by
  have hheader := reads_string (s := tableHeader) (by decide) 0 rest
  rw [Nat.zero_add] at hheader
  unfold Table.decode
  rw [hheader]
  exact if_pos rfl

/-- **Decoding what has been written is adding the records one after the other.** -/
theorem Table.decode_eq {rs : List Record} (h : ∀ r ∈ rs, r.IsStorable) :
    Table.decode (encodeString tableHeader ++ rs.flatMap encodeRecord) =
      (located (encodeString tableHeader).length rs).foldlM Table.addRecord {} := by
  have hrecords := readRecords_append h (encodeString tableHeader).length []
  rw [readRecords_end, List.append_nil, List.append_nil] at hrecords
  rw [Table.decode_header, Table.decodeRecords, hrecords]
  exact bind_pure _

end CompiledGrammar
