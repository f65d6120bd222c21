import CompiledGrammar.Proofs.Table.Record

/-!
# Writing undoes reading

What has been read is written again as it was, unless there are other ways to write it: a truth
value can be any byte, of which all but 1 are false, and a surrogate that stands alone is read as
the replacement character.

* A value is canonical (`ByteCursor.IsCanonical`) if it is written in the way that it would be
  written again, and bytes are (`CanonicalTable`) if every string and every truth value in them is.
* What is read from canonical bytes is written as these bytes: `rest_of_readValue`,
  `rest_of_readRecord` and `rest_of_readRecords`.
* What is written is canonical (`canonicalTable_encode`).

`records_read_written` puts both directions together.
-/

namespace CompiledGrammar

/-! ### Canonical bytes -/

/-- If a truth value is written at the cursor, it is written as 0 or 1, and if it is a string, its
surrogates are in pairs. -/
structure ByteCursor.IsCanonical (c : ByteCursor) : Prop where
  bool : ∀ b rest, c.rest = 'B'.toUInt8 :: b :: rest → b = 0 ∨ b = 1
  str : ∀ rest units d, c.rest = 'S'.toUInt8 :: rest →
    readUnits (c.offset + 1) rest = .ok (units, d) → Utf16.IsWellFormed units

/-- Where values are read when records are read from a cursor on. -/
inductive ReadsValueAt : ByteCursor → ByteCursor → Prop where
  /-- In the first record, after some values of it. -/
  | here {c body values d : ByteCursor} {count : UInt16} {k : Nat} {vs : Record} :
      readByte c = .ok (recordTag, body) → readWord body = .ok (count, values) →
      k < count.toNat → readValues k values = .ok (vs, d) → ReadsValueAt c d
  /-- In a later record. -/
  | later {c next d : ByteCursor} {r : Record} :
      readRecord c = .ok (r, next) → ReadsValueAt next d → ReadsValueAt c d

/-- The surrogates of every string in the bytes are in pairs, and every truth value is 0 or 1. -/
structure CanonicalTable (bytes : List UInt8) : Prop where
  /-- So they are in the header. -/
  header : ∀ units d, readUnits 0 bytes = .ok (units, d) → Utf16.IsWellFormed units
  /-- So they are in the values of the records. -/
  values : ∀ header c d, readString ⟨0, bytes⟩ = .ok (header, c) → ReadsValueAt c d →
    d.IsCanonical

/-! ### Words and strings -/

variable {c d : ByteCursor}

theorem rest_of_readByte {b : UInt8} (h : readByte c = .ok (b, d)) :
    c.rest = b :: d.rest ∧ d.offset = c.offset + 1 := by
  unfold readByte at h
  split at h
  · rename_i hrest
    cases h
    exact ⟨hrest, rfl⟩
  · cases h

theorem wordBytes_ofNat (low high : UInt8) :
    wordBytes (UInt16.ofNat (low.toNat + 0x100 * high.toNat)) = [low, high] := by
  have hlow : low.toNat < 0x100 := low.toNat_lt
  have hhigh : high.toNat < 0x100 := high.toNat_lt
  have hword : (UInt16.ofNat (low.toNat + 0x100 * high.toNat)).toNat =
      low.toNat + 0x100 * high.toNat :=
    UInt16.toNat_ofNat_of_lt' (by omega : _ < 0x10000)
  have hmod : (low.toNat + 0x100 * high.toNat) % 0x100 = low.toNat := by omega
  have hdiv : (low.toNat + 0x100 * high.toNat) / 0x100 = high.toNat := by omega
  rw [wordBytes, hword, hmod, hdiv, UInt8.ofNat_toNat, UInt8.ofNat_toNat]

theorem rest_of_readWord {w : UInt16} (h : readWord c = .ok (w, d)) :
    c.rest = wordBytes w ++ d.rest := by
  unfold readWord at h
  split at h
  · rename_i hrest
    cases h
    rw [hrest, wordBytes_ofNat]
    rfl
  · cases h

theorem rest_of_readUnits {offset : Nat} {bytes : List UInt8} {us : List UInt16}
    (h : readUnits offset bytes = .ok (us, d)) :
    bytes = us.flatMap wordBytes ++ wordBytes 0 ++ d.rest := by
  fun_induction readUnits offset bytes generalizing us d with
  | case1 offset low high rest unit =>
    rename_i hzero
    cases h
    have hbytes := wordBytes_ofNat low high
    rw [show UInt16.ofNat (low.toNat + 0x100 * high.toNat) = 0 from hzero] at hbytes
    rw [List.flatMap_nil, List.nil_append, hbytes]
    rfl
  | case2 offset low high rest unit _ =>
    rename_i ih
    cases hr : readUnits (offset + 2) rest with
    | error e =>
      rw [hr] at h
      cases h
    | ok read =>
      obtain ⟨units, next⟩ := read
      rw [hr] at h
      cases h
      have hbytes := wordBytes_ofNat low high
      rw [List.flatMap_cons, show wordBytes unit = [low, high] from hbytes, List.append_assoc,
        List.append_assoc, ← List.append_assoc (units.flatMap wordBytes), ← ih hr]
      rfl
  | case3 => cases h

theorem rest_of_readString {s : String} (h : readString c = .ok (s, d))
    (hunits : ∀ units e, readUnits c.offset c.rest = .ok (units, e) → Utf16.IsWellFormed units) :
    c.rest = encodeString s ++ d.rest := by
  unfold readString at h
  cases hr : readUnits c.offset c.rest with
  | error e =>
    rw [hr] at h
    cases h
  | ok read =>
    obtain ⟨units, next⟩ := read
    rw [hr] at h
    cases h
    rw [encodeString, String.toList_ofList, Utf16.encode_decode (hunits units _ hr),
      ← rest_of_readUnits hr]

/-! ### Values and records -/

theorem rest_of_readValue {v : Value} (h : readValue c = .ok (v, d)) (hc : c.IsCanonical) :
    c.rest = v.encode ++ d.rest := by
  simp only [readValue, bind_eq_ok, Prod.exists] at h
  obtain ⟨tag, body, htag, h⟩ := h
  obtain ⟨hrest, hoffset⟩ := rest_of_readByte htag
  split at h
  · rename_i hempty
    cases h
    rw [hrest, hempty]
    rfl
  split at h
  · rename_i hbyte
    obtain ⟨⟨b, next⟩, hb, h⟩ := bind_eq_ok.1 h
    cases h
    rw [hrest, hbyte, (rest_of_readByte hb).1]
    rfl
  split at h
  · rename_i hbool
    obtain ⟨⟨b, next⟩, hb, h⟩ := bind_eq_ok.1 h
    cases h
    rw [hbool, (rest_of_readByte hb).1] at hrest
    rcases hc.bool _ _ hrest with rfl | rfl <;> exact hrest
  split at h
  · rename_i hint
    obtain ⟨⟨w, next⟩, hw, h⟩ := bind_eq_ok.1 h
    cases h
    rw [hrest, hint, rest_of_readWord hw]
    simp only [Value.encode, Value.tag, Value.payload, UInt16.toUInt16_toInt16, List.cons_append]
  split at h
  · rename_i hstr
    obtain ⟨⟨s, next⟩, hs, h⟩ := bind_eq_ok.1 h
    cases h
    rw [hstr] at hrest
    rw [hrest, rest_of_readString hs fun units e hunits =>
      hc.str body.rest units e hrest (hoffset ▸ hunits)]
    rfl
  · cases h

theorem rest_of_readValues {n : Nat} {r : Record} (h : readValues n c = .ok (r, d))
    (hc : ∀ k vs e, k < n → readValues k c = .ok (vs, e) → e.IsCanonical) :
    c.rest = r.flatMap Value.encode ++ d.rest ∧ r.length = n := by
  induction n generalizing c r with
  | zero =>
    cases h
    exact ⟨rfl, rfl⟩
  | succ n ih =>
    simp only [readValues, bind_eq_ok, Prod.exists] at h
    obtain ⟨v, next, hv, vs, last, hvs, h⟩ := h
    cases h
    have hfirst := rest_of_readValue hv (hc 0 [] c (Nat.succ_pos n) rfl)
    -- after `k` values of the rest there are `k + 1` values of all
    obtain ⟨hrest, hlen⟩ := ih hvs fun k us e hk hus =>
      hc (k + 1) (v :: us) e (Nat.succ_lt_succ hk) <| by
        simp only [readValues, bind_eq_ok, Prod.exists]
        exact ⟨v, next, hv, us, e, hus, rfl⟩
    rw [hfirst, hrest, List.flatMap_cons, List.append_assoc, List.length_cons, hlen]
    exact ⟨rfl, rfl⟩

theorem rest_of_readRecord {r : Record} (h : readRecord c = .ok (r, d))
    (hc : ∀ e, ReadsValueAt c e → e.IsCanonical) : c.rest = encodeRecord r ++ d.rest := by
  simp only [readRecord, bind_eq_ok, Prod.exists] at h
  obtain ⟨tag, body, htag, h⟩ := h
  split at h
  · rename_i hrecord
    obtain ⟨⟨count, values⟩, hcount, hr⟩ := bind_eq_ok.1 h
    rw [hrecord] at htag
    obtain ⟨hvalues, hlen⟩ := rest_of_readValues hr fun k vs e hk hvs =>
      hc e (.here htag hcount hk hvs)
    rw [(rest_of_readByte htag).1, rest_of_readWord hcount, hvalues, encodeRecord, hlen,
      UInt16.ofNat_toNat, List.cons_append, List.append_assoc]
  · cases h

/-- All of the bytes have been read as records. -/
theorem rest_of_readRecords {rs : List (Nat × Record)} (h : readRecords c = (rs, none))
    (hc : ∀ e, ReadsValueAt c e → e.IsCanonical) :
    c.rest = (rs.map Prod.snd).flatMap encodeRecord := by
  fun_induction readRecords c generalizing rs with
  | case1 c hrest =>
    cases h
    exact hrest
  | case2 c b bytes hrest r next hread later failure hlater ih =>
    cases h
    rw [rest_of_readRecord hread hc, ih hlater fun e he => hc e (.later hread he)]
    rfl
  | case3 => cases h

/-! ### What is written is canonical -/

theorem isCanonical_encode {v : Value} (h : v.IsStorable) (offset : Nat) (rest : List UInt8) :
    (⟨offset, v.encode ++ rest⟩ : ByteCursor).IsCanonical := by
  refine ⟨fun b after hbytes => ?_, fun after units d hbytes hunits => ?_⟩
  · have htag : v.tag = 'B'.toUInt8 := (List.cons.inj hbytes).1
    cases v with
    | bool x =>
      have hb : (if x then 1 else 0) = b := (List.cons.inj (List.cons.inj hbytes).2).1
      cases x with
      | true => exact Or.inr hb.symm
      | false => exact Or.inl hb.symm
    | empty | byte | int | str => exact absurd htag (by simp only [Value.tag]; decide)
  · have htag : v.tag = 'S'.toUInt8 := (List.cons.inj hbytes).1
    cases v with
    | str s =>
      have hafter : encodeString s ++ rest = after := (List.cons.inj hbytes).2
      have hread := reads_units (fun u hu => Utf16.ne_zero_of_mem_encode h hu) (offset + 1) rest
      rw [← hafter, encodeString] at hunits
      cases hunits.symm.trans hread
      exact Utf16.isWellFormed_encode _
    | empty | byte | int | bool => exact absurd htag (by simp only [Value.tag]; decide)

theorem isCanonical_of_readsValueAt {rs : List Record} (h : ∀ r ∈ rs, r.IsStorable) {offset : Nat}
    (hread : ReadsValueAt ⟨offset, rs.flatMap encodeRecord⟩ d) : d.IsCanonical := by
  -- by induction on the way to the value, which passes one record at a time
  generalize hc : (⟨offset, rs.flatMap encodeRecord⟩ : ByteCursor) = c at hread
  induction hread generalizing rs offset with
  | @here c body values d count k vs hbyte hword hk hvalues =>
    subst hc
    cases rs with
    | nil => cases hbyte
    | cons r rs =>
      have hr := h r List.mem_cons_self
      have hcount : (UInt16.ofNat r.length).toNat = r.length :=
        UInt16.toNat_ofNat_of_lt' (Nat.lt_succ_of_le hr.length)
      rw [List.flatMap_cons, encodeRecord, List.cons_append, List.append_assoc] at hbyte
      cases hbyte
      rw [reads_word] at hword
      cases hword
      rw [hcount] at hk
      -- the record is cut at the value
      have hcut : r.flatMap Value.encode ++ rs.flatMap encodeRecord =
          (r.take k).flatMap Value.encode ++
            ((r.drop k).flatMap Value.encode ++ rs.flatMap encodeRecord) := by
        rw [← List.append_assoc, ← List.flatMap_append, List.take_append_drop]
      have hbefore := reads_values (r := r.take k) fun v hv => hr.values v (List.mem_of_mem_take hv)
      rw [List.length_take_of_le (Nat.le_of_lt hk)] at hbefore
      rw [hcut, hbefore] at hvalues
      cases hvalues
      rw [List.drop_eq_getElem_cons hk, List.flatMap_cons, List.append_assoc]
      exact isCanonical_encode (hr.values _ (List.getElem_mem hk)) _ _
  | @later c next d r hrecord _ ih =>
    subst hc
    cases rs with
    | nil => cases hrecord
    | cons r rs =>
      obtain ⟨hr, hrs⟩ := List.forall_mem_cons.1 h
      rw [List.flatMap_cons, Record.reads hr] at hrecord
      cases hrecord
      exact ih hrs rfl

/-- **What is written is canonical.** -/
theorem canonicalTable_encode {header : String} {rs : List Record}
    (hheader : '\x00' ∉ header.toList) (h : ∀ r ∈ rs, r.IsStorable) :
    CanonicalTable (encodeString header ++ rs.flatMap encodeRecord) := by
  refine ⟨fun units d hunits => ?_, fun read c d hread hvalue => ?_⟩
  · have hwritten := reads_units (fun u hu => Utf16.ne_zero_of_mem_encode hheader hu) 0
      (rs.flatMap encodeRecord)
    rw [encodeString] at hunits
    cases hunits.symm.trans hwritten
    exact Utf16.isWellFormed_encode _
  · rw [reads_string hheader] at hread
    cases hread
    exact isCanonical_of_readsValueAt h hvalue

/-! ### Both directions -/

/-- **The records of a table are read as they were written, and written as they were read.**  A
header and records that can be stored are read back, up to the end of the bytes.  If all bytes are
read, as a header and records, and are canonical, then writing the header and the records makes the
same bytes. -/
theorem records_read_written :
    (∀ rs : List Record, (∀ r ∈ rs, r.IsStorable) →
      ∃ c, readString ⟨0, encodeString tableHeader ++ rs.flatMap encodeRecord⟩ =
          .ok (tableHeader, c) ∧
        readRecords c = (located c.offset rs, none)) ∧
    ∀ (bytes : List UInt8) (header : String) (c : ByteCursor) (rs : List (Nat × Record)),
      readString ⟨0, bytes⟩ = .ok (header, c) → readRecords c = (rs, none) →
      CanonicalTable bytes →
      encodeString header ++ (rs.map Prod.snd).flatMap encodeRecord = bytes := by
  refine ⟨fun rs h => ?_, fun bytes header c rs hheader hrecords hbytes => ?_⟩
  · refine ⟨_, reads_string (by decide) 0 _, ?_⟩
    have hread := readRecords_append h (0 + (encodeString tableHeader).length) []
    rwa [List.append_nil, readRecords_end, List.append_nil] at hread
  · rw [← rest_of_readRecords hrecords fun e he => hbytes.values header c e hheader he]
    exact (rest_of_readString hheader hbytes.header).symm

/-- A record with a value of each type, among them a string with a surrogate pair, and one without
values: both are read back, and written again as the same bytes. -/
theorem records_read_written_astral :
    ∃ rs : List Record,
      rs = [[.byte 'p'.toUInt8, .int (-1), .str "a😀", .bool true, .empty], []] ∧
      (∀ r ∈ rs, r.IsStorable) ∧
      CanonicalTable (encodeString tableHeader ++ rs.flatMap encodeRecord) ∧
      ∃ c, readString ⟨0, encodeString tableHeader ++ rs.flatMap encodeRecord⟩ =
          .ok (tableHeader, c) ∧
        readRecords c = (located c.offset rs, none) ∧
        encodeString tableHeader ++ ((located c.offset rs).map Prod.snd).flatMap encodeRecord =
          encodeString tableHeader ++ rs.flatMap encodeRecord := by
  obtain ⟨rs, hrs⟩ : ∃ rs : List Record,
    rs = [[.byte 'p'.toUInt8, .int (-1), .str "a😀", .bool true, .empty], []] := ⟨_, rfl⟩
  refine ⟨rs, hrs, ?_⟩
  have hstorable : ∀ r ∈ rs, r.IsStorable := by
    rw [hrs]
    refine List.forall_mem_cons.2 ⟨⟨by decide, ?_⟩, List.forall_mem_singleton.2 ⟨by decide, nofun⟩⟩
    simp only [List.forall_mem_cons, Value.isStorable_byte, Value.isStorable_int,
      Value.isStorable_str, Value.isStorable_bool, Value.isStorable_empty, List.not_mem_nil,
      false_implies, implies_true, and_true, true_and]
    decide
  have hstring : '\x00' ∉ tableHeader.toList := by decide
  have hcanonical := canonicalTable_encode hstring hstorable
  obtain ⟨c, hheader, hrecords⟩ := records_read_written.1 rs hstorable
  exact ⟨hstorable, hcanonical, c, hheader, hrecords,
    records_read_written.2 _ _ c _ hheader hrecords hcanonical⟩

end CompiledGrammar
