import CompiledGrammar.Proofs.Table.Canonical

/-!
# Tables that are cut off

The bytes of a table do not say how many records it has, so the first records of a table are a
table too.  A cut anywhere else is found.

* A reader delimits bytes (`Delimits`) if it takes all of them, whatever comes after them, and finds
  every shorter part of them to be truncated.  All readers of the format delimit what they take, and
  their errors are at places within the bytes (`IsDelimiting`); this is kept when they are run one
  after the other (`IsDelimiting.bind`) and when a tag chooses between them
  (`isDelimiting_tagged`).
* So the bytes of a table are a header and blocks, one for each record (`Block`, `tableBytes`,
  `blocks_of_readRecords`), and a cut is either between two of them or inside one
  (`exists_take_flatMap`).
* `truncation_detected` says what is decoded from the bytes before a cut, and where the errors are.
-/

namespace CompiledGrammar

/-- A reader at a place in the bytes. -/
abbrev Reader (α : Type) := ByteCursor → Except TableError (α × ByteCursor)

/-! ### Readers that delimit what they read -/

/-- The reader takes the bytes for the value, and any shorter part of them is truncated to it. -/
structure Delimits {α : Type} (read : Reader α) (bytes : List UInt8) (a : α) : Prop where
  reads : Reads read bytes a
  cut : ∀ offset n, n < bytes.length →
    ∃ place, read ⟨offset, bytes.take n⟩ = .error ⟨.truncated, some place⟩

/-- The reader delimits whatever it takes, and its errors have places up to the end of the bytes. -/
structure IsDelimiting {α : Type} (read : Reader α) : Prop where
  delimits : ∀ {c d a}, read c = .ok (a, d) →
    ∃ bytes, c.rest = bytes ++ d.rest ∧ Delimits read bytes a
  place : ∀ {c e}, read c = .error e →
    ∃ place, e.offset = some place ∧ place ≤ c.offset + c.rest.length

section

variable {α β : Type} {read : Reader α} {next : α → Reader β} {c d : ByteCursor} {a : α}

/-- Reading goes on right behind what has been read. -/
theorem Delimits.offset_eq {bytes : List UInt8} (h : Delimits read bytes a)
    (hread : read c = .ok (a, d)) (hc : c.rest = bytes ++ d.rest) :
    d.offset = c.offset + bytes.length := by
  have hbytes := h.reads c.offset d.rest
  rw [← hc, hread] at hbytes
  exact congrArg (·.2.offset) (Except.ok.inj hbytes)

/-- Reading does not move the end of the bytes. -/
theorem IsDelimiting.end_eq (hread : IsDelimiting read) (h : read c = .ok (a, d)) :
    d.offset + d.rest.length = c.offset + c.rest.length := by
  obtain ⟨bytes, hc, hbytes⟩ := hread.delimits h
  rw [hbytes.offset_eq h hc, hc, List.length_append, Nat.add_assoc]

theorem delimits_pure (a : α) : Delimits (fun c => pure (a, c)) [] a :=
  ⟨fun _ _ => rfl, nofun⟩

theorem Delimits.bind {bytes bytes' : List UInt8} {b : β} (h : Delimits read bytes a)
    (next : α → Reader β) (h' : Delimits (next a) bytes' b) :
    Delimits (fun c => read c >>= fun (a, c) => next a c) (bytes ++ bytes') b := by
  refine ⟨h.reads.bind next h'.reads, fun offset n hn => ?_⟩
  rcases Nat.lt_or_ge n bytes.length with hlt | hge
  · -- the first part is cut
    obtain ⟨place, hplace⟩ := h.cut offset n hlt
    rw [List.take_append_of_le_length (Nat.le_of_lt hlt)]
    refine ⟨place, ?_⟩
    simp only [hplace]
    rfl
  · -- the first part is there, and the second one is cut
    obtain ⟨k, rfl⟩ := Nat.exists_eq_add_of_le hge
    rw [List.length_append, Nat.add_lt_add_iff_left] at hn
    obtain ⟨place, hplace⟩ := h'.cut (offset + bytes.length) k hn
    rw [List.take_length_add_append]
    refine ⟨place, ?_⟩
    simp only [h.reads offset (bytes'.take k)]
    exact hplace

theorem isDelimiting_pure (a : α) : IsDelimiting (fun c => pure (a, c)) where
  delimits h := by
    cases h
    exact ⟨[], rfl, delimits_pure a⟩
  place := nofun

theorem IsDelimiting.bind (hread : IsDelimiting read) (hnext : ∀ a, IsDelimiting (next a)) :
    IsDelimiting (fun c => read c >>= fun (a, c) => next a c) where
  delimits {c d b} h := by
    obtain ⟨⟨a, mid⟩, ha, hb⟩ := bind_eq_ok.1 h
    obtain ⟨bytes, hc, hbytes⟩ := hread.delimits ha
    obtain ⟨bytes', hmid, hbytes'⟩ := (hnext a).delimits hb
    exact ⟨bytes ++ bytes', by rw [hc, hmid, List.append_assoc], hbytes.bind next hbytes'⟩
  place {c e} h := by
    cases ha : read c with
    | error first =>
      rw [ha] at h
      cases h
      exact hread.place ha
    | ok r =>
      rw [ha] at h
      obtain ⟨place, hplace, hle⟩ := (hnext r.1).place (c := r.2) h
      exact ⟨place, hplace, hread.end_eq ha ▸ hle⟩

theorem IsDelimiting.map (hread : IsDelimiting read) (f : α → β) :
    IsDelimiting (fun c => read c >>= fun (a, c) => pure (f a, c)) :=
  hread.bind fun a => isDelimiting_pure (f a)

end

/-! ### Bytes, words and strings -/

theorem isDelimiting_byte : IsDelimiting readByte where
  delimits {c d b} h := by
    refine ⟨[b], (rest_of_readByte h).1, fun _ _ => rfl, fun offset n hn => ⟨offset, ?_⟩⟩
    rw [List.length_singleton, Nat.lt_one_iff] at hn
    rw [hn]
    rfl
  place {c e} h := by
    unfold readByte at h
    split at h
    · cases h
    · cases h
      exact ⟨c.offset, rfl, Nat.le_add_right _ _⟩

theorem delimits_word (w : UInt16) : Delimits readWord (wordBytes w) w := by
  refine ⟨reads_word w, fun offset n hn => ⟨offset, ?_⟩⟩
  match n, hn with
  | 0, _ => rfl
  | 1, _ => rfl

theorem isDelimiting_word : IsDelimiting readWord where
  delimits {c d w} h := ⟨wordBytes w, rest_of_readWord h, delimits_word w⟩
  place {c e} h := by
    unfold readWord at h
    split at h
    · cases h
    · cases h
      exact ⟨c.offset, rfl, Nat.le_add_right _ _⟩

/-- The reader for the units after a first one, which ends them if it is zero. -/
def readUnitsAfter (u : UInt16) : Reader (List UInt16) :=
  if u = 0 then fun c => pure ([], c)
  else fun c => readUnits c.offset c.rest >>= fun (us, c) => pure (u :: us, c)

theorem readUnits_eq : (fun c => readUnits c.offset c.rest) = fun c =>
    readWord c >>= fun (u, c) => readUnitsAfter u c := by
  funext ⟨offset, rest⟩
  match rest with
  | [] => rfl
  | [_] => rfl
  | low :: high :: rest =>
    simp only [readUnits, readWord, bind, Except.bind, readUnitsAfter]
    split
    · rfl
    · dsimp only
      cases readUnits (offset + 2) rest <;> rfl

theorem delimits_units {us : List UInt16} (h : ∀ u ∈ us, u ≠ 0) :
    Delimits (fun c => readUnits c.offset c.rest) (us.flatMap wordBytes ++ wordBytes 0) us := by
  induction us with
  | nil =>
    rw [readUnits_eq, List.flatMap_nil, List.nil_append, ← List.append_nil (wordBytes 0)]
    exact (delimits_word 0).bind readUnitsAfter (delimits_pure [])
  | cons u us ih =>
    obtain ⟨hu, hus⟩ := List.forall_mem_cons.1 h
    have hrest := (ih hus).bind (fun us c => pure (u :: us, c)) (delimits_pure (u :: us))
    rw [List.append_nil] at hrest
    rw [readUnits_eq, List.flatMap_cons, List.append_assoc]
    refine (delimits_word u).bind readUnitsAfter ?_
    rwa [readUnitsAfter, if_neg hu]

theorem ne_zero_of_readUnits {offset : Nat} {bytes : List UInt8} {us : List UInt16}
    {d : ByteCursor} (h : readUnits offset bytes = .ok (us, d)) : ∀ u ∈ us, u ≠ 0 := by
  fun_induction readUnits offset bytes generalizing us d with
  | case1 => cases h; exact List.forall_mem_nil _
  | case2 offset low high rest unit hunit =>
    rename_i ih
    cases hr : readUnits (offset + 2) rest with
    | error e => rw [hr] at h; cases h
    | ok read => rw [hr] at h; cases h; exact List.forall_mem_cons.2 ⟨hunit, ih hr⟩
  | case3 => cases h

theorem place_of_readUnits {offset : Nat} {bytes : List UInt8} {e : TableError}
    (h : readUnits offset bytes = .error e) :
    ∃ place, e.offset = some place ∧ place ≤ offset + bytes.length := by
  fun_induction readUnits offset bytes generalizing e with
  | case1 => cases h
  | case2 offset low high rest unit hunit =>
    rename_i ih
    cases hr : readUnits (offset + 2) rest with
    | ok read => rw [hr] at h; cases h
    | error first =>
      rw [hr] at h
      cases h
      obtain ⟨place, hplace, hle⟩ := ih hr
      exact ⟨place, hplace, by simp only [List.length_cons]; omega⟩
  | case3 rest offset => cases h; exact ⟨offset, rfl, Nat.le_add_right _ _⟩

theorem isDelimiting_units : IsDelimiting (fun c => readUnits c.offset c.rest) where
  delimits h := ⟨_, rest_of_readUnits h, delimits_units (ne_zero_of_readUnits h)⟩
  place h := place_of_readUnits h

theorem readString_eq : readString = fun c =>
    readUnits c.offset c.rest >>= fun (us, c) => pure (String.ofList (Utf16.decode us), c) := by
  funext c
  unfold readString
  cases readUnits c.offset c.rest <;> rfl

theorem isDelimiting_string : IsDelimiting readString :=
  readString_eq ▸ isDelimiting_units.map fun us => String.ofList (Utf16.decode us)

theorem delimits_string {s : String} (h : '\x00' ∉ s.toList) :
    Delimits readString (encodeString s) s := by
  obtain ⟨bytes, hrest, hbytes⟩ := isDelimiting_string.delimits (reads_string h 0 [])
  rw [List.append_nil, List.append_nil] at hrest
  subst hrest
  exact hbytes

/-! ### Values and records -/

/-- Read a tag, and go on with the reader for it. -/
def readTagged {α : Type} (reader? : UInt8 → Option (Reader α)) (unknown : UInt8 → TableFault) :
    Reader α := fun c => do
  let (tag, body) ← readByte c
  match reader? tag with
  | some read => read body
  | none => throw ⟨unknown tag, some c.offset⟩

theorem isDelimiting_tagged {α : Type} {reader? : UInt8 → Option (Reader α)}
    {unknown : UInt8 → TableFault}
    (h : ∀ tag read, reader? tag = some read → IsDelimiting read) :
    IsDelimiting (readTagged reader? unknown) where
  delimits {c d a} hok := by
    obtain ⟨⟨tag, body⟩, hbyte, hok⟩ := bind_eq_ok.1 hok
    dsimp only at hok
    split at hok
    · rename_i read hread
      obtain ⟨bytes, hbody, hbytes⟩ := (h tag read hread).delimits hok
      have hat : ∀ offset rest, readTagged reader? unknown ⟨offset, tag :: rest⟩ =
          read ⟨offset + 1, rest⟩ := fun offset rest => by
        simp only [readTagged, readByte, bind, Except.bind, hread]
      refine ⟨tag :: bytes, by rw [(rest_of_readByte hbyte).1, hbody, List.cons_append],
        fun offset rest => ?_, fun offset n hn => ?_⟩
      · rw [List.cons_append, hat, hbytes.reads.behind tag]
      · cases n with
        | zero => exact ⟨offset, rfl⟩
        | succ n =>
          rw [List.take_succ_cons, hat]
          exact hbytes.cut _ n (Nat.lt_of_succ_lt_succ hn)
    · cases hok
  place {c e} herror := by
    unfold readTagged at herror
    cases hbyte : readByte c with
    | error first =>
      rw [hbyte] at herror
      cases herror
      exact isDelimiting_byte.place hbyte
    | ok r =>
      rw [hbyte] at herror
      simp only [bind, Except.bind] at herror
      split at herror
      · rename_i read hread
        obtain ⟨place, hplace, hle⟩ := (h r.1 read hread).place herror
        exact ⟨place, hplace, isDelimiting_byte.end_eq hbyte ▸ hle⟩
      · cases herror
        exact ⟨c.offset, rfl, Nat.le_add_right _ _⟩

/-- The reader for what comes after the tag of a value. -/
def payloadReader? (tag : UInt8) : Option (Reader Value) :=
  if tag = 'E'.toUInt8 then some fun c => pure (.empty, c)
  else if tag = 'b'.toUInt8 then some fun c => readByte c >>= fun (b, c) => pure (.byte b, c)
  else if tag = 'B'.toUInt8 then some fun c => readByte c >>= fun (b, c) => pure (.bool (b == 1), c)
  else if tag = 'I'.toUInt8 then some fun c => readWord c >>= fun (w, c) => pure (.int w.toInt16, c)
  else if tag = 'S'.toUInt8 then some fun c => readString c >>= fun (s, c) => pure (.str s, c)
  else none

theorem readValue_eq : readValue = readTagged payloadReader? .unknownValueTag := by
  funext c
  unfold readValue readTagged payloadReader?
  refine bind_congr fun (tag, body) => ?_
  dsimp only
  split_ifs <;> rfl

theorem isDelimiting_value : IsDelimiting readValue := by
  rw [readValue_eq]
  refine isDelimiting_tagged fun tag read h => ?_
  unfold payloadReader? at h
  split_ifs at h <;> cases h
  · exact isDelimiting_pure Value.empty
  · exact isDelimiting_byte.map Value.byte
  · exact isDelimiting_byte.map fun b => Value.bool (b == 1)
  · exact isDelimiting_word.map fun w => Value.int w.toInt16
  · exact isDelimiting_string.map Value.str

theorem isDelimiting_values (n : Nat) : IsDelimiting (readValues n) := by
  induction n with
  | zero => exact isDelimiting_pure []
  | succ n ih => exact isDelimiting_value.bind fun v => ih.map (v :: ·)

/-- The reader for what comes after the tag of a record. -/
def bodyReader? (tag : UInt8) : Option (Reader Record) :=
  if tag = recordTag then
    some fun c => readWord c >>= fun (count, c) => readValues count.toNat c
  else none

theorem readRecord_eq : readRecord = readTagged bodyReader? .unknownRecordTag := by
  funext c
  unfold readRecord readTagged bodyReader?
  refine bind_congr fun (tag, body) => ?_
  dsimp only
  split_ifs <;> rfl

/-- **A record is delimited by its bytes.** -/
theorem isDelimiting_record : IsDelimiting readRecord := by
  rw [readRecord_eq]
  refine isDelimiting_tagged fun tag read h => ?_
  unfold bodyReader? at h
  split_ifs at h
  cases h
  exact isDelimiting_word.bind fun count => isDelimiting_values count.toNat

/-! ### Blocks -/

/-- A record and the bytes that it takes up. -/
structure Block where
  /-- The record. -/
  record : Record
  /-- Its bytes. -/
  bytes : List UInt8
  /-- The bytes are read as the record. -/
  delimits : Delimits readRecord bytes record

/-- The records of blocks with their offsets, the first one at `offset`. -/
def placed (offset : Nat) : List Block → List (Nat × Record)
  | [] => []
  | block :: blocks => (offset, block.record) :: placed (offset + block.bytes.length) blocks

theorem placed_append (offset : Nat) (blocks blocks' : List Block) :
    placed offset (blocks ++ blocks') =
      placed offset blocks ++
        placed (offset + (blocks.flatMap Block.bytes).length) blocks' := by
  induction blocks generalizing offset with
  | nil => rfl
  | cons block blocks ih =>
    rw [List.cons_append, placed, placed, ih, List.flatMap_cons, List.length_append,
      List.cons_append, Nat.add_assoc]

theorem readRecords_of_error {c : ByteCursor} {e : TableError} (hc : c.rest ≠ [])
    (h : readRecord c = .error e) : readRecords c = ([], some e) := by
  rw [readRecords]
  split
  · rename_i hrest
    exact absurd hrest hc
  · split
    · rename_i hok
      rw [h] at hok
      cases hok
    · rename_i herror
      rw [h] at herror
      cases herror
      rfl

/-- Blocks are read as their records, and then whatever comes after them. -/
theorem readRecords_blocks (blocks : List Block) (offset : Nat) (rest : List UInt8) :
    readRecords ⟨offset, blocks.flatMap Block.bytes ++ rest⟩ =
      (placed offset blocks ++
          (readRecords ⟨offset + (blocks.flatMap Block.bytes).length, rest⟩).1,
        (readRecords ⟨offset + (blocks.flatMap Block.bytes).length, rest⟩).2) := by
  induction blocks generalizing offset with
  | nil => rfl
  | cons block blocks ih =>
    have hread := block.delimits.reads offset (blocks.flatMap Block.bytes ++ rest)
    rw [List.flatMap_cons, List.append_assoc, readRecords_of_ok hread, ih, placed,
      List.length_append, List.cons_append, Nat.add_assoc]

/-- **Bytes that are read as records are blocks.** -/
theorem blocks_of_readRecords {c : ByteCursor} {rs : List (Nat × Record)}
    (h : readRecords c = (rs, none)) :
    ∃ blocks : List Block,
      c.rest = blocks.flatMap Block.bytes ∧ rs = placed c.offset blocks := by
  fun_induction readRecords c generalizing rs with
  | case1 c hrest =>
    cases h
    exact ⟨[], hrest, rfl⟩
  | case2 c b bytes hrest r next hread later failure hlater ih =>
    cases h
    obtain ⟨bytes, hbytes, hdelimits⟩ := isDelimiting_record.delimits hread
    obtain ⟨blocks, hblocks, hplaced⟩ := ih hlater
    refine ⟨⟨r, bytes, hdelimits⟩ :: blocks, ?_, ?_⟩
    · rw [hbytes, hblocks, List.flatMap_cons]
    · rw [hplaced, hdelimits.offset_eq hread hbytes, placed]
  | case3 => cases h

/-- A cut through pieces is a cut through one of them, behind whole ones. -/
theorem exists_take_flatMap {α β : Type} (f : α → List β) {l : List α} {n : Nat}
    (hn : n < (l.flatMap f).length) :
    ∃ k a m, l[k]? = some a ∧ m < (f a).length ∧
      (l.flatMap f).take n = (l.take k).flatMap f ++ (f a).take m := by
  induction l generalizing n with
  | nil => cases hn
  | cons a l ih =>
    rw [List.flatMap_cons, List.length_append] at hn
    rcases Nat.lt_or_ge n (f a).length with hlt | hge
    · refine ⟨0, a, n, rfl, hlt, ?_⟩
      rw [List.flatMap_cons, List.take_append_of_le_length (Nat.le_of_lt hlt)]
      rfl
    · obtain ⟨later, rfl⟩ := Nat.exists_eq_add_of_le hge
      obtain ⟨k, b, m, hk, hm, htake⟩ := ih (Nat.add_lt_add_iff_left.1 hn)
      refine ⟨k + 1, b, m, hk, hm, ?_⟩
      rw [List.flatMap_cons, List.take_length_add_append, htake, List.take_succ_cons,
        List.flatMap_cons, List.append_assoc]

/-! ### Places of errors -/

/-- The records that are read, and an error that ends the reading, are at places up to the end of
the bytes. -/
theorem place_of_readRecords {c : ByteCursor} :
    (∀ located ∈ (readRecords c).1, located.1 ≤ c.offset + c.rest.length) ∧
      ∀ e, (readRecords c).2 = some e →
        ∃ place, e.offset = some place ∧ place ≤ c.offset + c.rest.length := by
  fun_induction readRecords c with
  | case1 c hrest => exact ⟨List.forall_mem_nil _, fun e he => by cases he⟩
  | case2 c b bytes hrest r next hread later failure hlater ih =>
    rw [hlater, isDelimiting_record.end_eq hread] at ih
    exact ⟨List.forall_mem_cons.2 ⟨Nat.le_add_right _ _, ih.1⟩, ih.2⟩
  | case3 c b bytes hrest e herror =>
    refine ⟨List.forall_mem_nil _, fun first hfirst => ?_⟩
    cases hfirst
    exact isDelimiting_record.place herror

theorem Table.place_of_addRecord {t : Table} {located : Nat × Record} {e : TableError}
    (h : t.addRecord located = .error e) : e.offset = some located.1 := by
  obtain ⟨offset, r⟩ := located
  unfold Table.addRecord at h
  dsimp only at h
  split at h
  · rename_i kind values
    cases hrow : t.addRow kind (.byte kind :: values) with
    | ok t' => rw [hrow] at h; cases h
    | error fault => rw [hrow] at h; cases h; rfl
  · cases h
    rfl

theorem exists_of_foldlM_eq_error {ε σ α : Type} {f : σ → α → Except ε σ} {l : List α} {s : σ}
    {e : ε} (h : l.foldlM f s = .error e) : ∃ a ∈ l, ∃ s', f s' a = .error e := by
  induction l generalizing s with
  | nil => cases h
  | cons a l ih =>
    rw [List.foldlM_cons] at h
    cases hstep : f s a with
    | error first =>
      rw [hstep] at h
      cases h
      exact ⟨a, List.mem_cons_self, s, hstep⟩
    | ok s' =>
      rw [hstep] at h
      obtain ⟨b, hb, hfb⟩ := ih h
      exact ⟨b, List.mem_cons_of_mem a hb, hfb⟩

/-- **Every error has a place in the bytes, or at their end.** -/
theorem Table.place_of_decode {bytes : List UInt8} {e : TableError}
    (h : Table.decode bytes = .error e) :
    ∃ place, e.offset = some place ∧ place ≤ bytes.length := by
  unfold Table.decode at h
  cases hheader : readString ⟨0, bytes⟩ with
  | error first =>
    rw [hheader] at h
    cases h
    obtain ⟨place, hplace, hle⟩ := isDelimiting_string.place hheader
    exact ⟨place, hplace, Nat.zero_add bytes.length ▸ hle⟩
  | ok r =>
    obtain ⟨header, c⟩ := r
    have hend : c.offset + c.rest.length = bytes.length :=
      (isDelimiting_string.end_eq hheader).trans (Nat.zero_add _)
    simp only [hheader] at h
    split at h
    · unfold Table.decodeRecords at h
      obtain ⟨hlocated, hfailure⟩ := place_of_readRecords (c := c)
      rw [hend] at hlocated hfailure
      cases hfold : (readRecords c).1.foldlM Table.addRecord {} with
      | error first =>
        simp only [hfold] at h
        cases h
        obtain ⟨located, hmem, t, hadd⟩ := exists_of_foldlM_eq_error hfold
        exact ⟨located.1, Table.place_of_addRecord hadd, hlocated located hmem⟩
      | ok t =>
        simp only [hfold, bind, Except.bind] at h
        split at h
        · rename_i last hlast
          cases h
          exact hfailure _ hlast
        · cases h
    · cases h
      exact ⟨0, rfl, Nat.zero_le _⟩

/-! ### Cuts -/

/-- The bytes of a table: the header and blocks. -/
def tableBytes (blocks : List Block) : List UInt8 :=
  encodeString tableHeader ++ blocks.flatMap Block.bytes

theorem rest_of_tableHeader {c d : ByteCursor} (h : readString c = .ok (tableHeader, d)) :
    c.rest = encodeString tableHeader ++ d.rest := by
  refine rest_of_readString h fun units next hunits => Utf16.isWellFormed_of_decode ?_
  unfold readString at h
  rw [hunits] at h
  have hheader : String.ofList (Utf16.decode units) = tableHeader :=
    congrArg Prod.fst (Except.ok.inj h)
  rw [← String.toList_ofList (l := Utf16.decode units), hheader]
  decide

namespace Table

/-- Blocks are decoded by adding their records one after the other. -/
theorem decode_tableBytes (blocks : List Block) :
    decode (tableBytes blocks) =
      (placed (encodeString tableHeader).length blocks).foldlM addRecord {} := by
  have hread := readRecords_blocks blocks (encodeString tableHeader).length []
  rw [readRecords_end, List.append_nil, List.append_nil] at hread
  rw [tableBytes, decode_header, decodeRecords, hread]
  exact bind_pure _

/-- **The bytes of a table are the header and blocks.** -/
theorem exists_blocks_of_decode {bytes : List UInt8} {t : Table} (h : decode bytes = .ok t) :
    ∃ blocks, bytes = tableBytes blocks := by
  unfold decode at h
  split at h
  · cases h
  rename_i header c hheader
  split at h
  · rename_i heq
    subst heq
    have hbytes : bytes = _ := rest_of_tableHeader hheader
    simp only [decodeRecords, bind_eq_ok] at h
    obtain ⟨last, -, hend⟩ := h
    split at hend
    · cases hend
    · rename_i hnone
      obtain ⟨blocks, hblocks, -⟩ := blocks_of_readRecords (Prod.ext rfl hnone)
      exact ⟨blocks, by rw [hbytes, hblocks, tableBytes]⟩
  · cases h

/-- A part of the header is not one. -/
theorem decode_take_header {n : Nat} (hn : n < (encodeString tableHeader).length)
    (rest : List UInt8) :
    ∃ place, decode ((encodeString tableHeader ++ rest).take n) =
      .error ⟨.badHeader, some place⟩ := by
  obtain ⟨place, hcut⟩ := (delimits_string (s := tableHeader) (by decide)).cut 0 n hn
  refine ⟨place, ?_⟩
  rw [List.take_append_of_le_length (Nat.le_of_lt hn), decode, hcut]

/-- Blocks whose rows are a table, and a part of one more, are truncated. -/
theorem decode_append_take {blocks : List Block} {t : Table}
    (h : decode (tableBytes blocks) = .ok t) (block : Block) {m : Nat} (hpos : 0 < m)
    (hm : m < block.bytes.length) :
    ∃ place, decode (tableBytes blocks ++ block.bytes.take m) =
      .error ⟨.truncated, some place⟩ := by
  rw [decode_tableBytes] at h
  have hread := readRecords_blocks blocks (encodeString tableHeader).length (block.bytes.take m)
  obtain ⟨place, hcut⟩ := block.delimits.cut _ m hm
  rw [readRecords_of_error (List.ne_nil_of_length_pos (by
    rw [List.length_take]; omega)) hcut, List.append_nil] at hread
  refine ⟨place, ?_⟩
  rw [tableBytes, List.append_assoc, decode_header, decodeRecords, hread]
  simp only [h]
  rfl

/-- What is decoded from the first `n` bytes of blocks whose rows are a table. -/
structure Cut (blocks : List Block) (n : Nat) : Prop where
  /-- A part of the header is not one. -/
  header : n < (encodeString tableHeader).length →
    ∃ place, decode ((tableBytes blocks).take n) = .error ⟨.badHeader, some place⟩
  /-- Up to the end of the header or of a record, there are the rows of the records before it. -/
  whole : ∀ k, n = (tableBytes (blocks.take k)).length →
    ∃ t, decode ((tableBytes blocks).take n) = .ok t ∧
      (placed (encodeString tableHeader).length (blocks.take k)).foldlM addRecord {} = .ok t
  /-- Everywhere else the table is truncated. -/
  inside : (encodeString tableHeader).length ≤ n →
    (∀ k, n ≠ (tableBytes (blocks.take k)).length) →
    ∃ place, decode ((tableBytes blocks).take n) = .error ⟨.truncated, some place⟩

theorem take_tableBytes (blocks : List Block) (k : Nat) :
    (tableBytes blocks).take (tableBytes (blocks.take k)).length = tableBytes (blocks.take k) := by
  have hall : tableBytes blocks =
      tableBytes (blocks.take k) ++ (blocks.drop k).flatMap Block.bytes := by
    rw [tableBytes, tableBytes, List.append_assoc, ← List.flatMap_append, List.take_append_drop]
  rw [hall, List.take_left]

/-- The rows of the first records are a table if those of all records are. -/
theorem exists_decode_take {blocks : List Block} {t : Table}
    (h : decode (tableBytes blocks) = .ok t) (k : Nat) :
    ∃ t', decode (tableBytes (blocks.take k)) = .ok t' := by
  rw [decode_tableBytes, ← List.take_append_drop k blocks, placed_append, List.foldlM_append,
    bind_eq_ok] at h
  obtain ⟨t', ht', -⟩ := h
  exact ⟨t', (decode_tableBytes _).trans ht'⟩

theorem cut_of_decode {blocks : List Block} {t : Table} (h : decode (tableBytes blocks) = .ok t)
    {n : Nat} (hn : n < (tableBytes blocks).length) : Cut blocks n where
  header hlt := decode_take_header hlt _
  whole k hk := by
    obtain ⟨t', ht'⟩ := exists_decode_take h k
    rw [hk, take_tableBytes]
    exact ⟨t', ht', decode_tableBytes _ ▸ ht'⟩
  inside hge hends := by
    obtain ⟨m, rfl⟩ := Nat.exists_eq_add_of_le hge
    rw [tableBytes, List.length_append] at hn
    obtain ⟨k, block, rest, -, hrest, htake⟩ :=
      exists_take_flatMap Block.bytes (Nat.add_lt_add_iff_left.1 hn)
    have hbytes : (tableBytes blocks).take ((encodeString tableHeader).length + m) =
        tableBytes (blocks.take k) ++ block.bytes.take rest := by
      rw [tableBytes, List.take_length_add_append, htake, tableBytes, List.append_assoc]
    -- nothing of the block would be the end of the block before it
    have hpos : 0 < rest := by
      refine Nat.pos_of_ne_zero fun hzero => hends k ?_
      rw [hzero, List.take_zero, List.append_nil] at hbytes
      rw [← hbytes, List.length_take, tableBytes, List.length_append]
      omega
    obtain ⟨t', ht'⟩ := exists_decode_take h k
    rw [hbytes]
    exact decode_append_take ht' block hpos hrest

/-- **Truncation is always detected.**  The bytes of a table are the header and one block for each
record, and what is decoded from fewer of them is a bad header before the end of the header, the
rows of the records so far at the end of the header or of a record, and truncated everywhere else.
Whatever the bytes are, an error has a place in them or at their end. -/
theorem truncation_detected :
    (∀ bytes t, decode bytes = .ok t →
      ∃ blocks, bytes = tableBytes blocks ∧ ∀ n < bytes.length, Cut blocks n) ∧
    ∀ bytes e, decode bytes = .error e →
      ∃ place, e.offset = some place ∧ place ≤ bytes.length := by
  refine ⟨fun bytes t h => ?_, fun bytes e h => place_of_decode h⟩
  obtain ⟨blocks, rfl⟩ := exists_blocks_of_decode h
  exact ⟨blocks, rfl, fun n hn => cut_of_decode h hn⟩

/-- A table with one property, and all cuts of it.  One that lacks the last byte lacks half of the
code unit that starts the byte before, and that is where it is truncated. -/
theorem truncation_detected_property :
    ∃ bytes t e,
      bytes = encodeString tableHeader ++
        [[.byte 'p'.toUInt8, .int 0, .str "Name", .str "x"]].flatMap encodeRecord ∧
      decode bytes = .ok t ∧ t.properties = [⟨0, "Name", "x"⟩] ∧
      (∃ blocks, bytes = tableBytes blocks ∧ ∀ n < bytes.length, Cut blocks n) ∧
      decode bytes.dropLast = .error e ∧ e.fault = .truncated ∧
      ∃ place, e.offset = some place ∧ place ≤ bytes.dropLast.length ∧
        place = bytes.length - 2 ∧ place = 70 := by
  have hstorable : ∀ r ∈ [[.byte 'p'.toUInt8, .int 0, .str "Name", .str "x"]],
      Record.IsStorable r := by
    refine List.forall_mem_singleton.2 ⟨by decide, ?_⟩
    simp only [List.forall_mem_cons, Value.isStorable_byte, Value.isStorable_int,
      Value.isStorable_str, List.not_mem_nil, false_implies, implies_true, and_true, true_and]
    decide
  have hok : decode (encodeString tableHeader ++
      [[.byte 'p'.toUInt8, .int 0, .str "Name", .str "x"]].flatMap encodeRecord) =
      .ok { properties := [⟨0, "Name", "x"⟩] } := (decode_eq hstorable).trans rfl
  have hcut : decode (encodeString tableHeader ++
      [[.byte 'p'.toUInt8, .int 0, .str "Name", .str "x"]].flatMap encodeRecord).dropLast =
      .error ⟨.truncated, some 70⟩ := by
    decide +kernel
  obtain ⟨place, hplace, hle⟩ := truncation_detected.2 _ _ hcut
  cases hplace
  exact ⟨_, _, _, rfl, hok, rfl, truncation_detected.1 _ _ hok, hcut, rfl, _, rfl, hle,
    by decide +kernel, rfl⟩

end Table

end CompiledGrammar
