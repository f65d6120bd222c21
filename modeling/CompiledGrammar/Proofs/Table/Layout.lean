import CompiledGrammar.Table.Decode
import Mathlib.Data.List.Induction

/-!
# How a decoded table is laid out

What a table is like once all records have been added to it, whatever order they come in.

* `Table.Change` says all that one record can do to a table (`Table.change_of_addRecord`); what
  decoding guarantees follows from it by cases.
* Every row stands at the position of its number (`Table.ordered_of_decode`).
* Every part has as many rows as the last record of sizes announces, and none if there is no such
  record (`Table.size_of_decode`).
-/

namespace CompiledGrammar

theorem bind_eq_ok {ε α β : Type} {x : Except ε α} {f : α → Except ε β} {b : β} :
    (x >>= f) = .ok b ↔ ∃ a, x = .ok a ∧ f a = .ok b := by
  cases x with
  | error e => simp [bind, Except.bind]
  | ok a => simp [bind, Except.bind]

theorem mapError_eq_ok {ε ε' α : Type} {x : Except ε α} {f : ε → ε'} {a : α} :
    x.mapError f = .ok a ↔ x = .ok a := by
  cases x with
  | error e => exact ⟨nofun, nofun⟩
  | ok b => exact ⟨fun h => congrArg _ (Except.ok.inj h), fun h => congrArg _ (Except.ok.inj h)⟩

/-! ### Rows at the positions of their numbers -/

/-- Every row that has been supplied stands at the position of its number. -/
def Numbered {α : Type} (number : α → Nat) (rows : List (Option α)) : Prop :=
  ∀ i row, rows[i]? = some (some row) → number row = i

section

variable {α : Type} {number : α → Nat} {rows rows' : List (Option α)}

theorem numbered_replicate (n : Nat) : Numbered number (List.replicate n none) := by
  intro i row h
  rw [List.getElem?_replicate] at h
  split at h <;> cases h

theorem Numbered.set (hrows : Numbered number rows) (r : α) :
    Numbered number (rows.set (number r) (some r)) := by
  intro i other hi
  rw [List.getElem?_set] at hi
  split at hi
  · rename_i heq
    split at hi
    · simp only [Option.some.injEq] at hi
      rw [← hi, heq]
    · cases hi
  · exact hrows i other hi

theorem placeRow_eq_ok {part : TablePart} {i : Nat} {r : α} :
    placeRow part i r rows = .ok rows' ↔ i < rows.length ∧ rows.set i (some r) = rows' := by
  unfold placeRow
  split
  · rename_i hlt
    simp only [Except.ok.injEq, hlt, true_and]
  · rename_i hge
    simp only [reduceCtorEq, hge, false_and]

end

/-! ### Actions in order -/

/-- The actions are in increasing order of their symbols, one for each symbol. -/
def LalrRow.IsSorted (s : LalrRow) : Prop :=
  s.actions.Pairwise fun a b => a.1 < b.1

theorem ActionMap.mem_insert {s : SymbolIdx} {a : Action} {m : ActionMap} {e : SymbolIdx × Action}
    (he : e ∈ ActionMap.insert s a m) : e = (s, a) ∨ e ∈ m := by
  induction m with
  | nil => exact Or.inl (List.mem_singleton.1 he)
  | cons first rest ih =>
    unfold ActionMap.insert at he
    split at he
    · exact List.mem_cons.1 he
    split at he
    · exact (List.mem_cons.1 he).imp id (List.mem_cons_of_mem _)
    · rcases List.mem_cons.1 he with rfl | he
      · exact Or.inr List.mem_cons_self
      · exact (ih he).imp id (List.mem_cons_of_mem _)

theorem ActionMap.pairwise_insert {s : SymbolIdx} {a : Action} {m : ActionMap}
    (hm : m.Pairwise fun a b => a.1 < b.1) :
    (ActionMap.insert s a m).Pairwise fun a b => a.1 < b.1 := by
  induction m with
  | nil => exact List.pairwise_singleton _ _
  | cons first rest ih =>
    obtain ⟨hfirst, hrest⟩ := List.pairwise_cons.1 hm
    unfold ActionMap.insert
    split
    · rename_i hlt
      refine List.pairwise_cons.2 ⟨fun e he => ?_, hm⟩
      rcases List.mem_cons.1 he with rfl | he
      · exact hlt
      · exact Nat.lt_trans hlt (hfirst e he)
    split
    · rename_i heq
      exact List.pairwise_cons.2 ⟨fun e he => heq ▸ hfirst e he, hrest⟩
    · rename_i hge hne
      refine List.pairwise_cons.2 ⟨fun e he => ?_, ih hrest⟩
      rcases ActionMap.mem_insert he with rfl | he
      · exact Nat.lt_of_le_of_ne (Nat.le_of_not_lt hge) (Ne.symm hne)
      · exact hfirst e he

theorem Tail.pairwise_actions {acc m : ActionMap} {r : Record}
    (hacc : acc.Pairwise fun a b => a.1 < b.1) (h : Tail.actions acc r = .ok m) :
    m.Pairwise fun a b => a.1 < b.1 := by
  fun_induction Tail.actions acc r with
  | case1 acc symbol kind target _ r ih =>
    simp only [bind_eq_ok] at h
    obtain ⟨symbol, -, code, -, target, -, h⟩ := h
    split at h
    · exact ih _ _ (ActionMap.pairwise_insert hacc) h
    · cases h
  | case2 => cases h; exact hacc

/-! ### What a record does -/

namespace Table

variable {t t' : Table} {kind : UInt8} {r : Record}

/-- All that a record of some kind can do to a table. -/
inductive Change (t : Table) (kind : UInt8) (r : Record) : Table → Prop where
  /-- A property comes last. -/
  | property (p : Property) :
      kind ≠ 't'.toUInt8 → Change t kind r { t with properties := t.properties ++ [p] }
  /-- The sizes empty all parts. -/
  | sizes {symbols charsets productions dfaStates lalrStates groups : Nat} :
      kind = 't'.toUInt8 →
      Field.count 't' r[1]? = .ok symbols → Field.count 't' r[2]? = .ok charsets →
      Field.count 't' r[3]? = .ok productions → Field.count 't' r[4]? = .ok dfaStates →
      Field.count 't' r[5]? = .ok lalrStates → Field.count 't' r[6]? = .ok groups →
      Change t kind r
        { t with
          symbols := List.replicate symbols none
          charsets := List.replicate charsets none
          productions := List.replicate productions none
          dfaStates := List.replicate dfaStates none
          lalrStates := List.replicate lalrStates none
          groups := List.replicate groups none }
  /-- A character set takes its place. -/
  | charset (c : CharacterSet) :
      kind ≠ 't'.toUInt8 → Change t kind r { t with charsets := t.charsets.set c.index (some c) }
  /-- A symbol takes its place. -/
  | symbol (s : SymbolRow) :
      kind ≠ 't'.toUInt8 → Change t kind r { t with symbols := t.symbols.set s.index (some s) }
  /-- A group takes its place. -/
  | group (g : Group) :
      kind ≠ 't'.toUInt8 → Change t kind r { t with groups := t.groups.set g.index (some g) }
  /-- A production takes its place. -/
  | production (p : ProductionRow) :
      kind ≠ 't'.toUInt8 →
      Change t kind r { t with productions := t.productions.set p.index (some p) }
  /-- A state of the lexical automaton takes its place. -/
  | dfaState (s : DfaRow) :
      kind ≠ 't'.toUInt8 → Change t kind r { t with dfaStates := t.dfaStates.set s.index (some s) }
  /-- A state of the LALR automaton takes its place. -/
  | lalrState (s : LalrRow) :
      kind ≠ 't'.toUInt8 → s.IsSorted →
      Change t kind r { t with lalrStates := t.lalrStates.set s.index (some s) }
  /-- The initial states are set. -/
  | initial (states : DfaStateIdx × LalrStateIdx) :
      kind ≠ 't'.toUInt8 → Change t kind r { t with initial := some states }

theorem change_of_addRow (h : t.addRow kind r = .ok t') : Change t kind r t' := by
  unfold addRow at h
  split at h
  · rename_i hkind
    simp only [addProperty, bind_eq_ok] at h
    obtain ⟨_, -, _, -, _, -, h⟩ := h
    cases h; exact .property _ (hkind ▸ by decide)
  split at h
  · rename_i hkind
    simp only [setSizes, bind_eq_ok] at h
    obtain ⟨_, h1, _, h2, _, h3, _, h4, _, h5, _, h6, h⟩ := h
    cases h; exact .sizes hkind h1 h2 h3 h4 h5 h6
  -- all other kinds but the initial states place a row
  rename_i hkind
  split at h
  · simp only [addCharset, bind_eq_ok, placeRow_eq_ok] at h
    obtain ⟨i, -, plane, -, _, -, _, -, ranges, -, _, ⟨-, rfl⟩, h⟩ := h
    cases h; exact .charset ⟨i, plane.toUInt16, ranges⟩ hkind
  split at h
  · simp only [addSymbol, bind_eq_ok] at h
    obtain ⟨i, -, _, -, h⟩ := h
    split at h
    · cases h
    · rename_i symbolKind _
      simp only [bind_eq_ok, placeRow_eq_ok] at h
      obtain ⟨name, -, _, ⟨-, rfl⟩, h⟩ := h
      cases h; exact .symbol ⟨i, name, symbolKind⟩ hkind
  split at h
  · simp only [addGroup, bind_eq_ok] at h
    obtain ⟨i, -, _, -, _, -, _, -, _, -, nesting, -, name, -, container, -, start, -, stop, -,
      h⟩ := h
    split at h
    · cases h
    · cases h
    · rename_i advance ending _ _
      simp only [bind_eq_ok, placeRow_eq_ok] at h
      obtain ⟨_, ⟨-, rfl⟩, h⟩ := h
      cases h; exact .group ⟨i, name, container, start, stop, advance, ending, nesting⟩ hkind
  split at h
  · simp only [addProduction, bind_eq_ok, placeRow_eq_ok] at h
    obtain ⟨i, -, head, -, _, -, handles, -, _, ⟨-, rfl⟩, h⟩ := h
    cases h; exact .production ⟨i, head, handles⟩ hkind
  split at h
  · simp only [setInitial, bind_eq_ok] at h
    obtain ⟨_, -, _, -, h⟩ := h
    cases h; exact .initial _ hkind
  split at h
  · simp only [addDfaState, bind_eq_ok] at h
    obtain ⟨i, -, _, -, _, -, h⟩ := h
    split at h <;>
    · simp only [bind_eq_ok, placeRow_eq_ok] at h
      obtain ⟨accept, -, edges, -, _, ⟨-, rfl⟩, h⟩ := h
      cases h; exact .dfaState ⟨i, accept, edges⟩ hkind
  split at h
  · simp only [addLalrState, bind_eq_ok, placeRow_eq_ok] at h
    obtain ⟨i, -, _, -, actions, hactions, _, ⟨-, rfl⟩, h⟩ := h
    cases h; exact .lalrState ⟨i, actions⟩ hkind (Tail.pairwise_actions .nil hactions)
  · cases h

/-- A record starts with the byte of its kind. -/
theorem change_of_addRecord {located : Nat × Record} (h : t.addRecord located = .ok t') :
    ∃ kind, located.2.head? = some (.byte kind) ∧ Change t kind located.2 t' := by
  obtain ⟨offset, r⟩ := located
  unfold addRecord at h
  dsimp only at h
  split at h
  · exact ⟨_, rfl, change_of_addRow (mapError_eq_ok.1 h)⟩
  · cases h

/-! ### All records -/

/-- The records that come after the header. -/
def recordsOf (bytes : List UInt8) : List Record :=
  match readString ⟨0, bytes⟩ with
  | .ok (_, c) => (readRecords c).1.map Prod.snd
  | .error _ => []

theorem foldlM_of_decode {bytes : List UInt8} (h : decode bytes = .ok t) :
    ∃ located : List (Nat × Record),
      located.map Prod.snd = recordsOf bytes ∧ located.foldlM addRecord {} = .ok t := by
  unfold decode at h
  unfold recordsOf
  split at h
  · cases h
  · rename_i c hread
    rw [hread]
    split at h
    · simp only [decodeRecords, bind_eq_ok] at h
      obtain ⟨last, hfold, hend⟩ := h
      refine ⟨_, rfl, ?_⟩
      split at hend
      · cases hend
      · cases hend; exact hfold
    · cases h

theorem foldlM_concat_eq_ok {located : List (Nat × Record)} {last : Nat × Record} :
    (located ++ [last]).foldlM addRecord t = .ok t' ↔
      ∃ mid, located.foldlM addRecord t = .ok mid ∧ mid.addRecord last = .ok t' := by
  rw [List.foldlM_append, bind_eq_ok]
  simp only [List.foldlM_cons, List.foldlM_nil, bind_pure]

/-! ### Order -/

/-- All rows stand at the positions of their numbers, and actions are in order. -/
structure Ordered (t : Table) : Prop where
  charsets : Numbered (·.index) t.charsets
  symbols : Numbered (·.index) t.symbols
  groups : Numbered (·.index) t.groups
  productions : Numbered (·.index) t.productions
  dfaStates : Numbered (·.index) t.dfaStates
  lalrStates : Numbered (·.index) t.lalrStates
  actions : ∀ s, some s ∈ t.lalrStates → s.IsSorted

theorem ordered_empty : Ordered {} := by
  constructor
  case actions => exact nofun
  all_goals exact numbered_replicate 0

theorem Ordered.change (ht : t.Ordered) (h : Change t kind r t') : t'.Ordered := by
  cases h with
  | property p => exact { ht with }
  | initial states => exact { ht with }
  | sizes =>
    constructor
    case actions => exact fun s hs => by cases (List.mem_replicate.1 hs).2
    all_goals exact numbered_replicate _
  | charset c => exact { ht with charsets := ht.charsets.set c }
  | symbol s => exact { ht with symbols := ht.symbols.set s }
  | group g => exact { ht with groups := ht.groups.set g }
  | production p => exact { ht with productions := ht.productions.set p }
  | dfaState s => exact { ht with dfaStates := ht.dfaStates.set s }
  | lalrState s _ hsorted =>
    refine { ht with lalrStates := ht.lalrStates.set s, actions := fun other hother => ?_ }
    rcases List.mem_or_eq_of_mem_set hother with hother | heq
    · exact ht.actions other hother
    · cases heq; exact hsorted

theorem ordered_of_decode {bytes : List UInt8} (h : decode bytes = .ok t) : t.Ordered := by
  obtain ⟨located, -, hfold⟩ := foldlM_of_decode h
  clear h
  induction located using List.reverseRecOn generalizing t with
  | nil => cases hfold; exact ordered_empty
  | append_singleton located last ih =>
    obtain ⟨mid, hinit, hlast⟩ := foldlM_concat_eq_ok.1 hfold
    obtain ⟨_, -, hchange⟩ := change_of_addRecord hlast
    exact (ih hinit).change hchange

/-! ### Sizes -/

/-- The number of rows of a part, missing ones included. -/
def size (t : Table) : TablePart → Nat
  | .charsets => t.charsets.length
  | .symbols => t.symbols.length
  | .groups => t.groups.length
  | .productions => t.productions.length
  | .dfaStates => t.dfaStates.length
  | .lalrStates => t.lalrStates.length
  | .actionTargets => 0
  | .initialStates => 0

/-- The record is one of sizes. -/
def isSizes (r : Record) : Bool :=
  r.head? == some (.byte 't'.toUInt8)

/-- The count at a position of a record. -/
def countAt (r : Record) (i : Nat) : Nat :=
  match r[i]? with
  | some (.int n) => n.toInt.toNat
  | _ => 0

/-- The size of a part that a record of sizes announces. -/
def announcedIn (r : Record) : TablePart → Nat
  | .symbols => countAt r 1
  | .charsets => countAt r 2
  | .productions => countAt r 3
  | .dfaStates => countAt r 4
  | .lalrStates => countAt r 5
  | .groups => countAt r 6
  | .actionTargets => 0
  | .initialStates => 0

/-- The size of a part that the last record of sizes announces, if there is one. -/
def announced (records : List Record) (part : TablePart) : Nat :=
  match records.reverse.find? isSizes with
  | some r => announcedIn r part
  | none => 0

theorem announced_concat (records : List Record) (r : Record) (part : TablePart) :
    announced (records ++ [r]) part =
      if isSizes r then announcedIn r part else announced records part := by
  simp only [announced, List.reverse_append, List.reverse_cons, List.reverse_nil, List.nil_append,
    List.singleton_append, List.find?_cons]
  cases isSizes r <;> rfl

theorem countAt_of_count {k : Char} {i n : Nat} (h : Field.count k r[i]? = .ok n) :
    countAt r i = n := by
  unfold Field.count Field.int at h
  unfold countAt
  cases hi : r[i]? with
  | none => rw [hi] at h; cases h
  | some v =>
    rw [hi] at h
    cases v with
    | int x =>
      rw [bind_eq_ok] at h
      obtain ⟨y, hy, hn⟩ := h
      cases hy
      split at hn
      · cases hn; rfl
      · cases hn
    | _ => cases h

/-- Only a record of sizes changes sizes. -/
theorem size_change (h : Change t kind r t') (part : TablePart) :
    t'.size part = if kind = 't'.toUInt8 then announcedIn r part else t.size part := by
  cases h with
  | sizes hkind h1 h2 h3 h4 h5 h6 =>
    rw [if_pos hkind]
    cases part <;> simp only [size, announcedIn, List.length_replicate, countAt_of_count h1,
      countAt_of_count h2, countAt_of_count h3, countAt_of_count h4, countAt_of_count h5,
      countAt_of_count h6]
  | _ =>
    rw [if_neg (by assumption)]
    cases part <;> simp only [size, List.length_set]

/-- **The last record of sizes decides how many rows each part has.** -/
theorem size_of_decode {bytes : List UInt8} (h : decode bytes = .ok t) (part : TablePart) :
    t.size part = announced (recordsOf bytes) part := by
  obtain ⟨located, hrecords, hfold⟩ := foldlM_of_decode h
  rw [← hrecords]
  clear h hrecords
  induction located using List.reverseRecOn generalizing t with
  | nil => cases hfold; cases part <;> rfl
  | append_singleton located last ih =>
    obtain ⟨mid, hinit, hlast⟩ := foldlM_concat_eq_ok.1 hfold
    obtain ⟨kind, hkind, hchange⟩ := change_of_addRecord hlast
    have hsizes : isSizes last.2 = true ↔ kind = 't'.toUInt8 := by
      simp only [isSizes, hkind, beq_iff_eq, Option.some.injEq, Value.byte.injEq]
    rw [List.map_append, List.map_cons, List.map_nil, announced_concat, size_change hchange,
      ih hinit]
    simp only [hsizes]

end Table

end CompiledGrammar
