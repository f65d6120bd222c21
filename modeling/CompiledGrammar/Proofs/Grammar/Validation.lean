import CompiledGrammar.Grammar.Link
import CompiledGrammar.Proofs.Table.Layout

/-!
# Which tables can be linked

Linking goes through the rows of a table and stops at the first thing that is wrong with it.  A
table is `Table.Valid` if nothing is: the definition says so without an order.

* A row refers to rows that exist if it is `Within` the sizes of the parts of the table; checking
  its list of references comes to that (`ProductionRow.forall_references`,
  `Group.forall_references`, `DfaRow.forall_references`, `LalrRow.forall_references`).
* `Table.complete_eq_ok` says that a table has no missing rows exactly if it is made of rows.
* `Table.exists_link_iff` says that a table can be linked exactly if it is valid.
-/

namespace CompiledGrammar

/-! ### Missing rows -/

theorem presentFrom_eq_ok {α : Type} {part : TablePart} {rows : List (Option α)} {i : Nat}
    {found : List α} : presentFrom part i rows = .ok found ↔ found.map some = rows := by
  induction rows generalizing i found with
  | nil =>
    rw [List.map_eq_nil_iff]
    exact ⟨fun h => by cases h; rfl, fun h => by rw [h]; rfl⟩
  | cons row rows ih =>
    cases row with
    | none => cases found <;> simp [presentFrom]
    | some row =>
      -- the first row that is found is the first row, and the others are found in the others
      rw [List.map_eq_cons_iff]
      cases hrest : presentFrom part (i + 1) rows with
      | error e =>
        simp only [presentFrom, hrest, Except.map, reduceCtorEq, false_iff]
        rintro ⟨a, as, -, -, has⟩
        rw [ih.2 has] at hrest
        cases hrest
      | ok rest =>
        simp only [presentFrom, hrest, Except.map, Except.ok.injEq, Option.some.injEq]
        constructor
        · rintro rfl
          exact ⟨row, rest, rfl, rfl, ih.1 hrest⟩
        · rintro ⟨a, as, rfl, rfl, has⟩
          rw [ih.2 has] at hrest
          cases hrest; rfl

/-- The rows as a table that lacks none of them. -/
def Rows.toTable (r : Rows) : Table :=
  { properties := r.properties
    charsets := r.charsets.map some
    symbols := r.symbols.map some
    groups := r.groups.map some
    productions := r.productions.map some
    dfaStates := r.dfaStates.map some
    lalrStates := r.lalrStates.map some
    initial := some (r.dfaInitial, r.lalrInitial) }

theorem Table.complete_eq_ok {t : Table} {r : Rows} : t.complete = .ok r ↔ r.toTable = t := by
  simp only [Table.complete, bind_eq_ok, presentFrom_eq_ok]
  constructor
  · rintro ⟨charsets, hcharsets, symbols, hsymbols, groups, hgroups, productions, hproductions,
      dfaStates, hdfaStates, lalrStates, hlalrStates, h⟩
    split at h
    · cases h
    · rename_i hinitial
      cases h
      simp only [Rows.toTable, hcharsets, hsymbols, hgroups, hproductions, hdfaStates, hlalrStates,
        ← hinitial]
  · rintro rfl
    exact ⟨_, rfl, _, rfl, _, rfl, _, rfl, _, rfl, _, rfl, rfl⟩

theorem Rows.size_toTable (r : Rows) : r.toTable.size = r.size := by
  funext part
  cases part <;> simp only [Table.size, Rows.size, Rows.toTable, List.length_map]

/-- Everything that was announced has been supplied. -/
structure Table.IsComplete (t : Table) : Prop where
  charsets : none ∉ t.charsets
  symbols : none ∉ t.symbols
  groups : none ∉ t.groups
  productions : none ∉ t.productions
  dfaStates : none ∉ t.dfaStates
  lalrStates : none ∉ t.lalrStates
  initial : t.initial ≠ none

theorem exists_map_some_iff {α : Type} {rows : List (Option α)} :
    (∃ found : List α, found.map some = rows) ↔ none ∉ rows := by
  constructor
  · rintro ⟨found, rfl⟩ hmem
    obtain ⟨_, -, h⟩ := List.mem_map.1 hmem
    cases h
  · intro h
    induction rows with
    | nil => exact ⟨[], rfl⟩
    | cons row rows ih =>
      obtain ⟨found, rfl⟩ := ih fun hmem => h (List.mem_cons_of_mem _ hmem)
      cases row with
      | none => exact absurd List.mem_cons_self h
      | some a => exact ⟨a :: found, rfl⟩

theorem Table.isComplete_iff {t : Table} : t.IsComplete ↔ ∃ r : Rows, r.toTable = t := by
  constructor
  · rintro ⟨hcharsets, hsymbols, hgroups, hproductions, hdfaStates, hlalrStates, hinitial⟩
    obtain ⟨charsets, hcharsets⟩ := exists_map_some_iff.2 hcharsets
    obtain ⟨symbols, hsymbols⟩ := exists_map_some_iff.2 hsymbols
    obtain ⟨groups, hgroups⟩ := exists_map_some_iff.2 hgroups
    obtain ⟨productions, hproductions⟩ := exists_map_some_iff.2 hproductions
    obtain ⟨dfaStates, hdfaStates⟩ := exists_map_some_iff.2 hdfaStates
    obtain ⟨lalrStates, hlalrStates⟩ := exists_map_some_iff.2 hlalrStates
    obtain ⟨⟨dfaInitial, lalrInitial⟩, hinitial⟩ := Option.ne_none_iff_exists'.1 hinitial
    refine ⟨⟨t.properties, charsets, symbols, groups, productions, dfaStates, lalrStates,
      dfaInitial, lalrInitial⟩, ?_⟩
    simp only [Rows.toTable, hcharsets, hsymbols, hgroups, hproductions, hdfaStates, hlalrStates,
      ← hinitial]
  · rintro ⟨r, rfl⟩
    exact ⟨exists_map_some_iff.1 ⟨_, rfl⟩, exists_map_some_iff.1 ⟨_, rfl⟩,
      exists_map_some_iff.1 ⟨_, rfl⟩, exists_map_some_iff.1 ⟨_, rfl⟩,
      exists_map_some_iff.1 ⟨_, rfl⟩, exists_map_some_iff.1 ⟨_, rfl⟩, nofun⟩

/-! ### References -/

section

variable {size : TablePart → Nat}

/-- What a production refers to exists, if the parts have the given sizes. -/
structure ProductionRow.Within (size : TablePart → Nat) (p : ProductionRow) : Prop where
  head : p.head < size .symbols
  handles : ∀ h ∈ p.handles, h < size .symbols

/-- What a group refers to exists. -/
structure Group.Within (size : TablePart → Nat) (g : Group) : Prop where
  container : g.container < size .symbols
  startSymbol : g.startSymbol < size .symbols
  endSymbol : g.endSymbol < size .symbols
  nesting : ∀ i ∈ g.nesting, i < size .groups

/-- What a state of the lexical automaton refers to exists. -/
structure DfaRow.Within (size : TablePart → Nat) (s : DfaRow) : Prop where
  accept : ∀ symbol, s.accept = some symbol → symbol < size .symbols
  charset : ∀ e ∈ s.edges, e.charset < size .charsets
  target : ∀ e ∈ s.edges, e.target < size .dfaStates

/-- What an action refers to exists. -/
def Action.Within (size : TablePart → Nat) : Action → Prop
  | .shift state => state < size .lalrStates
  | .goto state => state < size .lalrStates
  | .reduce production => production < size .productions
  | .accept => True

/-- What a state of the LALR automaton refers to exists. -/
structure LalrRow.Within (size : TablePart → Nat) (s : LalrRow) : Prop where
  symbol : ∀ a ∈ s.actions, a.1 < size .symbols
  action : ∀ a ∈ s.actions, a.2.Within size

theorem ProductionRow.forall_references {p : ProductionRow} :
    (∀ ref ∈ p.references, ref.index < size ref.part) ↔ p.Within size := by
  simp only [references, List.forall_mem_map, List.forall_mem_cons]
  exact ⟨fun h => ⟨h.1, h.2⟩, fun h => ⟨h.head, h.handles⟩⟩

theorem Group.forall_references {g : Group} :
    (∀ ref ∈ g.references, ref.index < size ref.part) ↔ g.Within size := by
  simp only [references, List.forall_mem_append, List.forall_mem_map, List.forall_mem_cons]
  exact ⟨fun ⟨⟨h1, h2, h3, _⟩, h4⟩ => ⟨h1, h2, h3, h4⟩,
    fun h => ⟨⟨h.container, h.startSymbol, h.endSymbol, nofun⟩, h.nesting⟩⟩

theorem DfaRow.forall_references {s : DfaRow} :
    (∀ ref ∈ s.references, ref.index < size ref.part) ↔ s.Within size := by
  simp only [references, List.forall_mem_append, List.forall_mem_map, Option.mem_toList,
    List.forall_mem_flatMap, List.forall_mem_cons]
  exact ⟨fun h => ⟨h.1, fun e he => (h.2 e he).1, fun e he => (h.2 e he).2.1⟩,
    fun h => ⟨h.accept, fun e he => ⟨h.charset e he, h.target e he, nofun⟩⟩⟩

theorem Action.forall_references {a : Action} :
    (∀ ref ∈ a.references, ref.index < size ref.part) ↔ a.Within size := by
  cases a <;> simp [references, Within]

theorem LalrRow.forall_references {s : LalrRow} :
    (∀ ref ∈ s.references, ref.index < size ref.part) ↔ s.Within size := by
  simp only [references, List.forall_mem_flatMap, List.forall_mem_cons, Action.forall_references]
  exact ⟨fun h => ⟨fun a ha => (h a ha).1, fun a ha => (h a ha).2⟩,
    fun h a ha => ⟨h.symbol a ha, h.action a ha⟩⟩

end

theorem Rows.checkReferences_eq_ok {r : Rows} :
    r.checkReferences = .ok () ↔ ∀ ref ∈ r.references, ref.index < r.size ref.part := by
  unfold checkReferences
  cases h : r.references.find? fun ref => r.size ref.part ≤ ref.index with
  | none => simpa using h
  | some ref =>
    have hge := List.find?_some h
    have hmem := List.mem_of_find?_eq_some h
    simp only [reduceCtorEq, false_iff]
    exact fun hall => absurd (hall ref hmem) (Nat.not_lt.2 (by simpa using hge))

/-! ### Valid tables -/

/-- The table has a symbol of a kind. -/
def Table.HasKind (t : Table) (kind : SymbolKind) : Prop :=
  ∃ s, some s ∈ t.symbols ∧ s.kind = kind

/-- Nothing is missing from a table, and every number in a row of it refers to a row that it has
room for. -/
structure Table.Valid (t : Table) : Prop where
  complete : t.IsComplete
  endOfFile : t.HasKind .endOfFile
  error : t.HasKind .error
  dfaInitial : ∀ states, t.initial = some states → states.1 < t.size .dfaStates
  lalrInitial : ∀ states, t.initial = some states → states.2 < t.size .lalrStates
  productions : ∀ p, some p ∈ t.productions → p.Within t.size
  groups : ∀ g, some g ∈ t.groups → g.Within t.size
  dfaStates : ∀ s, some s ∈ t.dfaStates → s.Within t.size
  lalrStates : ∀ s, some s ∈ t.lalrStates → s.Within t.size

namespace Rows

variable {r : Rows} {kind : SymbolKind} {i : SymbolIdx}

theorem findKind_eq_ok : r.findKind kind = .ok i ↔
    ∃ s, r.symbols.find? (·.kind == kind) = some s ∧ s.index = i := by
  unfold findKind
  cases r.symbols.find? (·.kind == kind) with
  | none => simp
  | some s => simp

theorem exists_findKind_iff : (∃ i, r.findKind kind = .ok i) ↔ r.toTable.HasKind kind := by
  simp only [findKind_eq_ok, Table.HasKind, toTable, List.mem_map, Option.some.injEq,
    exists_eq_right]
  constructor
  · rintro ⟨i, s, hfind, -⟩
    exact ⟨s, List.mem_of_find?_eq_some hfind, by simpa using List.find?_some hfind⟩
  · rintro ⟨s, hs, hkind⟩
    cases hfind : r.symbols.find? (·.kind == kind) with
    | none => exact absurd (List.find?_eq_none.1 hfind s hs) (by simp [hkind])
    | some found => exact ⟨found.index, found, rfl, rfl⟩

/-- The rows refer to rows that exist. -/
theorem forall_references :
    (∀ ref ∈ r.references, ref.index < r.size ref.part) ↔
      r.dfaInitial < r.size .dfaStates ∧ r.lalrInitial < r.size .lalrStates ∧
      (∀ p ∈ r.productions, p.Within r.size) ∧ (∀ g ∈ r.groups, g.Within r.size) ∧
      (∀ s ∈ r.dfaStates, s.Within r.size) ∧ ∀ s ∈ r.lalrStates, s.Within r.size := by
  simp only [references, List.forall_mem_append, List.forall_mem_flatMap, List.forall_mem_cons,
    ProductionRow.forall_references, Group.forall_references, DfaRow.forall_references,
    LalrRow.forall_references, List.not_mem_nil, false_implies, implies_true, and_true, and_assoc]

theorem valid_toTable_iff : r.toTable.Valid ↔
    (∃ eofSymbol, r.findKind .endOfFile = .ok eofSymbol) ∧
      (∃ errorSymbol, r.findKind .error = .ok errorSymbol) ∧ r.checkReferences = .ok () := by
  rw [exists_findKind_iff, exists_findKind_iff, checkReferences_eq_ok, forall_references,
    ← size_toTable]
  have hmem {α : Type} (rows : List α) (P : α → Prop) :
      (∀ row, some row ∈ rows.map some → P row) ↔ ∀ row ∈ rows, P row := by
    simp
  constructor
  · rintro ⟨-, heof, herror, hdfa, hlalr, hproductions, hgroups, hdfaStates, hlalrStates⟩
    exact ⟨heof, herror, hdfa _ rfl, hlalr _ rfl, (hmem _ _).1 hproductions, (hmem _ _).1 hgroups,
      (hmem _ _).1 hdfaStates, (hmem _ _).1 hlalrStates⟩
  · rintro ⟨heof, herror, hdfa, hlalr, hproductions, hgroups, hdfaStates, hlalrStates⟩
    exact ⟨Table.isComplete_iff.2 ⟨r, rfl⟩, heof, herror, fun states h => by cases h; exact hdfa,
      fun states h => by cases h; exact hlalr, (hmem _ _).2 hproductions, (hmem _ _).2 hgroups,
      (hmem _ _).2 hdfaStates, (hmem _ _).2 hlalrStates⟩

end Rows

namespace Table

variable {t : Table} {g : Grammar}

theorem link_eq_ok : t.link = .ok g ↔
    ∃ r : Rows, r.toTable = t ∧ ∃ eofSymbol, r.findKind .endOfFile = .ok eofSymbol ∧
      ∃ errorSymbol, r.findKind .error = .ok errorSymbol ∧ r.checkReferences = .ok () ∧
        r.toGrammar eofSymbol errorSymbol = g := by
  simp only [link, bind_eq_ok, complete_eq_ok, pure, Except.pure, Except.ok.injEq]
  constructor
  · rintro ⟨r, hr, eofSymbol, heof, errorSymbol, herror, _, hcheck, h⟩
    exact ⟨r, hr, eofSymbol, heof, errorSymbol, herror, hcheck, h⟩
  · rintro ⟨r, hr, eofSymbol, heof, errorSymbol, herror, hcheck, h⟩
    exact ⟨r, hr, eofSymbol, heof, errorSymbol, herror, (), hcheck, h⟩

/-- **A table can be linked exactly if it is valid.** -/
theorem exists_link_iff : (∃ g, t.link = .ok g) ↔ t.Valid := by
  constructor
  · rintro ⟨g, h⟩
    obtain ⟨r, rfl, eofSymbol, heof, errorSymbol, herror, hcheck, -⟩ := link_eq_ok.1 h
    exact Rows.valid_toTable_iff.2 ⟨⟨_, heof⟩, ⟨_, herror⟩, hcheck⟩
  · intro h
    obtain ⟨r, rfl⟩ := isComplete_iff.1 h.complete
    obtain ⟨⟨eofSymbol, heof⟩, ⟨errorSymbol, herror⟩, hcheck⟩ := Rows.valid_toTable_iff.1 h
    exact ⟨_, link_eq_ok.2 ⟨r, rfl, _, heof, _, herror, hcheck, rfl⟩⟩

end Table

/-- Bytes are a grammar exactly if they are a valid table. -/
theorem Grammar.exists_ofBytes_iff {bytes : List UInt8} :
    (∃ g, Grammar.ofBytes bytes = .ok g) ↔ ∃ t, Table.decode bytes = .ok t ∧ t.Valid := by
  simp only [Grammar.ofBytes, bind_eq_ok, mapError_eq_ok, ← Table.exists_link_iff]
  exact ⟨fun ⟨g, t, ht, hg⟩ => ⟨t, ht, g, hg⟩, fun ⟨t, ht, g, hg⟩ => ⟨g, t, ht, hg⟩⟩

end CompiledGrammar
