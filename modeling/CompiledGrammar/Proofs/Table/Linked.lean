import CompiledGrammar.Proofs.Grammar.WellFormed
import CompiledGrammar.Proofs.Table.RoundTrip

/-!
# Linking what was drafted

From the bytes that a draft writes to the grammar that is loaded from them.

* `Draft.Links` says what the grammar of a draft has of it: the states of the lexical automaton with
  their transitions, and the symbols of the two kinds that every grammar needs.  Whatever is loaded
  from the bytes of a draft has that (`Draft.links_of_ofBytes`).
* A draft is `Draft.IsLinkable` if the parts that refer to others refer to what exists.  Together
  with what a table can write, that is enough for its bytes to be a grammar
  (`Draft.IsLinkable.exists_ofBytes`).
-/

namespace CompiledGrammar

/-! ### The grammar of a draft -/

namespace Draft

variable {d : Draft} {g : Grammar}

/-- The members of a character set. -/
def charsetRanges (d : Draft) (k : CharSetIdx) : List CodeRange :=
  d.charsets[k]?.getD []

/-- A state of the lexical automaton as it is linked. -/
def linkedState (d : Draft) (i : DfaStateIdx) (s : DraftState) : DfaState where
  index := i
  accept := s.accept
  edges := s.edges
  lookup := Lookup.ofState d.charsetRanges ⟨i, s.accept, s.edges⟩

/-- The first symbol of a kind. -/
def symbolOfKind? (d : Draft) (kind : SymbolKind) : Option SymbolIdx :=
  d.symbols.findIdx? fun s => SymbolKind.ofCode? s.2 == some kind

/-- What a grammar has of the draft it comes from. -/
structure Links (d : Draft) (g : Grammar) : Prop where
  dfaInitial : g.dfaInitial = 0
  dfaStates : ∀ i, g.dfaStates[i]? = d.dfa[i]?.map (d.linkedState i)
  groups : g.groups.size = d.groups.length
  eofSymbol : d.symbolOfKind? .endOfFile = some g.eofSymbol
  errorSymbol : d.symbolOfKind? .error = some g.errorSymbol

/-- The rows of a linked part are the rows of the draft. -/
theorem eq_filterMap_of_map_some {α β : Type} {rows : List α} {bs : List β}
    {row : β × Nat → Option α} (h : rows.map some = bs.zipIdx.map row) :
    rows = bs.zipIdx.filterMap row := by
  have hrows := congrArg (List.filterMap id) h
  rwa [List.filterMap_map, List.filterMap_map, Function.id_comp, Function.id_comp,
    List.filterMap_some] at hrows

theorem getElem?_of_map_some {α β : Type} {rows : List α} {bs : List β} {f : β × Nat → α}
    (h : rows.map some = bs.zipIdx.map fun b => some (f b)) (i : Nat) :
    rows[i]? = bs[i]?.map fun b => f (b, i) := by
  rw [eq_filterMap_of_map_some h, List.filterMap_eq_map', List.getElem?_map, List.getElem?_zipIdx,
    Option.map_map, Nat.zero_add]
  rfl

/-- The first symbol of a kind in the rows is that of the draft. -/
theorem symbolOfKind?_of_findKind {r : Rows} (h : r.toTable = d.table) {kind : SymbolKind}
    {i : SymbolIdx} (hi : r.findKind kind = .ok i) : d.symbolOfKind? kind = some i := by
  have hrows := eq_filterMap_of_map_some (congrArg Table.symbols h)
  obtain ⟨row, hfind, rfl⟩ := Rows.findKind_eq_ok.1 hi
  -- the kind of a row is the kind of its code
  have hkind (s : (String × Int16) × Nat) :
      (symbolRow s).any (·.kind == kind) = (SymbolKind.ofCode? s.1.2 == some kind) := by
    unfold symbolRow
    cases SymbolKind.ofCode? s.1.2 <;> rfl
  rw [hrows, List.find?_filterMap, funext hkind, Option.bind_eq_some_iff] at hfind
  obtain ⟨s, hs, hrow⟩ := hfind
  have hindex : s.2 = row.index := by
    obtain ⟨k, -, hk⟩ := Option.bind_eq_some_iff.1 hrow
    cases hk
    rfl
  rw [symbolOfKind?, List.findIdx?_eq_fst_find?_zipIdx, ← hindex]
  exact Option.map_eq_some_iff.2 ⟨s, hs, rfl⟩

/-- **The grammar that is loaded from the bytes of a draft has what the draft has.** -/
theorem links_of_ofBytes (h : d.WellFormed) (hroom : d.HasRoom)
    (hg : Grammar.ofBytes d.toBytes = .ok g) : d.Links g := by
  simp only [Grammar.ofBytes, decode_eq_table h hroom, bind_eq_ok, mapError_eq_ok,
    Except.ok.injEq] at hg
  obtain ⟨_, rfl, hlink⟩ := hg
  obtain ⟨r, hr, eofSymbol, heof, errorSymbol, herror, -, rfl⟩ := Table.link_eq_ok.1 hlink
  have hcharsets : r.charsets.map some = d.charsets.zipIdx.map fun c => some ⟨c.2, 0, c.1⟩ :=
    congrArg Table.charsets hr
  have hdfaStates : r.dfaStates.map some =
      d.dfa.zipIdx.map fun s => some ⟨s.2, s.1.accept, s.1.edges⟩ := congrArg Table.dfaStates hr
  have hranges : r.charsetRanges = d.charsetRanges := by
    funext k
    rw [Rows.charsetRanges, getElem?_of_map_some hcharsets, Option.map_map, charsetRanges]
    cases d.charsets[k]? <;> rfl
  refine ⟨?_, fun i => ?_, ?_, symbolOfKind?_of_findKind hr heof,
    symbolOfKind?_of_findKind hr herror⟩
  · have hinitial := congrArg Table.initial hr
    exact congrArg Prod.fst (Option.some.inj hinitial)
  · simp only [Rows.toGrammar, List.getElem?_toArray, List.getElem?_map,
      getElem?_of_map_some hdfaStates, hranges, Option.map_map]
    rfl
  · have hlength := congrArg (fun t => t.groups.length) hr
    simpa [Rows.toTable, table, Rows.toGrammar] using hlength

end Draft

/-! ### Drafts that can be linked -/

/-- The number of rows of a part. -/
def Draft.size (d : Draft) : TablePart → Nat
  | .charsets => d.charsets.length
  | .symbols => d.symbols.length
  | .groups => d.groups.length
  | .productions => d.productions.length
  | .dfaStates => d.dfa.length
  | .lalrStates => d.lalr.length
  | .actionTargets => 0
  | .initialStates => 0

theorem Draft.size_table (d : Draft) : d.table.size = d.size := by
  funext part
  cases part <;> simp only [Table.size, Draft.size, table, List.length_map, List.length_zipIdx]

/-- The action is one, and what it refers to exists. -/
@[mk_iff]
structure DraftAction.IsLinkable (d : Draft) (a : DraftAction) : Prop where
  symbol : a.symbol < d.symbols.length
  kind : 1 ≤ a.kind.toInt ∧ a.kind.toInt ≤ 4
  shift : a.kind.toInt = 1 → a.target < d.lalr.length
  reduce : a.kind.toInt = 2 → a.target < d.productions.length
  goto : a.kind.toInt = 3 → a.target < d.lalr.length

instance (d : Draft) (a : DraftAction) : Decidable (a.IsLinkable d) :=
  decidable_of_iff _ (a.isLinkable_iff d).symm

namespace DraftAction

variable {d : Draft} {a : DraftAction}

theorem IsLinkable.isWritable (h : a.IsLinkable d) (hroom : d.HasRoom)
    (haccept : a.kind.toInt = 4 → a.target < numberLimit) : a.IsWritable where
  symbol := h.symbol.trans hroom.symbols
  kind := h.kind
  target := by
    obtain ⟨hmin, hmax⟩ := h.kind
    have hkind : a.kind.toInt = 1 ∨ a.kind.toInt = 2 ∨ a.kind.toInt = 3 ∨ a.kind.toInt = 4 := by
      omega
    rcases hkind with hkind | hkind | hkind | hkind
    · exact (h.shift hkind).trans hroom.lalr
    · exact (h.reduce hkind).trans hroom.productions
    · exact (h.goto hkind).trans hroom.lalr
    · exact haccept hkind

theorem IsLinkable.within (h : a.IsLinkable d) {action : Action}
    (ha : Action.ofCode? a.kind a.target = some action) : action.Within d.size := by
  unfold Action.ofCode? at ha
  split at ha
  all_goals cases ha
  case h_1 hkind => exact h.shift hkind
  case h_2 hkind => exact h.reduce hkind
  case h_3 hkind => exact h.goto hkind
  case h_4 => trivial

/-- Actions come from entries. -/
theorem mem_foldl_insertInto {actions : List DraftAction} {e : SymbolIdx × Action}
    (he : e ∈ actions.foldl insertInto []) :
    ∃ a ∈ actions, e.1 = a.symbol ∧ Action.ofCode? a.kind a.target = some e.2 := by
  induction actions using List.reverseRecOn with
  | nil => cases he
  | append_singleton actions a ih =>
    rw [List.foldl_append, List.foldl_cons, List.foldl_nil, insertInto] at he
    have hold (he : e ∈ actions.foldl insertInto []) :
        ∃ b ∈ actions ++ [a], e.1 = b.symbol ∧ Action.ofCode? b.kind b.target = some e.2 := by
      obtain ⟨b, hb, heq⟩ := ih he
      exact ⟨b, List.mem_append_left _ hb, heq⟩
    cases hcode : Action.ofCode? a.kind a.target with
    | none =>
      rw [hcode] at he
      exact hold he
    | some action =>
      rw [hcode] at he
      rcases ActionMap.mem_insert he with rfl | he
      · exact ⟨a, List.mem_append_right _ List.mem_cons_self, rfl, hcode⟩
      · exact hold he

end DraftAction

namespace Draft

variable {d : Draft}

/-- The parts of a draft other than the lexical automaton are what a table can hold, and what they
refer to exists.  There are no groups. -/
@[mk_iff]
structure IsLinkable (d : Draft) : Prop where
  property : ∀ p ∈ d.properties, '\x00' ∉ p.1.toList
  symbol : ∀ s ∈ d.symbols, '\x00' ∉ s.1.toList ∧ 0 ≤ s.2.toInt ∧ s.2.toInt ≤ 7
  endOfFile : ∃ s ∈ d.symbols, SymbolKind.ofCode? s.2 = some .endOfFile
  error : ∃ s ∈ d.symbols, SymbolKind.ofCode? s.2 = some .error
  groups : d.groups = []
  production : ∀ p ∈ d.productions,
    p.1 < d.symbols.length ∧ ∀ h ∈ p.2, h < d.symbols.length
  lalrState : ∀ actions ∈ d.lalr, ∀ a ∈ actions, a.IsLinkable d
  lalr : d.lalr ≠ []
  room : d.HasRoom

instance (d : Draft) : Decidable d.IsLinkable :=
  decidable_of_iff _ d.isLinkable_iff.symm

/-- What is written as it is and refers to nothing: the values of properties, and the targets of the
actions that accept. -/
@[mk_iff]
structure HasPlainValues (d : Draft) : Prop where
  value : ∀ p ∈ d.properties, '\x00' ∉ p.2.toList
  accept : ∀ actions ∈ d.lalr, ∀ a ∈ actions, a.kind.toInt = 4 → a.target < numberLimit

instance (d : Draft) : Decidable d.HasPlainValues :=
  decidable_of_iff _ d.hasPlainValues_iff.symm

namespace IsLinkable

theorem wellFormed (h : d.IsLinkable) (hvalues : d.HasPlainValues)
    (hdfa : ∀ s ∈ d.dfa, s.Within d.charsets.length d.dfa.length) : d.WellFormed where
  property p hp := ⟨h.property p hp, hvalues.value p hp⟩
  symbol := h.symbol
  group _ hg := absurd (h.groups ▸ hg) List.not_mem_nil
  production p hp := ⟨(h.production p hp).1.trans h.room.symbols,
    fun i hi => ((h.production p hp).2 i hi).trans h.room.symbols⟩
  lalrState actions hactions a ha :=
    (h.lalrState actions hactions a ha).isWritable h.room (hvalues.accept actions hactions a ha)
  dfaState := hdfa

theorem hasKind {kind : SymbolKind} (h : ∃ s ∈ d.symbols, SymbolKind.ofCode? s.2 = some kind) :
    d.table.HasKind kind := by
  obtain ⟨s, hs, hkind⟩ := h
  obtain ⟨i, hi⟩ := List.mem_iff_getElem?.1 hs
  refine ⟨⟨i, s.1, kind⟩, List.mem_map.2 ⟨(s, i), List.mk_mem_zipIdx_iff_getElem?.2 hi, ?_⟩, rfl⟩
  rw [symbolRow, hkind]
  rfl

theorem valid_table (h : d.IsLinkable) (hwf : d.WellFormed) (hdfa : d.dfa ≠ [])
    (haccept : ∀ s ∈ d.dfa, ∀ i ∈ s.accept, i < d.symbols.length) : d.table.Valid := by
  have hrows {α β : Type} {row : β × Nat → Option α} {bs : List β} {P : α → Prop}
      (h : ∀ b ∈ bs, ∀ i a, row (b, i) = some a → P a) :
      ∀ a, some a ∈ bs.zipIdx.map row → P a := by
    intro a ha
    obtain ⟨⟨b, i⟩, hb, hrow⟩ := List.mem_map.1 ha
    exact h b (List.fst_mem_of_mem_zipIdx hb) i a hrow
  constructor
  case complete => exact isComplete_table hwf
  case endOfFile => exact hasKind h.endOfFile
  case error => exact hasKind h.error
  all_goals rw [size_table]
  case dfaInitial =>
    rintro _ ⟨⟩
    exact List.length_pos_iff.2 hdfa
  case lalrInitial =>
    rintro _ ⟨⟩
    exact List.length_pos_iff.2 h.lalr
  case productions =>
    refine hrows fun p hp i _ hrow => ?_
    cases hrow
    exact ⟨(h.production p hp).1, (h.production p hp).2⟩
  case groups =>
    refine hrows fun g hg => ?_
    simp [h.groups] at hg
  case dfaStates =>
    refine hrows fun s hs i _ hrow => ?_
    cases hrow
    exact ⟨haccept s hs, (hwf.dfaState s hs).charset, (hwf.dfaState s hs).target⟩
  case lalrStates =>
    refine hrows fun actions hactions i _ hrow => ?_
    cases hrow
    constructor
    · intro e he
      obtain ⟨a, ha, heq, -⟩ := DraftAction.mem_foldl_insertInto he
      exact heq ▸ (h.lalrState actions hactions a ha).symbol
    · intro e he
      obtain ⟨a, ha, -, hcode⟩ := DraftAction.mem_foldl_insertInto he
      exact (h.lalrState actions hactions a ha).within hcode

/-- **The bytes of a draft that can be linked are a grammar.** -/
theorem exists_ofBytes (h : d.IsLinkable) (hwf : d.WellFormed) (hdfa : d.dfa ≠ [])
    (haccept : ∀ s ∈ d.dfa, ∀ i ∈ s.accept, i < d.symbols.length) :
    ∃ g, Grammar.ofBytes d.toBytes = .ok g ∧ d.Links g := by
  obtain ⟨g, hg⟩ := Grammar.exists_ofBytes_iff.2
    ⟨d.table, decode_eq_table hwf h.room, h.valid_table hwf hdfa haccept⟩
  exact ⟨g, hg, links_of_ofBytes hwf h.room hg⟩

end IsLinkable

end Draft

end CompiledGrammar
