import CompiledGrammar.Proofs.Grammar.Loaded
import CompiledGrammar.Proofs.Grammar.Lookup

/-!
# Well-formed grammars

A grammar is `Grammar.WellFormed` if its parts fit together: rows stand at the positions of their
numbers, all numbers in rows refer to rows, and what is derived from the rows agrees with them.
Scanning and parsing look up rows by number without a second thought, and rely on this.

* `Lookup.mem_entries_ofState` and `Lookup.transition_mem` say where the transitions of a state come
  from.
* A grammar that comes from a table is well-formed (`Grammar.wellFormed_of_ofBytes`), and stays so
  when the rules of a production are changed (`Grammar.WellFormed.modifyRules?`); so every loaded
  grammar is (`Grammar.Loaded.wellFormed`).
-/

namespace CompiledGrammar

/-! ### Transitions -/

/-- Where a transition of a state leads exists, and only a state that accepts loops so. -/
def Transition.Within (size : TablePart → Nat) (s : DfaRow) : Transition → Prop
  | .goto state => state < size .dfaStates
  | .acceptLoop => s.accept.isSome = true
  | .loop => True
  | .dead => True

namespace Lookup

variable {table : Array Transition} {r : TransitionRange} {rs : List TransitionRange}
  {t : Transition}

/-- All transitions that a lookup has. -/
def entries (l : Lookup) : List Transition :=
  l.ascii.toList ++ l.ranges.map TransitionRange.target

theorem size_foldl_paint (rs : List TransitionRange) (table : Array Transition) :
    (rs.foldl paint table).size = table.size := by
  induction rs generalizing table with
  | nil => rfl
  | cons r rs ih => rw [List.foldl_cons, ih, paint, Array.size_mapIdx]

theorem mem_paint (h : t ∈ paint table r) : t ∈ table ∨ t = r.target := by
  obtain ⟨i, hi, rfl⟩ := Array.mem_mapIdx.1 h
  split
  · exact Or.inr rfl
  · exact Or.inl (Array.getElem_mem hi)

theorem mem_foldl_paint (h : t ∈ rs.foldl paint table) :
    t ∈ table ∨ ∃ r ∈ rs, t = r.target := by
  induction rs generalizing table with
  | nil => exact Or.inl h
  | cons r rs ih =>
    rcases ih h with h | ⟨r', hr', ht⟩
    · rcases mem_paint h with h | h
      · exact Or.inl h
      · exact Or.inr ⟨r, List.mem_cons_self, h⟩
    · exact Or.inr ⟨r', List.mem_cons_of_mem _ hr', ht⟩

/-- Every transition of a state is dead or that of an edge. -/
theorem mem_entries_ofState {charset : CharSetIdx → List CodeRange} {row : DfaRow}
    (h : t ∈ (ofState charset row).entries) :
    t = .dead ∨ ∃ e ∈ row.edges, t = edgeTransition row e := by
  have hedge (r : TransitionRange) (hr : r ∈ edgeRanges charset row) :
      ∃ e ∈ row.edges, r.target = edgeTransition row e := by
    obtain ⟨e, he, hr⟩ := List.mem_flatMap.1 hr
    obtain ⟨_, -, rfl⟩ := List.mem_map.1 hr
    exact ⟨e, he, rfl⟩
  rcases List.mem_append.1 h with h | h
  · rcases mem_foldl_paint (Array.mem_toList_iff.1 h) with h | ⟨r, hr, rfl⟩
    · exact Or.inl (Array.mem_replicate.1 h).2
    · exact Or.inr (hedge r hr)
  · obtain ⟨r, hr, rfl⟩ := List.mem_map.1 h
    -- sorting and cutting off what is in the table leaves the targets as they are
    obtain ⟨whole, hwhole, hcut⟩ := mem_ranges_ofState.1 hr
    obtain ⟨-, rfl⟩ := beyondAscii_eq_some.1 hcut
    exact Or.inr (hedge whole hwhole)

/-- A code point leads nowhere or along a transition of the lookup. -/
theorem transition_mem (l : Lookup) (c : Nat) :
    l.transition c = .dead ∨ l.transition c ∈ l.entries := by
  unfold transition entries
  cases hascii : l.ascii[c]? with
  | some t =>
    exact Or.inr (List.mem_append_left _ (Array.mem_toList_iff.2 (Array.mem_of_getElem? hascii)))
  | none =>
    dsimp only
    cases hlast : (l.ranges.takeWhile (·.first ≤ c)).getLast? with
    | none => exact Or.inl rfl
    | some r =>
      have hr : r ∈ l.ranges :=
        (List.takeWhile_sublist _).subset (List.mem_of_getLast? hlast)
      dsimp only
      split
      · exact Or.inr (List.mem_append_right _ (List.mem_map_of_mem hr))
      · exact Or.inl rfl

end Lookup

theorem edgeTransition_within {size : TablePart → Nat} {s : DfaRow} (hs : s.Within size) {e : Edge}
    (he : e ∈ s.edges) : (Lookup.edgeTransition s e).Within size s := by
  unfold Lookup.edgeTransition
  split
  · split
    · assumption
    · trivial
  · exact hs.target e he

/-! ### Well-formedness -/

namespace Grammar

/-- The number of rows of a part. -/
def size (g : Grammar) : TablePart → Nat
  | .charsets => g.charsets.size
  | .symbols => g.symbols.size
  | .groups => g.groups.size
  | .productions => g.productions.size
  | .dfaStates => g.dfaStates.size
  | .lalrStates => g.lalrStates.size
  | .actionTargets => 0
  | .initialStates => 0

/-- The symbol is the first one of a kind. -/
structure IsFirst (g : Grammar) (kind : SymbolKind) (s : SymbolIdx) : Prop where
  hasKind : g.hasKind s kind = true
  least : ∀ i, i < s → g.hasKind i kind = false

/-- The parts of a grammar fit together. -/
structure WellFormed (g : Grammar) : Prop where
  charsetIndex : ∀ i (c : CharacterSet), g.charsets[i]? = some c → c.index = i
  symbolIndex : ∀ i (s : Symbol), g.symbols[i]? = some s → s.index = i
  groupIndex : ∀ i (group : Group), g.groups[i]? = some group → group.index = i
  productionIndex : ∀ i (p : Production), g.productions[i]? = some p → p.index = i
  dfaIndex : ∀ i (s : DfaState), g.dfaStates[i]? = some s → s.index = i
  lalrIndex : ∀ i (s : LalrState), g.lalrStates[i]? = some s → s.index = i
  dfaInitial : g.dfaInitial < g.dfaStates.size
  lalrInitial : g.lalrInitial < g.lalrStates.size
  groups : ∀ group ∈ g.groups, group.Within g.size
  productions : ∀ p ∈ g.productions, p.Within g.size
  dfaStates : ∀ s ∈ g.dfaStates, s.Within g.size
  lalrStates : ∀ s ∈ g.lalrStates, s.Within g.size
  eofSymbol : g.IsFirst .endOfFile g.eofSymbol
  errorSymbol : g.IsFirst .error g.errorSymbol
  ascii : ∀ s ∈ g.dfaStates, s.lookup.ascii.size = 128
  transitions : ∀ s ∈ g.dfaStates, ∀ t ∈ s.lookup.entries, t.Within g.size s.toDfaRow
  action : ∀ state symbol,
    g.action? state symbol = g.lalrStates[state]?.bind fun s => s.actions.lookup symbol

end Grammar

/-! ### Linked grammars -/

theorem Numbered.index_eq {α : Type} {number : α → Nat} {rows : List α}
    (h : Numbered number (rows.map some)) {i : Nat} {row : α} (hi : rows[i]? = some row) :
    number row = i :=
  h i row (by rw [List.getElem?_map, hi, Option.map_some])

namespace Rows

variable {r : Rows} {eofSymbol errorSymbol : SymbolIdx}

theorem size_toGrammar : (r.toGrammar eofSymbol errorSymbol).size = r.size := by
  funext part
  cases part <;>
    simp only [Grammar.size, Rows.size, toGrammar, linkSymbols, List.size_toArray, List.length_map]

theorem hasKind_toGrammar (i : SymbolIdx) (kind : SymbolKind) :
    (r.toGrammar eofSymbol errorSymbol).hasKind i kind = r.symbols[i]?.any (·.kind == kind) := by
  simp only [Grammar.hasKind, toGrammar, linkSymbols, List.getElem?_toArray, List.getElem?_map]
  cases r.symbols[i]? <;> rfl

/-- The symbol that is found for a kind is the first one. -/
theorem isFirst_of_findKind (hr : r.toTable.Ordered) {kind : SymbolKind} {i : SymbolIdx}
    (h : r.findKind kind = .ok i) : (r.toGrammar eofSymbol errorSymbol).IsFirst kind i := by
  obtain ⟨s, hfind, rfl⟩ := findKind_eq_ok.1 h
  obtain ⟨hkind, i, hi, rfl, hbefore⟩ := List.find?_eq_some_iff_getElem.1 hfind
  have hget := List.getElem?_eq_getElem hi
  rw [hr.symbols.index_eq hget]
  refine ⟨?_, fun j hj => ?_⟩
  · rw [hasKind_toGrammar, hget, Option.any_some, hkind]
  · rw [hasKind_toGrammar, List.getElem?_eq_getElem (Nat.lt_trans hj hi), Option.any_some]
    simpa using hbefore j hj

theorem action?_toGrammar (state : LalrStateIdx) (symbol : SymbolIdx)
    (hr : ∀ s ∈ r.lalrStates, s.Within r.size) :
    (r.toGrammar eofSymbol errorSymbol).action? state symbol =
      (r.toGrammar eofSymbol errorSymbol).lalrStates[state]?.bind
        fun s => s.actions.lookup symbol := by
  simp only [Grammar.action?, toGrammar, LalrState.action?, List.getElem?_toArray,
    List.getElem?_map, Option.bind_map]
  cases hs : r.lalrStates[state]? with
  | none => rfl
  | some s =>
    simp only [Option.bind_some, Function.comp, List.getElem?_toArray, List.getElem?_map]
    by_cases hsymbol : symbol < r.symbols.length
    · rw [List.getElem?_range hsymbol]
      rfl
    · -- no action is on a symbol that does not exist
      rw [List.getElem?_eq_none (by simpa using hsymbol)]
      have hnone : s.actions.lookup symbol = none := by
        rw [List.lookup_eq_none_iff]
        intro a ha
        have hlt := (hr s (List.mem_of_getElem? hs)).symbol a ha
        have hne : symbol ≠ a.1 := by
          rintro rfl
          exact hsymbol hlt
        simpa using hne
      rw [hnone]
      rfl

theorem wellFormed_toGrammar (hr : r.toTable.Ordered) (hdfa : r.dfaInitial < r.size .dfaStates)
    (hlalr : r.lalrInitial < r.size .lalrStates)
    (hproductions : ∀ p ∈ r.productions, p.Within r.size)
    (hgroups : ∀ g ∈ r.groups, g.Within r.size) (hdfaStates : ∀ s ∈ r.dfaStates, s.Within r.size)
    (hlalrStates : ∀ s ∈ r.lalrStates, s.Within r.size)
    (heof : r.findKind .endOfFile = .ok eofSymbol) (herror : r.findKind .error = .ok errorSymbol) :
    (r.toGrammar eofSymbol errorSymbol).WellFormed where
  charsetIndex i c hc := hr.charsets.index_eq (by simpa [toGrammar] using hc)
  symbolIndex i s hs := by
    obtain ⟨row, hrow, rfl⟩ : ∃ row, r.symbols[i]? = some row ∧ _ := by
      simpa [toGrammar, linkSymbols] using hs
    exact hr.symbols.index_eq hrow
  groupIndex i g hg := hr.groups.index_eq (by simpa [toGrammar] using hg)
  productionIndex i p hp := by
    obtain ⟨row, hrow, rfl⟩ : ∃ row, r.productions[i]? = some row ∧ _ := by
      simpa [toGrammar] using hp
    exact hr.productions.index_eq hrow
  dfaIndex i s hs := by
    obtain ⟨row, hrow, rfl⟩ : ∃ row, r.dfaStates[i]? = some row ∧ _ := by
      simpa [toGrammar] using hs
    exact hr.dfaStates.index_eq hrow
  lalrIndex i s hs := by
    obtain ⟨row, hrow, rfl⟩ : ∃ row, r.lalrStates[i]? = some row ∧ _ := by
      simpa [toGrammar] using hs
    exact hr.lalrStates.index_eq hrow
  dfaInitial := by simpa [toGrammar, Rows.size] using hdfa
  lalrInitial := by simpa [toGrammar, Rows.size] using hlalr
  groups := by
    rw [size_toGrammar]
    simpa [toGrammar] using hgroups
  productions := by
    rw [size_toGrammar]
    simpa [toGrammar] using hproductions
  dfaStates := by
    rw [size_toGrammar]
    simpa [toGrammar] using hdfaStates
  lalrStates := by
    rw [size_toGrammar]
    simpa [toGrammar] using hlalrStates
  eofSymbol := isFirst_of_findKind hr heof
  errorSymbol := isFirst_of_findKind hr herror
  ascii s hs := by
    obtain ⟨row, -, rfl⟩ : ∃ row ∈ r.dfaStates, _ := by simpa [toGrammar] using hs
    simp only [Lookup.ofState, Lookup.size_foldl_paint, Array.size_replicate, asciiSize]
  transitions s hs t ht := by
    rw [size_toGrammar]
    obtain ⟨row, hrow, rfl⟩ : ∃ row ∈ r.dfaStates, _ := by simpa [toGrammar] using hs
    rcases Lookup.mem_entries_ofState ht with rfl | ⟨e, he, rfl⟩
    · trivial
    · exact edgeTransition_within (hdfaStates row hrow) he
  action state symbol := action?_toGrammar state symbol hlalrStates

end Rows

namespace Grammar

variable {g g' : Grammar}

/-- **A grammar that comes from a table is well-formed**, and its parts have the sizes that the
table announces. -/
theorem wellFormed_of_ofBytes {bytes : List UInt8} (h : ofBytes bytes = .ok g) :
    g.WellFormed ∧ ∀ part, g.size part = Table.announced (Table.recordsOf bytes) part := by
  simp only [ofBytes, bind_eq_ok, mapError_eq_ok] at h
  obtain ⟨t, hdecode, hlink⟩ := h
  obtain ⟨r, rfl, eofSymbol, heof, errorSymbol, herror, hcheck, rfl⟩ := Table.link_eq_ok.1 hlink
  have hordered := Table.ordered_of_decode hdecode
  obtain ⟨hdfa, hlalr, hproductions, hgroups, hdfaStates, hlalrStates⟩ :=
    Rows.forall_references.1 (Rows.checkReferences_eq_ok.1 hcheck)
  refine ⟨Rows.wellFormed_toGrammar hordered hdfa hlalr hproductions hgroups hdfaStates hlalrStates
    heof herror, fun part => ?_⟩
  rw [Rows.size_toGrammar, ← Rows.size_toTable, Table.size_of_decode hdecode]

theorem WellFormed.modifyRules? (hg : g.WellFormed) {q : ProductionIdx} {f : TreeRules → TreeRules}
    (h : g.modifyRules? q f = some g') : g'.WellFormed := by
  unfold Grammar.modifyRules? at h
  split at h
  · cases h
    generalize hproductions : g.productions.modify q _ = productions
    -- the productions have new rules, but the rows of the table are the same
    have hrow {i : ProductionIdx} {p : Production} (hp : productions[i]? = some p) :
        ∃ old, g.productions[i]? = some old ∧ p.toProductionRow = old.toProductionRow := by
      rw [← hproductions, Array.getElem?_modify] at hp
      split at hp
      · obtain ⟨old, hold, rfl⟩ := Option.map_eq_some_iff.1 hp
        exact ⟨old, hold, rfl⟩
      · exact ⟨p, hp, rfl⟩
    have hsize : { g with productions }.size = g.size := by
      funext part
      cases part <;> simp only [size, ← hproductions, Array.size_modify]
    refine { hg with
      productionIndex := fun i p hp => ?_, groups := ?_, productions := fun p hp => ?_,
      dfaStates := ?_, lalrStates := ?_, transitions := ?_
      eofSymbol := ⟨hg.eofSymbol.hasKind, hg.eofSymbol.least⟩
      errorSymbol := ⟨hg.errorSymbol.hasKind, hg.errorSymbol.least⟩ }
    · obtain ⟨old, hold, heq⟩ := hrow hp
      rw [heq]
      exact hg.productionIndex i old hold
    · rw [hsize]
      exact hg.groups
    · obtain ⟨i, hi, rfl⟩ := Array.mem_iff_getElem.1 hp
      obtain ⟨old, hold, heq⟩ := hrow (Array.getElem?_eq_getElem hi)
      rw [hsize, heq]
      exact hg.productions old (Array.mem_of_getElem? hold)
    · rw [hsize]
      exact hg.dfaStates
    · rw [hsize]
      exact hg.lalrStates
    · rw [hsize]
      exact hg.transitions
  · cases h

/-- Every loaded grammar is well-formed. -/
theorem Loaded.wellFormed (hg : g.Loaded) : g.WellFormed := by
  induction hg with
  | ofBytes h => exact (wellFormed_of_ofBytes h).1
  | setMergeChild _ h ih => exact ih.modifyRules? h
  | setForwardChild _ h ih => exact ih.modifyRules? h

end Grammar

end CompiledGrammar
