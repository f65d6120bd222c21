import CompiledGrammar.Proofs.Grammar.SinglePath
import CompiledGrammar.Proofs.Grammar.WellFormed

/-!
# What is derived from the lexical automaton

Linking derives the transitions of each state from its edges, and from all edges together which
symbols have a single lexeme.  A loaded grammar still has both as they were derived: changing the
rules of productions leaves the lexical automaton alone (`Grammar.Loaded.exists_rows`), and the
identifiers of productions and their other rules, too (`Grammar.Loaded.exists_linked`).

* `Grammar.Loaded.lookup_eq`: where characters lead from a state, and
  `Grammar.Loaded.exists_edge_of_ne_dead`: along which edge.
* `Grammar.Loaded.singleLexeme_iff`: which symbols count as having a single lexeme, by the walks of
  the automaton.
-/

namespace CompiledGrammar

namespace Grammar

variable {g g' : Grammar}

/-- The members of a character set. -/
def charsetRanges (g : Grammar) (i : CharSetIdx) : List CodeRange :=
  (g.charsets[i]?.map CharacterSet.ranges).getD []

/-- The code point is in the character set. -/
def InCharset (g : Grammar) (i : CharSetIdx) (c : Nat) : Prop :=
  ∃ r ∈ g.charsetRanges i, r.first.toNat ≤ c ∧ c ≤ r.last.toNat

instance (g : Grammar) (i : CharSetIdx) : DecidablePred (g.InCharset i) :=
  fun c => inferInstanceAs
    (Decidable (∃ r ∈ g.charsetRanges i, r.first.toNat ≤ c ∧ c ≤ r.last.toNat))

/-- One of the ranges of an edge whose set has a code point holds it. -/
theorem InCharset.exists_holds {i : CharSetIdx} {c : Nat} (h : g.InCharset i c) (t : Transition) :
    ∃ r ∈ ((g.charsetRanges i).filter fun r => r.first ≤ r.last).map fun r =>
        (⟨r.first.toNat, r.last.toNat, t⟩ : TransitionRange),
      r.Holds c ∧ r.target = t :=
  Lookup.InSet.exists_holds h t

/-- The ranges of a state that hold a code point are those of the edges whose sets have it. -/
theorem exists_holds_iff {s : DfaRow} {c : Nat} {t : Transition} :
    (∃ r ∈ Lookup.edgeRanges g.charsetRanges s, r.Holds c ∧ r.target = t) ↔
      ∃ e ∈ s.edges, g.InCharset e.charset c ∧ Lookup.edgeTransition s e = t :=
  Lookup.exists_holds_iff

/-- The states of the lexical automaton as the table describes them. -/
def dfaRows (g : Grammar) : List DfaRow :=
  g.dfaStates.toList.map DfaState.toDfaRow

theorem getElem?_dfaRows (i : DfaStateIdx) :
    g.dfaRows[i]? = g.dfaStates[i]?.map DfaState.toDfaRow := by
  rw [dfaRows, List.getElem?_map, Array.getElem?_toList]

/-- Changing the rules of a production changes nothing else. -/
theorem exists_of_modifyRules? {i : ProductionIdx} {f : TreeRules → TreeRules}
    (h : g.modifyRules? i f = some g') : ∃ productions, g' = { g with productions } ∧
      ∀ p ∈ productions,
        p ∈ g.productions ∨ ∃ q ∈ g.productions, p = { q with rules := f q.rules } := by
  unfold modifyRules? at h
  split at h
  · refine ⟨_, (Option.some.inj h).symm, fun p hp => ?_⟩
    obtain ⟨j, hj⟩ := Array.mem_iff_getElem?.1 hp
    rw [Array.getElem?_modify] at hj
    split at hj
    · obtain ⟨q, hq, rfl⟩ := Option.map_eq_some_iff.1 hj
      exact Or.inr ⟨q, Array.mem_of_getElem? hq, rfl⟩
    · exact Or.inl (Array.mem_of_getElem? hj)
  · cases h

/-- What was linked from the rows about a production and never changes: its identifier, and the
rules that can only be inferred. -/
structure IsLinked (r : Rows) (p : Production) : Prop where
  id : p.id = r.productionId p.toProductionRow
  listifyRecursion : p.rules.listifyRecursion =
    (inferRules r.linkSymbols p.toProductionRow).listifyRecursion
  removeSingleLexeme : p.rules.removeSingleLexeme =
    (inferRules r.linkSymbols p.toProductionRow).removeSingleLexeme

/-- Apart from rules of its productions, a loaded grammar is as it was linked. -/
theorem Loaded.exists_linked (hg : g.Loaded) : ∃ (r : Rows) (eofSymbol errorSymbol : SymbolIdx)
    (productions : Array Production),
    g = { r.toGrammar eofSymbol errorSymbol with productions } ∧
      ∀ p ∈ productions, IsLinked r p := by
  have hmodify {g g' : Grammar} {i : ProductionIdx} {f : TreeRules → TreeRules}
      (h : g.modifyRules? i f = some g')
      (hlist : ∀ r, (f r).listifyRecursion = r.listifyRecursion)
      (hremove : ∀ r, (f r).removeSingleLexeme = r.removeSingleLexeme)
      (ih : ∃ (r : Rows) (eofSymbol errorSymbol : SymbolIdx) (productions : Array Production),
        g = { r.toGrammar eofSymbol errorSymbol with productions } ∧
          ∀ p ∈ productions, IsLinked r p) :
      ∃ (r : Rows) (eofSymbol errorSymbol : SymbolIdx) (productions : Array Production),
        g' = { r.toGrammar eofSymbol errorSymbol with productions } ∧
          ∀ p ∈ productions, IsLinked r p := by
    obtain ⟨productions, rfl, hproductions⟩ := exists_of_modifyRules? h
    obtain ⟨r, eofSymbol, errorSymbol, old, rfl, hlinked⟩ := ih
    refine ⟨r, eofSymbol, errorSymbol, productions, rfl, fun p hp => ?_⟩
    rcases hproductions p hp with hold | ⟨q, hq, rfl⟩
    · exact hlinked p hold
    · have hq := hlinked q hq
      exact ⟨hq.id, (hlist _).trans hq.listifyRecursion,
        (hremove _).trans hq.removeSingleLexeme⟩
  induction hg with
  | ofBytes h =>
    simp only [Grammar.ofBytes, bind_eq_ok, mapError_eq_ok] at h
    obtain ⟨t, -, hlink⟩ := h
    obtain ⟨r, -, eofSymbol, -, errorSymbol, -, -, rfl⟩ := Table.link_eq_ok.1 hlink
    refine ⟨r, eofSymbol, errorSymbol, _, rfl, fun p hp => ?_⟩
    obtain ⟨row, -, rfl⟩ := List.mem_map.1 (List.mem_toArray.1 hp)
    exact ⟨rfl, rfl, rfl⟩
  | setMergeChild _ h ih => exact hmodify h (fun _ => rfl) (fun _ => rfl) ih
  | setForwardChild _ h ih => exact hmodify h (fun _ => rfl) (fun _ => rfl) ih

theorem Loaded.exists_rows (hg : g.Loaded) : ∃ (r : Rows) (eofSymbol errorSymbol : SymbolIdx)
    (productions : Array Production),
    g = { r.toGrammar eofSymbol errorSymbol with productions } := by
  obtain ⟨r, eofSymbol, errorSymbol, productions, hg, -⟩ := hg.exists_linked
  exact ⟨r, eofSymbol, errorSymbol, productions, hg⟩

/-- Single-lexeme terminals are left out by the productions for which that was inferred. -/
theorem Loaded.removeSingleLexeme_eq (hg : g.Loaded) {p : Production} (hp : p ∈ g.productions) :
    p.rules.removeSingleLexeme =
      (inferRules g.symbols.toList p.toProductionRow).removeSingleLexeme := by
  obtain ⟨r, eofSymbol, errorSymbol, productions, rfl, hlinked⟩ := hg.exists_linked
  exact (hlinked p hp).removeSingleLexeme

/-- Characters lead where the edges of a state say. -/
theorem Loaded.lookup_eq (hg : g.Loaded) {q : DfaState} (hq : q ∈ g.dfaStates) :
    q.lookup = Lookup.ofState g.charsetRanges q.toDfaRow := by
  obtain ⟨r, eofSymbol, errorSymbol, productions, rfl⟩ := hg.exists_rows
  obtain ⟨row, -, rfl⟩ : ∃ row ∈ r.dfaStates, _ := by simpa [Rows.toGrammar] using hq
  have hranges : charsetRanges { r.toGrammar eofSymbol errorSymbol with productions } =
      r.charsetRanges := by
    funext i
    simp [charsetRanges, Rows.toGrammar, Rows.charsetRanges]
  rw [hranges]

/-- A character that leads somewhere takes an edge whose set has it. -/
theorem Loaded.exists_edge_of_ne_dead (hg : g.Loaded) {q : DfaState} (hq : q ∈ g.dfaStates)
    {c : Nat} (h : q.lookup.transition c ≠ .dead) : ∃ e ∈ q.edges, g.InCharset e.charset c ∧
      q.lookup.transition c = Lookup.edgeTransition q.toDfaRow e := by
  rw [hg.lookup_eq hq] at h ⊢
  obtain ⟨r, hr, hholds, htarget⟩ := Lookup.exists_holds_of_ne_dead h
  obtain ⟨e, he, hmem, hedge⟩ := exists_holds_iff.1 ⟨r, hr, hholds, rfl⟩
  exact ⟨e, he, hmem, htarget.trans hedge.symm⟩

/-- Only a state that accepts nothing has loops that accept nothing. -/
theorem Loaded.accept_eq_none_of_loop (hg : g.Loaded) {q : DfaState} (hq : q ∈ g.dfaStates)
    {c : Nat} (h : q.lookup.transition c = .loop) : q.accept = none := by
  obtain ⟨e, -, -, hedge⟩ := hg.exists_edge_of_ne_dead hq (c := c) (by rw [h]; nofun)
  rw [h, Lookup.edgeTransition] at hedge
  split at hedge
  · split at hedge
    · cases hedge
    · rename_i haccept
      exact Option.not_isSome_iff_eq_none.1 haccept
  · cases hedge

/-- Edges lead to states of the grammar. -/
theorem WellFormed.lt_of_mem_targets (hg : g.WellFormed) (i : DfaStateIdx) :
    ∀ t ∈ SinglePath.targets g.dfaRows i, t < g.dfaRows.length := by
  intro t ht
  have hsize : g.dfaRows.length = g.dfaStates.size := by
    rw [dfaRows, List.length_map, Array.length_toList]
  rw [SinglePath.targets, getElem?_dfaRows] at ht
  cases hq : g.dfaStates[i]? with
  | none =>
    rw [hq] at ht
    cases ht
  | some q =>
    rw [hq] at ht
    obtain ⟨e, he, rfl⟩ := List.mem_map.1 ht
    rw [hsize]
    exact (hg.dfaStates q (Array.mem_of_getElem? hq)).target e he

/-- **A symbol counts as having a single lexeme** exactly if one state that a single walk leads to
accepts it, and no other such state does. -/
theorem Loaded.singleLexeme_iff (hg : g.Loaded) {s : Symbol} (hs : s ∈ g.symbols) :
    s.singleLexeme = true ↔
      ∃ i, SinglePath.IsSingleAccept g.dfaRows g.dfaInitial s.index i ∧
        ∀ j, SinglePath.IsSingleAccept g.dfaRows g.dfaInitial s.index j → j = i := by
  have hwf := hg.wellFormed
  have hinitial : g.dfaInitial < g.dfaRows.length := by
    rw [dfaRows, List.length_map, Array.length_toList]
    exact hwf.dfaInitial
  rw [← SinglePath.count_accepts_eq_one_iff hwf.lt_of_mem_targets hinitial]
  obtain ⟨r, eofSymbol, errorSymbol, productions, rfl⟩ := hg.exists_rows
  obtain ⟨row, -, rfl⟩ : ∃ row ∈ r.symbols, _ := by
    simpa [Rows.toGrammar, Rows.linkSymbols] using hs
  have hrows : dfaRows { r.toGrammar eofSymbol errorSymbol with productions } = r.dfaStates := by
    simp [dfaRows, Rows.toGrammar, Function.comp_def]
  rw [hrows, beq_iff_eq]
  rfl

end Grammar

end CompiledGrammar
