import CompiledGrammar.Proofs.Grammar.Validation

/-!
# Loaded grammars

`Grammar.Loaded` says how a grammar comes about: it is loaded from the bytes of a table, and the
rules of its productions may have been changed since.  What parsing relies on follows from that:

* a production stands at the position of its number (`Grammar.Loaded.index_eq`), because decoding
  puts every row at the position of its number (`Numbered`) and linking demands that none is
  missing;
* a production that makes lists has handles (`Grammar.Loaded.handles_ne_nil`), because that rule is
  inferred and never changed.
-/

namespace CompiledGrammar

namespace Grammar

/-- A grammar as parsers get it: loaded from a table, and the rules of its productions changed as
they can be. -/
inductive Loaded : Grammar → Prop where
  /-- It comes from the bytes of a table. -/
  | ofBytes {bytes : List UInt8} {g : Grammar} : Grammar.ofBytes bytes = .ok g → Loaded g
  /-- It has been told whether to merge the children of a production's children. -/
  | setMergeChild {g g' : Grammar} {p : ProductionIdx} {merge : Bool} :
      Loaded g → g.setMergeChild? p merge = some g' → Loaded g'
  /-- It has been told whether an only child takes the place of a production's node. -/
  | setForwardChild {g g' : Grammar} {p : ProductionIdx} {forward : Bool} :
      Loaded g → g.setForwardChild? p forward = some g' → Loaded g'

variable {g g' : Grammar} {i : ProductionIdx} {p : Production}

/-- What never changes about the production at a position: its number, and the rules that can only
be inferred. -/
def IsInferred (i : ProductionIdx) (p : Production) : Prop :=
  p.index = i ∧ ∃ symbols,
    p.rules.listifyRecursion = (inferRules symbols p.toProductionRow).listifyRecursion ∧
      p.rules.removeSingleLexeme = (inferRules symbols p.toProductionRow).removeSingleLexeme

theorem isInferred_of_ofBytes {bytes : List UInt8} (h : ofBytes bytes = .ok g)
    (hp : g.productions[i]? = some p) : IsInferred i p := by
  simp only [ofBytes, bind_eq_ok] at h
  obtain ⟨t, hdecode, hlink⟩ := h
  obtain ⟨rows, rfl, eofSymbol, -, errorSymbol, -, -, rfl⟩ :=
    Table.link_eq_ok.1 (mapError_eq_ok.1 hlink)
  simp only [Rows.toGrammar, List.getElem?_toArray, List.getElem?_map, Option.map_eq_some_iff] at hp
  obtain ⟨row, hrow, rfl⟩ := hp
  have hnumber : row.index = i := by
    refine (Table.ordered_of_decode hdecode).productions i row ?_
    simp only [Rows.toTable, List.getElem?_map, hrow, Option.map_some]
  exact ⟨hnumber, rows.linkSymbols, rfl, rfl⟩

theorem isInferred_of_modifyRules? {q : ProductionIdx} {f : TreeRules → TreeRules}
    (h : g.modifyRules? q f = some g') (hp : g'.productions[i]? = some p)
    (hlist : ∀ r, (f r).listifyRecursion = r.listifyRecursion)
    (hremove : ∀ r, (f r).removeSingleLexeme = r.removeSingleLexeme)
    (hg : ∀ {i p}, g.productions[i]? = some p → IsInferred i p) : IsInferred i p := by
  unfold modifyRules? at h
  split at h
  · cases h
    simp only [Array.getElem?_modify] at hp
    split at hp
    · simp only [Option.map_eq_some_iff] at hp
      obtain ⟨old, hold, rfl⟩ := hp
      obtain ⟨hindex, symbols, h1, h2⟩ := hg hold
      exact ⟨hindex, symbols, (hlist _).trans h1, (hremove _).trans h2⟩
    · exact hg hp
  · cases h

namespace Loaded

theorem isInferred (hg : g.Loaded) (hp : g.productions[i]? = some p) : IsInferred i p := by
  induction hg generalizing i p with
  | ofBytes h => exact isInferred_of_ofBytes h hp
  | setMergeChild _ h ih =>
    exact isInferred_of_modifyRules? h hp (fun _ => rfl) (fun _ => rfl) ih
  | setForwardChild _ h ih =>
    exact isInferred_of_modifyRules? h hp (fun _ => rfl) (fun _ => rfl) ih

theorem index_eq (hg : g.Loaded) (hp : g.productions[i]? = some p) : p.index = i :=
  (hg.isInferred hp).1

/-- A production of a loaded grammar is found by its number. -/
theorem getElem?_index (hg : g.Loaded) (hp : g.productions[i]? = some p) :
    g.productions[p.index]? = some p := by
  rw [hg.index_eq hp, hp]

/-- A production that makes lists is recursive, so it has handles. -/
theorem handles_ne_nil (hg : g.Loaded) (hp : g.productions[i]? = some p)
    (hlist : p.rules.listifyRecursion = true) : p.handles ≠ [] := by
  obtain ⟨-, symbols, hrule, -⟩ := hg.isInferred hp
  rw [hrule] at hlist
  intro hnil
  simp [inferRules, hnil] at hlist

end Loaded

/-! ### Grammars of given bytes -/

/-- The bytes make a grammar that passes a check. -/
def loadsWith (bytes : List UInt8) (check : Grammar → Bool) : Bool :=
  match ofBytes bytes with
  | .ok g => check g
  | .error _ => false

theorem exists_of_loadsWith {bytes : List UInt8} {check : Grammar → Bool}
    (h : loadsWith bytes check = true) : ∃ g, ofBytes bytes = .ok g ∧ check g = true := by
  unfold loadsWith at h
  split at h
  · rename_i g hg
    exact ⟨g, hg, h⟩
  · cases h

end Grammar

end CompiledGrammar
