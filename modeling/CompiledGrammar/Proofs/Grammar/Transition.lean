import CompiledGrammar.Proofs.Grammar.Coverage

/-!
# Transitions in terms of edges

`Lookup.ofState` cuts up the ranges of all edges of a state, and `Lookup.transition` puts them
together again for one code point.  What comes of it is what a walk through the edges would find.

* In ASCII, the last edge counts whose character set has the code point
  (`Lookup.find?_edgeRanges`): all ranges of an edge lead to the same place, so the last range that
  holds a code point is one of the last such edge.
* Beyond ASCII any edge counts whose set has the code point, as there is only one range of all edges
  that holds it, unless ranges overlap.
* Code points are compared with ranges of 16 bits, so none beyond those leads anywhere.

`Lookup.transition_of_edges` puts this together for all code points.
-/

namespace CompiledGrammar

namespace Lookup

variable {charset : CharSetIdx → List CodeRange} {s : DfaRow} {c : Nat}

/-- Where a state goes along one of its edges. -/
inductive Along (s : DfaRow) (e : Edge) : Transition → Prop where
  /-- Back to itself, and it accepts. -/
  | acceptLoop {symbol : SymbolIdx} :
      e.target = s.index → s.accept = some symbol → Along s e .acceptLoop
  /-- Back to itself, and it does not accept. -/
  | loop : e.target = s.index → s.accept = none → Along s e .loop
  /-- To another state. -/
  | goto : e.target ≠ s.index → Along s e (.goto e.target)

theorem along_edgeTransition (s : DfaRow) (e : Edge) : Along s e (edgeTransition s e) := by
  unfold edgeTransition
  split
  · rename_i htarget
    cases haccept : s.accept with
    | none => exact .loop htarget haccept
    | some symbol => exact .acceptLoop htarget haccept
  · rename_i htarget
    exact .goto htarget

/-! ### In ASCII -/

/-- The ranges of one edge. -/
def rangesAlong (charset : CharSetIdx → List CodeRange) (s : DfaRow) (e : Edge) :
    List TransitionRange :=
  ((charset e.charset).filter fun r => r.first ≤ r.last).map fun r =>
    ⟨r.first.toNat, r.last.toNat, edgeTransition s e⟩

theorem edgeRanges_eq : edgeRanges charset s = s.edges.flatMap (rangesAlong charset s) := rfl

/-- Whichever range of an edge is found, it leads along the edge. -/
theorem find?_rangesAlong (charset : CharSetIdx → List CodeRange) (s : DfaRow) (e : Edge)
    (c : Nat) :
    ((rangesAlong charset s e).reverse.find? fun r => r.Holds c).map TransitionRange.target =
      if InSet (charset e.charset) c then some (edgeTransition s e) else none := by
  cases hfind : (rangesAlong charset s e).reverse.find? fun r => r.Holds c with
  | none =>
    refine (if_neg fun hmem => ?_).symm
    obtain ⟨r, hr, hholds, -⟩ := hmem.exists_holds (edgeTransition s e)
    exact List.find?_eq_none.1 hfind r (List.mem_reverse.2 hr) (decide_eq_true hholds)
  | some r =>
    have hr := List.mem_reverse.1 (List.mem_of_find?_eq_some hfind)
    obtain ⟨range, hrange, rfl⟩ := List.mem_map.1 hr
    have hholds := List.find?_some hfind
    exact (if_pos ⟨range, List.mem_of_mem_filter hrange, of_decide_eq_true hholds⟩).symm

/-- The last range that holds a code point is one of the last edge whose set has it. -/
theorem find?_edgeRanges (charset : CharSetIdx → List CodeRange) (s : DfaRow) (c : Nat) :
    ((edgeRanges charset s).reverse.find? fun r => r.Holds c).map TransitionRange.target =
      (s.edges.reverse.find? fun e => InSet (charset e.charset) c).map (edgeTransition s) := by
  rw [edgeRanges_eq, List.reverse_flatMap]
  generalize s.edges.reverse = edges
  induction edges with
  | nil => rfl
  | cons e edges ih =>
    rw [List.flatMap_cons, List.find?_append, Option.map_or, ih, Function.comp_apply,
      find?_rangesAlong, List.find?_cons]
    by_cases hmem : InSet (charset e.charset) c
    · simp only [hmem, ↓reduceIte, decide_true, Option.some_or, Option.map_some]
    · simp only [hmem, ↓reduceIte, decide_false, Option.none_or]

/-- In ASCII the last edge counts whose set has the code point. -/
theorem transition_of_last (hc : c < asciiSize) {before after : List Edge} {e : Edge}
    (hedges : s.edges = before ++ e :: after) (he : InSet (charset e.charset) c)
    (hafter : ∀ e ∈ after, ¬ InSet (charset e.charset) c) :
    (ofState charset s).transition c = edgeTransition s e := by
  have hnone : (after.reverse.find? fun e => InSet (charset e.charset) c) = none :=
    List.find?_eq_none.2 fun e he => by simpa using hafter e (List.mem_reverse.1 he)
  rw [transition_of_lt hc, find?_edgeRanges, hedges, List.reverse_append, List.reverse_cons,
    List.append_assoc, List.find?_append, hnone, Option.none_or, List.singleton_append,
    List.find?_cons_of_pos (by simpa using he), Option.map_some, Option.getD_some]

/-! ### Beyond ASCII -/

/-- Where ranges do not overlap, any edge counts whose set has the code point. -/
theorem transition_of_edge (hc : asciiSize ≤ c) (hdisjoint : IsDisjoint charset s) {e : Edge}
    (he : e ∈ s.edges) (hmem : InSet (charset e.charset) c) :
    (ofState charset s).transition c = edgeTransition s e := by
  obtain ⟨r, hr, hholds, htarget⟩ := exists_holds_iff.2 ⟨e, he, hmem, rfl⟩
  rw [transition_of_ge hc (isDisjoint_iff.1 hdisjoint) hr hholds, htarget]

/-- A code point that no edge has leads nowhere. -/
theorem transition_of_forall (h : ∀ e ∈ s.edges, ¬ InSet (charset e.charset) c) :
    (ofState charset s).transition c = .dead := by
  refine transition_eq_dead fun r hr hholds => ?_
  obtain ⟨e, he, hmem, -⟩ := exists_holds_iff.1 ⟨r, hr, hholds, rfl⟩
  exact h e he hmem

/-- No set has a code point of more than 16 bits. -/
theorem InSet.le {ranges : List CodeRange} (h : InSet ranges c) : c ≤ 0xFFFF := by
  obtain ⟨r, -, -, hlast⟩ := h
  exact Nat.le_trans hlast (Nat.le_of_lt_succ r.last.toNat_lt)

/-- **The tables agree with the edges.**  In ASCII a code point leads along the last edge whose
character set has it.  Beyond ASCII it leads along the edge that has it, if no code point there is
in two ranges of the edges.  A code point that no edge has leads nowhere, and neither does one of
more than 16 bits. -/
theorem transition_of_edges (charset : CharSetIdx → List CodeRange) (s : DfaRow) (c : Nat) :
    (c < 0x80 →
      (∀ before e after, s.edges = before ++ e :: after → InSet (charset e.charset) c →
        (∀ e ∈ after, ¬ InSet (charset e.charset) c) →
        Along s e ((ofState charset s).transition c)) ∧
      ((∀ e ∈ s.edges, ¬ InSet (charset e.charset) c) →
        (ofState charset s).transition c = .dead)) ∧
    (0x80 ≤ c → c ≤ 0xFFFF → IsDisjoint charset s →
      (∀ e ∈ s.edges, InSet (charset e.charset) c →
        Along s e ((ofState charset s).transition c)) ∧
      ((∀ e ∈ s.edges, ¬ InSet (charset e.charset) c) →
        (ofState charset s).transition c = .dead)) ∧
    (0xFFFF < c → (ofState charset s).transition c = .dead) := by
  refine ⟨fun hc => ⟨fun before e after hedges he hafter => ?_, transition_of_forall⟩,
    fun hc _ hdisjoint => ⟨fun e he hmem => ?_, transition_of_forall⟩, fun hc => ?_⟩
  · rw [transition_of_last hc hedges he hafter]
    exact along_edgeTransition s e
  · rw [transition_of_edge hc hdisjoint he hmem]
    exact along_edgeTransition s e
  · exact transition_of_forall fun e _ hmem => absurd hmem.le (Nat.not_le.2 hc)

/-- A state with an edge for all from `p` to `Ā` and a later one for small letters, the set of which
also has a range that runs backwards. -/
def overlapping : DfaRow := ⟨0, none, [⟨0, 1⟩, ⟨1, 0⟩]⟩

/-- The character sets of `overlapping`. -/
def overlappingSets : CharSetIdx → List CodeRange
  | 0 => [⟨0x70, 0x100⟩]
  | _ => [⟨0x61, 0x7A⟩, ⟨0x90, 0x80⟩]

/-- Where both edges have a character the later one counts, and beyond ASCII the only one. -/
theorem transition_of_edges_overlapping :
    IsDisjoint overlappingSets overlapping ∧
    InSet (overlappingSets 0) 'z'.toNat ∧ InSet (overlappingSets 1) 'z'.toNat ∧
    Along overlapping ⟨1, 0⟩ ((ofState overlappingSets overlapping).transition 'z'.toNat) ∧
    Along overlapping ⟨0, 1⟩ ((ofState overlappingSets overlapping).transition 0x80) ∧
    (ofState overlappingSets overlapping).transition 0x10000 = .dead := by
  have hdisjoint : IsDisjoint overlappingSets overlapping :=
    pairwise_lt_ranges_iff.1 (by decide)
  have hboth : InSet (overlappingSets 0) 'z'.toNat ∧ InSet (overlappingSets 1) 'z'.toNat := by
    decide
  have hz := transition_of_edges overlappingSets overlapping 'z'.toNat
  have hbeyond := transition_of_edges overlappingSets overlapping 0x80
  have hastral := transition_of_edges overlappingSets overlapping 0x10000
  exact ⟨hdisjoint, hboth.1, hboth.2,
    (hz.1 (by decide)).1 [⟨0, 1⟩] ⟨1, 0⟩ [] rfl hboth.2 nofun,
    (hbeyond.2.1 (by decide) (by decide) hdisjoint).1 ⟨0, 1⟩ (by decide) (by decide),
    hastral.2.2 (by decide)⟩

end Lookup

end CompiledGrammar
