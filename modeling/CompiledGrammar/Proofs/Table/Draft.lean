import CompiledGrammar.Table.Draft
import Mathlib.Tactic.MkIffOfInductiveProp

/-!
# Drafts built by calls

What holds of a draft because of how it has been built.

* `Draft.Call` are the ways in which a draft grows, and `Draft.ofCalls` is the draft that some calls
  build.
* A draft is `Draft.WellFormed` if all it has been given can be written and its lexical automaton
  refers to nothing that does not exist.  For that it is enough to know what the calls were given
  (`Draft.WellFormed.ofCalls`): each call keeps a draft well-formed (`Draft.WellFormed.run`).
* `Draft.HasRoom` says of its sizes that a table has room for them.
-/

namespace CompiledGrammar

/-! ### Building a draft -/

namespace Draft

/-- One of the ways in which a draft grows. -/
inductive Call where
  /-- Add a property. -/
  | property (name value : String)
  /-- Add a symbol. -/
  | symbol (name : String) (kind : Int16)
  /-- Add a production. -/
  | production (head : SymbolIdx) (handles : List SymbolIdx)
  /-- Add a lexical group. -/
  | group (g : DraftGroup)
  /-- Add a state of the LALR automaton. -/
  | lalrState (actions : List DraftAction)
  /-- Scan whatever matches a pattern as a symbol. -/
  | pattern (target : SymbolIdx) (atoms : List Atom)
  /-- Scan a text as a symbol. -/
  | literal (target : SymbolIdx) (text : String)
deriving DecidableEq, Repr

/-- The draft after a call. -/
def Call.run (d : Draft) : Call → Draft
  | property name value => d.property name value
  | symbol name kind => d.symbol name kind
  | production head handles => d.production head handles
  | group g => d.group g
  | lalrState actions => d.lalrState actions
  | pattern target atoms => d.pattern target atoms
  | literal target text => d.literal target text

/-- The draft that some calls build. -/
def ofCalls (calls : List Call) : Draft :=
  calls.foldl Call.run {}

end Draft

/-! ### What a table has room for -/

/-- The largest number that can be written, and one more. -/
def numberLimit : Nat := 0x8000

/-- A group that can be written. -/
@[mk_iff]
structure DraftGroup.IsWritable (g : DraftGroup) : Prop where
  name : '\x00' ∉ g.name.toList
  container : g.container < numberLimit
  startSymbol : g.startSymbol < numberLimit
  endSymbol : g.endSymbol < numberLimit
  advance : g.advance = 0 ∨ g.advance = 1
  ending : g.ending = 0 ∨ g.ending = 1
  nesting : ∀ i ∈ g.nesting, i < numberLimit
  nestingLength : g.nesting.length < numberLimit

instance (g : DraftGroup) : Decidable g.IsWritable :=
  decidable_of_iff _ g.isWritable_iff.symm

/-- An action that can be written. -/
@[mk_iff]
structure DraftAction.IsWritable (a : DraftAction) : Prop where
  symbol : a.symbol < numberLimit
  kind : 1 ≤ a.kind.toInt ∧ a.kind.toInt ≤ 4
  target : a.target < numberLimit

instance (a : DraftAction) : Decidable a.IsWritable :=
  decidable_of_iff _ a.isWritable_iff.symm

/-- A state of the lexical automaton of a draft with so many character sets and states: what it
refers to exists, and the symbol can be written. -/
structure DraftState.Within (s : DraftState) (charsets states : Nat) : Prop where
  accept : ∀ i ∈ s.accept, i < numberLimit
  charset : ∀ e ∈ s.edges, e.charset < charsets
  target : ∀ e ∈ s.edges, e.target < states

theorem DraftState.Within.mono {s : DraftState} {charsets charsets' states states' : Nat}
    (h : s.Within charsets states) (hcharsets : charsets ≤ charsets') (hstates : states ≤ states') :
    s.Within charsets' states' :=
  ⟨h.accept, fun e he => Nat.lt_of_lt_of_le (h.charset e he) hcharsets,
    fun e he => Nat.lt_of_lt_of_le (h.target e he) hstates⟩

namespace Draft

/-- The parts of a draft are no larger than a table has room for. -/
@[mk_iff]
structure HasRoom (d : Draft) : Prop where
  properties : d.properties.length ≤ numberLimit
  symbols : d.symbols.length < numberLimit
  charsets : d.charsets.length < numberLimit
  groups : d.groups.length < numberLimit
  productions : d.productions.length < numberLimit
  dfa : d.dfa.length < numberLimit
  lalr : d.lalr.length < numberLimit
  ranges : ∀ c ∈ d.charsets, c.length < numberLimit
  values : ∀ r ∈ d.records, r.length ≤ 0xFFFF

instance (d : Draft) : Decidable d.HasRoom :=
  decidable_of_iff _ d.hasRoom_iff.symm

/-- What a call is given can be written. -/
def Call.IsWritable : Call → Prop
  | property name value => '\x00' ∉ name.toList ∧ '\x00' ∉ value.toList
  | symbol name kind => '\x00' ∉ name.toList ∧ 0 ≤ kind.toInt ∧ kind.toInt ≤ 7
  | production head handles => head < numberLimit ∧ ∀ h ∈ handles, h < numberLimit
  | group g => g.IsWritable
  | lalrState actions => ∀ a ∈ actions, a.IsWritable
  | pattern target _ => target < numberLimit
  | literal target _ => target < numberLimit

instance : DecidablePred Call.IsWritable
  | .property _ _ => inferInstanceAs (Decidable (_ ∧ _))
  | .symbol _ _ => inferInstanceAs (Decidable (_ ∧ _))
  | .production _ _ => inferInstanceAs (Decidable (_ ∧ _))
  | .group g => inferInstanceAs (Decidable g.IsWritable)
  | .lalrState _ => inferInstanceAs (Decidable (∀ a ∈ _, DraftAction.IsWritable a))
  | .pattern _ _ => inferInstanceAs (Decidable (_ < _))
  | .literal _ _ => inferInstanceAs (Decidable (_ < _))

/-- What a draft has been given can be written, and its lexical automaton refers to nothing that
does not exist. -/
structure WellFormed (d : Draft) : Prop where
  property : ∀ p ∈ d.properties, '\x00' ∉ p.1.toList ∧ '\x00' ∉ p.2.toList
  symbol : ∀ s ∈ d.symbols, '\x00' ∉ s.1.toList ∧ 0 ≤ s.2.toInt ∧ s.2.toInt ≤ 7
  group : ∀ g ∈ d.groups, g.IsWritable
  production : ∀ p ∈ d.productions, p.1 < numberLimit ∧ ∀ h ∈ p.2, h < numberLimit
  lalrState : ∀ actions ∈ d.lalr, ∀ a ∈ actions, a.IsWritable
  dfaState : ∀ s ∈ d.dfa, s.Within d.charsets.length d.dfa.length

namespace WellFormed

variable {d : Draft} {state : DfaStateIdx}

/-- A new part that can be written may come last. -/
theorem forall_mem_concat {α : Type} {P : α → Prop} {as : List α} {a : α} (h : ∀ x ∈ as, P x)
    (ha : P a) : ∀ x ∈ as ++ [a], P x :=
  List.forall_mem_append.2 ⟨h, List.forall_mem_singleton.2 ha⟩

theorem of_empty : ({} : Draft).WellFormed := by
  constructor
  case dfaState => exact List.forall_mem_singleton.2 ⟨nofun, nofun, nofun⟩
  all_goals exact nofun

/-! ### The lexical automaton grows -/

theorem charset (h : d.WellFormed) (ranges : List CodeRange) :
    (d.charset ranges).1.WellFormed ∧ (d.charset ranges).1.dfa = d.dfa ∧
      (d.charset ranges).2 < (d.charset ranges).1.charsets.length := by
  unfold Draft.charset
  split
  · rename_i i hi
    exact ⟨h, rfl, (List.findIdx?_eq_some_iff_findIdx_eq.1 hi).1⟩
  · refine ⟨{ h with dfaState := fun s hs => (h.dfaState s hs).mono ?_ (Nat.le_refl _) }, rfl, ?_⟩
    · simp only [List.length_append, Nat.le_add_right]
    · simp only [List.length_append, List.length_singleton, Nat.lt_add_one]

theorem addState (h : d.WellFormed) : d.addState.WellFormed := by
  refine { h with dfaState := forall_mem_concat (fun s hs => ?_) ⟨nofun, nofun, nofun⟩ }
  refine (h.dfaState s hs).mono (Nat.le_refl _) ?_
  simp only [Draft.addState, List.length_append, Nat.le_add_right]

/-- A state may change as long as what it refers to exists. -/
theorem modifyState (h : d.WellFormed) {f : DraftState → DraftState}
    (hf : ∀ s, s.Within d.charsets.length d.dfa.length →
      (f s).Within d.charsets.length d.dfa.length) : (d.modifyState state f).WellFormed := by
  refine { h with dfaState := fun s hs => ?_ }
  simp only [Draft.modifyState, List.length_modify] at hs ⊢
  obtain ⟨i, hi⟩ := List.mem_iff_getElem?.1 hs
  rw [List.getElem?_modify, Option.map_eq_map, Option.map_eq_some_iff] at hi
  obtain ⟨t, ht, rfl⟩ := hi
  have hwithin := h.dfaState t (List.mem_of_getElem? ht)
  split
  · exact hf t hwithin
  · exact hwithin

theorem addEdge (h : d.WellFormed) {e : Edge} (hcharset : e.charset < d.charsets.length)
    (htarget : e.target < d.dfa.length) : (d.addEdge state e).WellFormed :=
  h.modifyState fun _ hs => ⟨hs.accept, forall_mem_concat hs.charset hcharset,
    forall_mem_concat hs.target htarget⟩

theorem addLoop (h : d.WellFormed) {charset : CharSetIdx} (hcharset : charset < d.charsets.length)
    (hstate : state < d.dfa.length) :
    (d.addLoop state charset).WellFormed ∧ (d.addLoop state charset).dfa.length = d.dfa.length := by
  unfold Draft.addLoop
  split
  · exact ⟨h, rfl⟩
  · exact ⟨h.addEdge hcharset hstate, List.length_modify _ _ _⟩

theorem lt_of_next? (h : d.WellFormed) {charset : CharSetIdx} {target : DfaStateIdx}
    (hnext : d.next? state charset = some target) : target < d.dfa.length := by
  unfold Draft.next? edgesAt at hnext
  obtain ⟨e, hfind, rfl⟩ := Option.map_eq_some_iff.1 hnext
  have hmem := List.mem_of_find?_eq_some hfind
  cases hs : d.dfa[state]? with
  | none => simp [hs] at hmem
  | some s =>
    rw [hs] at hmem
    exact (h.dfaState s (List.mem_of_getElem? hs)).target e hmem

/-- An atom leads to a state that exists. -/
theorem step (h : d.WellFormed) (a : Atom) :
    (d.step state a).1.WellFormed ∧ (d.step state a).2 < (d.step state a).1.dfa.length := by
  obtain ⟨hd, hdfa, hcharset⟩ := h.charset a.ranges
  unfold Draft.step
  generalize d.charset a.ranges = found at hd hdfa hcharset
  obtain ⟨d', charset⟩ := found
  dsimp only at hd hcharset ⊢
  -- the state is an old one, or the new last one, and may get an edge to itself
  have hrepeats : ∀ {next : Draft} {target : DfaStateIdx}, next.WellFormed →
      charset < next.charsets.length → target < next.dfa.length →
      (if a.repeats then next.addLoop target charset else next).WellFormed ∧
        target < (if a.repeats then next.addLoop target charset else next).dfa.length := by
    intro next target hnext hcharset htarget
    split
    · obtain ⟨hloop, hlen⟩ := hnext.addLoop hcharset htarget
      exact ⟨hloop, hlen ▸ htarget⟩
    · exact ⟨hnext, htarget⟩
  cases hnext : d'.next? state charset with
  | some target => exact hrepeats hd hcharset (hd.lt_of_next? hnext)
  | none =>
    have hlast : d'.dfa.length < d'.addState.dfa.length := by
      simp only [Draft.addState, List.length_append, List.length_singleton, Nat.lt_add_one]
    refine hrepeats (hd.addState.addEdge hcharset hlast) hcharset ?_
    rwa [Draft.addEdge, Draft.modifyState, List.length_modify]

theorem path (h : d.WellFormed) (atoms : List Atom) : (d.path state atoms).1.WellFormed := by
  induction atoms generalizing d state with
  | nil => exact h
  | cons a atoms ih => exact ih (h.step a).1

theorem pattern (h : d.WellFormed) {symbol : SymbolIdx} (hsymbol : symbol < numberLimit)
    (atoms : List Atom) : (d.pattern symbol atoms).WellFormed := by
  refine (h.path atoms).modifyState fun s hs => ⟨?_, hs.charset, hs.target⟩
  rintro i ⟨⟩
  exact hsymbol

/-! ### Calls -/

/-- A call that can be written keeps a draft well-formed. -/
theorem run (h : d.WellFormed) {c : Call} (hc : c.IsWritable) : (c.run d).WellFormed := by
  cases c with
  | property name value => exact { h with property := forall_mem_concat h.property hc }
  | symbol name kind => exact { h with symbol := forall_mem_concat h.symbol hc }
  | production head handles => exact { h with production := forall_mem_concat h.production hc }
  | group g => exact { h with group := forall_mem_concat h.group hc }
  | lalrState actions => exact { h with lalrState := forall_mem_concat h.lalrState hc }
  | pattern target atoms => exact h.pattern hc atoms
  | literal target text => exact h.pattern hc _

theorem ofCalls {calls : List Call} (h : ∀ c ∈ calls, c.IsWritable) :
    (Draft.ofCalls calls).WellFormed := by
  unfold Draft.ofCalls
  generalize hstart : ({} : Draft) = start
  have hwf : start.WellFormed := hstart ▸ of_empty
  clear hstart
  induction calls generalizing start with
  | nil => exact hwf
  | cons c calls ih =>
    obtain ⟨hc, hcalls⟩ := List.forall_mem_cons.1 h
    exact ih hcalls _ (hwf.run hc)

end WellFormed

end Draft

end CompiledGrammar
