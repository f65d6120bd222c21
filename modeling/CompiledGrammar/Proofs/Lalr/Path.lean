import CompiledGrammar.Parser.Basic
import Mathlib.Data.List.Basic

/-!
# Paths of an LALR automaton

Shifts and gotos are the transitions of an LALR automaton, and `Grammar.Path` follows them.

`Grammar.Consistent` is what the maker of a table promises about its paths.  Whether a table keeps
the promise is found out by following its finitely many edges backwards (`Grammar.pathsInto`) from
each state that reduces a production: `Grammar.consistent_of_check`.
-/

namespace CompiledGrammar

/-- The state that an action moves on to over its symbol. -/
def Action.target? : Action → Option LalrStateIdx
  | shift state => some state
  | goto state => some state
  | _ => none

namespace Grammar

variable (g : Grammar)

/-- The state that a state moves on to over a symbol. -/
def transition? (q : LalrStateIdx) (s : SymbolIdx) : Option LalrStateIdx :=
  (g.action? q s).bind Action.target?

/-- Consecutive transitions, with their symbols in order. -/
inductive Path : LalrStateIdx → List SymbolIdx → LalrStateIdx → Prop where
  /-- No transition at all. -/
  | nil {q : LalrStateIdx} : Path q [] q
  /-- One more transition at the end. -/
  | snoc {r q t : LalrStateIdx} {symbols : List SymbolIdx} {s : SymbolIdx} :
      Path r symbols q → g.transition? q s = some t → Path r (symbols ++ [s]) t

/-- What the maker of a table promises: reductions match the paths to them, the initial state is
only ever the first one, and the input is accepted just after the start symbol. -/
structure Consistent (start : SymbolIdx) : Prop where
  /-- As many transitions as a production has handles, to a state that reduces it, are over its
  handles. -/
  reduce : ∀ {r q : LalrStateIdx} {s : SymbolIdx} {i : ProductionIdx} {p : Production}
    {symbols : List SymbolIdx}, g.action? q s = some (.reduce i) → g.productions[i]? = some p →
    g.Path r symbols q → symbols.length = p.handles.length → symbols = p.handles
  /-- No transition enters the initial state. -/
  not_enter_initial : ∀ {q : LalrStateIdx} {s : SymbolIdx}, g.transition? q s ≠ some g.lalrInitial
  /-- The initial state does not accept. -/
  not_accept_initial : ∀ {s : SymbolIdx}, g.action? g.lalrInitial s ≠ some .accept
  /-- A state that accepts is entered from the initial state only, over the start symbol. -/
  accept : ∀ {r q : LalrStateIdx} {s s' : SymbolIdx}, g.action? q s = some .accept →
    g.transition? r s' = some q → r = g.lalrInitial ∧ s' = start

/-! ### Finite tables -/

/-- All actions, with their states and symbols. -/
def entries : List (LalrStateIdx × SymbolIdx × Action) :=
  g.lalrStates.toList.zipIdx.flatMap fun (state, q) =>
    state.table.toList.zipIdx.filterMap fun (action, s) => action.map fun a => (q, s, a)

/-- All transitions. -/
def edges : List (LalrStateIdx × SymbolIdx × LalrStateIdx) :=
  g.entries.filterMap fun (q, s, a) => a.target?.map fun t => (q, s, t)

/-- All paths of `n` transitions to a state, each with the state it starts from. -/
def pathsInto : Nat → LalrStateIdx → List (LalrStateIdx × List SymbolIdx)
  | 0, q => [(q, [])]
  | n + 1, q => (g.edges.filter fun (_, _, t) => t == q).flatMap fun (r, s, _) =>
      (pathsInto n r).map fun (first, symbols) => (first, symbols ++ [s])

/-- A table keeps its promise. -/
def checkConsistent (start : SymbolIdx) : Bool :=
  (g.entries.all fun (q, _, a) =>
    match a with
    | .reduce i => g.productions[i]?.all fun p =>
        (g.pathsInto p.handles.length q).all fun (_, symbols) => symbols == p.handles
    | .accept => q != g.lalrInitial &&
        g.edges.all fun (r, s, t) => t != q || r == g.lalrInitial && s == start
    | _ => true) &&
  g.edges.all fun (_, _, t) => t != g.lalrInitial

variable {g}

theorem action?_of_goto {q t : LalrStateIdx} {s : SymbolIdx} (h : g.goto? q s = some t) :
    g.action? q s = some (.goto t) := by
  unfold goto? at h
  split at h
  · rename_i target haction
    rw [haction, Option.some.inj h]
  · cases h

theorem mem_entries {q : LalrStateIdx} {s : SymbolIdx} {a : Action}
    (h : g.action? q s = some a) : (q, s, a) ∈ g.entries := by
  unfold action? at h
  obtain ⟨state, hstate, h⟩ := Option.bind_eq_some_iff.1 h
  unfold LalrState.action? at h
  -- a place of the table without an action is as good as no place
  have htable : state.table[s]? = some (some a) := by
    cases hs : state.table[s]? with
    | none => rw [hs] at h; cases h
    | some action => rw [hs] at h; rw [← h]; rfl
  refine List.mem_flatMap.2 ⟨(state, q), ?_, List.mem_filterMap.2 ⟨(some a, s), ?_, rfl⟩⟩
  · rw [List.mem_zipIdx_iff_getElem?, Array.getElem?_toList]
    exact hstate
  · rw [List.mem_zipIdx_iff_getElem?, Array.getElem?_toList]
    exact htable

theorem mem_edges {q t : LalrStateIdx} {s : SymbolIdx} (h : g.transition? q s = some t) :
    (q, s, t) ∈ g.edges := by
  obtain ⟨a, ha, ht⟩ := Option.bind_eq_some_iff.1 h
  exact List.mem_filterMap.2 ⟨(q, s, a), mem_entries ha, by simp only [ht, Option.map_some]⟩

theorem mem_pathsInto {r q : LalrStateIdx} {symbols : List SymbolIdx} (h : g.Path r symbols q) :
    (r, symbols) ∈ g.pathsInto symbols.length q := by
  induction h with
  | nil => exact List.mem_singleton_self _
  | @snoc q t symbols s _ hst ih =>
    rw [List.length_append, List.length_singleton]
    refine List.mem_flatMap.2 ⟨(q, s, t), ?_, List.mem_map.2 ⟨_, ih, rfl⟩⟩
    exact List.mem_filter.2 ⟨mem_edges hst, by simp⟩

theorem consistent_of_check {start : SymbolIdx} (h : g.checkConsistent start = true) :
    g.Consistent start := by
  obtain ⟨hentries, hedges⟩ := Bool.and_eq_true_iff.1 h
  rw [List.all_eq_true] at hentries hedges
  refine ⟨?_, ?_, ?_, ?_⟩
  · intro r q s i p symbols ha hp hpath hlen
    have hreduce := hentries _ (mem_entries ha)
    simp only [hp, Option.all_some, List.all_eq_true] at hreduce
    simpa using hreduce _ (hlen ▸ mem_pathsInto hpath)
  · intro q s htransition
    simpa using hedges _ (mem_edges htransition)
  · intro s ha
    have haccept := hentries _ (mem_entries ha)
    simp at haccept
  · intro r q s s' ha htransition
    have haccept := hentries _ (mem_entries ha)
    simp only [Bool.and_eq_true, List.all_eq_true] at haccept
    simpa using haccept.2 _ (mem_edges htransition)

end Grammar

end CompiledGrammar
