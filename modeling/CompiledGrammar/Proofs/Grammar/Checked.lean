import CompiledGrammar.Proofs.Grammar.WellFormed

/-!
# Linking never looks up a row that does not exist

Deriving the parts of a grammar from its rows looks up rows by number all over.  `Rows.toGrammar`
has a default wherever a row is not found; `Rows.toGrammar?` has none, and fails at the first lookup
or assignment out of range.  The names of the checked definitions of this module are those of the
definitions they check, with a question mark.

* Every checked definition gives what the other one does if numbers are in range:
  `Lookup.ofState?_eq`, `SinglePath.accepts?_eq`, `Rows.productionId?_eq`, `inferRules?_eq`,
  `LalrRow.table?_eq`, and from them `Rows.toGrammar?_eq`.
* Validation is what puts numbers in range, so a table is always linked without a failure
  (`Grammar.ofBytes?_eq`).
* `Grammar.ofBytes_validates` sums up what validation guarantees.
-/

namespace CompiledGrammar

theorem mapM_eq_some_map {α β : Type} {f : α → Option β} {f' : α → β} {xs : List α}
    (h : ∀ x ∈ xs, f x = some (f' x)) : xs.mapM f = some (xs.map f') := by
  induction xs with
  | nil => rfl
  | cons x xs ih =>
    rw [List.mapM_cons, h x List.mem_cons_self, ih fun y hy => h y (List.mem_cons_of_mem _ hy)]
    rfl

theorem mapM_eq_some_filterMap {α β : Type} {f : α → Option β} {xs : List α}
    (h : ∀ x ∈ xs, (f x).isSome = true) : xs.mapM f = some (xs.filterMap f) := by
  induction xs with
  | nil => rfl
  | cons x xs ih =>
    obtain ⟨y, hy⟩ := Option.isSome_iff_exists.1 (h x List.mem_cons_self)
    rw [List.mapM_cons, hy, ih fun z hz => h z (List.mem_cons_of_mem _ hz),
      List.filterMap_cons_some hy]
    rfl

/-- The number, if it is that of one of `n` rows. -/
def inRange? (n i : Nat) : Option Nat :=
  if i < n then some i else none

theorem mapM_inRange? {n : Nat} {is : List Nat} (h : ∀ i ∈ is, i < n) :
    is.mapM (inRange? n) = some is := by
  have hmap : is.mapM (inRange? n) = some (is.map fun i => i) :=
    mapM_eq_some_map fun i hi => if_pos (h i hi)
  rwa [List.map_id'] at hmap

/-! ### The lexical automaton -/

namespace Lookup

/-- Set the entries of a range that the table has to have. -/
def paint? (table : Array Transition) (r : TransitionRange) : Option (Array Transition) :=
  if r.first < asciiSize then
    let last := min r.last (asciiSize - 1)
    if r.first ≤ last + 1 ∧ last < table.size then some (paint table r) else none
  else some table

/-- The ranges of the edges of a state. -/
def edgeRanges? (charset : CharSetIdx → Option (List CodeRange)) (s : DfaRow) :
    Option (List TransitionRange) := do
  let ranges ← s.edges.mapM fun e => do
    let members ← charset e.charset
    return (members.filter fun r => r.first ≤ r.last).map fun r =>
      ⟨r.first.toNat, r.last.toNat, edgeTransition s e⟩
  return ranges.flatten

/-- The tables of a state. -/
def ofState? (charset : CharSetIdx → Option (List CodeRange)) (s : DfaRow) : Option Lookup := do
  let ranges ← edgeRanges? charset s
  let ascii ← ranges.foldlM paint? (Array.replicate asciiSize .dead)
  return { ascii, ranges := sortRanges (ranges.filterMap beyondAscii) }

theorem paint?_eq {table : Array Transition} {r : TransitionRange}
    (htable : table.size = asciiSize) (hr : r.first ≤ r.last) :
    paint? table r = some (paint table r) := by
  unfold paint?
  by_cases hfirst : r.first < asciiSize
  · have hsize : min r.last (asciiSize - 1) < table.size := by
      rw [htable]
      exact Nat.lt_of_le_of_lt (Nat.min_le_right _ _) (by decide)
    rw [if_pos hfirst, if_pos ⟨by omega, hsize⟩]
  · -- the range starts beyond the table
    rw [if_neg hfirst]
    congr 1
    refine Array.ext (by simp only [paint, Array.size_mapIdx]) fun i hi _ => ?_
    simp only [paint, Array.getElem_mapIdx]
    rw [if_neg (by omega)]

theorem foldlM_paint? {rs : List TransitionRange} {table : Array Transition}
    (htable : table.size = asciiSize) (hrs : ∀ r ∈ rs, r.first ≤ r.last) :
    rs.foldlM paint? table = some (rs.foldl paint table) := by
  induction rs generalizing table with
  | nil => rfl
  | cons r rs ih =>
    rw [List.foldlM_cons, paint?_eq htable (hrs r List.mem_cons_self), List.foldl_cons]
    exact ih (by rw [paint, Array.size_mapIdx, htable]) fun s hs =>
      hrs s (List.mem_cons_of_mem _ hs)

theorem first_le_last {charset : CharSetIdx → List CodeRange} {s : DfaRow} {r : TransitionRange}
    (h : r ∈ edgeRanges charset s) : r.first ≤ r.last := by
  obtain ⟨e, -, hr⟩ := List.mem_flatMap.1 h
  obtain ⟨m, hm, rfl⟩ := List.mem_map.1 hr
  have hle := (List.mem_filter.1 hm).2
  exact UInt16.le_iff_toNat_le.1 (by simpa using hle)

theorem ofState?_eq {charset? : CharSetIdx → Option (List CodeRange)}
    {charset : CharSetIdx → List CodeRange} {s : DfaRow}
    (h : ∀ e ∈ s.edges, charset? e.charset = some (charset e.charset)) :
    ofState? charset? s = some (ofState charset s) := by
  have hranges : edgeRanges? charset? s = some (edgeRanges charset s) := by
    unfold edgeRanges?
    rw [mapM_eq_some_map fun e he => by rw [h e he]; rfl]
    rfl
  unfold ofState?
  rw [hranges]
  simp only [bind, Option.bind, foldlM_paint? Array.size_replicate fun _ => first_le_last]
  rfl

end Lookup

namespace SinglePath

variable {states : List DfaRow} {initial i : DfaStateIdx}

/-- The states that a state has edges to. -/
def targets? (states : List DfaRow) (i : DfaStateIdx) : Option (List DfaStateIdx) := do
  let s ← states[i]?
  s.edges.mapM fun e => inRange? states.length e.target

/-- Explore from the states of `frontier`, all of them in `seen`, for `n` rounds. -/
def explore? (states : List DfaRow) : Nat → List DfaStateIdx → List DfaStateIdx →
    Option (List DfaStateIdx)
  | 0, _, seen => some seen
  | n + 1, frontier, seen => do
    let found ← frontier.mapM (targets? states)
    match found.flatten.eraseDups.filter fun i => !seen.contains i with
    | [] => some seen
    | fresh => explore? states n fresh (seen ++ fresh)

/-- The states that can be reached from those of `starts`. -/
def reachable? (states : List DfaRow) (starts : List DfaStateIdx) : Option (List DfaStateIdx) := do
  let starts ← starts.mapM (inRange? states.length)
  explore? states states.length starts.eraseDups starts.eraseDups

/-- Every arrival at a state. -/
def arrivals? (states : List DfaRow) (initial : DfaStateIdx) : Option (List DfaStateIdx) := do
  let reached ← reachable? states [initial]
  let found ← reached.mapM (targets? states)
  return initial :: found.flatten

/-- The states that are arrived at twice, or can be reached from one that is. -/
def shared? (states : List DfaRow) (initial : DfaStateIdx) : Option (List DfaStateIdx) := do
  let all ← arrivals? states initial
  reachable? states (all.filter fun i => 1 < all.count i)

/-- The states that exactly one path leads to. -/
def singles? (states : List DfaRow) (initial : DfaStateIdx) : Option (List DfaStateIdx) := do
  let several ← shared? states initial
  let reached ← reachable? states [initial]
  return reached.filter fun i => !several.contains i

/-- The symbols that states with a single path accept, once for each such state. -/
def accepts? (states : List DfaRow) (initial : DfaStateIdx) : Option (List SymbolIdx) := do
  let single ← singles? states initial
  let rows ← single.mapM fun i => states[i]?
  return rows.filterMap DfaRow.accept

/-- The edges of all states lead to states. -/
def Closed (states : List DfaRow) : Prop :=
  ∀ s ∈ states, ∀ e ∈ s.edges, e.target < states.length

theorem targets?_eq (hstates : Closed states) (hi : i < states.length) :
    targets? states i = some (targets states i) := by
  have hget := List.getElem?_eq_getElem hi
  have hedges : (states[i].edges.map Edge.target).mapM (inRange? states.length) = some _ :=
    mapM_inRange? (List.forall_mem_map.2 (hstates _ (List.getElem_mem hi)))
  rw [List.mapM_map] at hedges
  rw [targets?, targets, hget]
  exact hedges

theorem lt_of_mem_targets (hstates : Closed states) {j : DfaStateIdx}
    (hj : j ∈ targets states i) : j < states.length := by
  unfold targets at hj
  split at hj
  · rename_i s hs
    obtain ⟨e, he, rfl⟩ := List.mem_map.1 hj
    exact hstates s (List.mem_of_getElem? hs) e he
  · cases hj

theorem mapM_targets? (hstates : Closed states) {is : List DfaStateIdx}
    (his : ∀ i ∈ is, i < states.length) :
    is.mapM (targets? states) = some (is.map (targets states)) :=
  mapM_eq_some_map fun i hi => targets?_eq hstates (his i hi)

theorem lt_of_mem_flatMap_targets (hstates : Closed states) {is : List DfaStateIdx} :
    ∀ i ∈ is.flatMap (targets states), i < states.length := by
  intro i hi
  obtain ⟨_, -, hi⟩ := List.mem_flatMap.1 hi
  exact lt_of_mem_targets hstates hi

/-- Exploring from states leads to states. -/
theorem explore?_eq (hstates : Closed states) (n : Nat) {frontier seen : List DfaStateIdx}
    (hfrontier : ∀ i ∈ frontier, i < states.length) (hseen : ∀ i ∈ seen, i < states.length) :
    explore? states n frontier seen = some (explore states n frontier seen) ∧
      ∀ i ∈ explore states n frontier seen, i < states.length := by
  induction n generalizing frontier seen with
  | zero => exact ⟨rfl, hseen⟩
  | succ n ih =>
    simp only [explore?, explore, mapM_targets? hstates hfrontier, Option.bind_eq_bind,
      Option.bind_some, ← List.flatMap_def]
    have hfound : ∀ i ∈ frontier.flatMap (targets states), i < states.length :=
      lt_of_mem_flatMap_targets hstates
    generalize hfresh : (List.filter _ (frontier.flatMap (targets states)).eraseDups) = fresh
    have hlt : ∀ i ∈ fresh, i < states.length := by
      intro i hi
      rw [← hfresh] at hi
      exact hfound i (List.mem_eraseDups.1 (List.mem_filter.1 hi).1)
    cases fresh with
    | nil => exact ⟨rfl, hseen⟩
    | cons first rest => exact ih hlt (List.forall_mem_append.2 ⟨hseen, hlt⟩)

theorem reachable?_eq (hstates : Closed states) {starts : List DfaStateIdx}
    (hstarts : ∀ i ∈ starts, i < states.length) :
    reachable? states starts = some (reachable states starts) ∧
      ∀ i ∈ reachable states starts, i < states.length := by
  have hdups : ∀ i ∈ starts.eraseDups, i < states.length :=
    fun i hi => hstarts i (List.mem_eraseDups.1 hi)
  unfold reachable? reachable
  rw [mapM_inRange? hstarts]
  exact explore?_eq hstates states.length hdups hdups

theorem arrivals?_eq (hstates : Closed states) (hinitial : initial < states.length) :
    arrivals? states initial = some (arrivals states initial) ∧
      ∀ i ∈ arrivals states initial, i < states.length := by
  obtain ⟨hreached, hlt⟩ := reachable?_eq hstates (List.forall_mem_singleton.2 hinitial)
  refine ⟨?_, List.forall_mem_cons.2 ⟨hinitial, lt_of_mem_flatMap_targets hstates⟩⟩
  simp only [arrivals?, arrivals, hreached, mapM_targets? hstates hlt, Option.bind_eq_bind,
    Option.bind_some, List.flatMap_def]
  rfl

theorem shared?_eq (hstates : Closed states) (hinitial : initial < states.length) :
    shared? states initial = some (shared states initial) := by
  obtain ⟨harrivals, hlt⟩ := arrivals?_eq hstates hinitial
  unfold shared? shared
  rw [harrivals]
  exact (reachable?_eq hstates fun i hi => hlt i (List.mem_filter.1 hi).1).1

theorem singles?_eq (hstates : Closed states) (hinitial : initial < states.length) :
    singles? states initial = some (singles states initial) ∧
      ∀ i ∈ singles states initial, i < states.length := by
  obtain ⟨hreached, hlt⟩ := reachable?_eq hstates (List.forall_mem_singleton.2 hinitial)
  refine ⟨?_, fun i hi => hlt i (List.mem_filter.1 hi).1⟩
  simp only [singles?, singles, shared?_eq hstates hinitial, hreached, Option.bind_eq_bind,
    Option.bind_some]
  rfl

theorem accepts?_eq (hstates : Closed states) (hinitial : initial < states.length) :
    accepts? states initial = some (accepts states initial) := by
  obtain ⟨hsingles, hlt⟩ := singles?_eq hstates hinitial
  have hsome : ∀ i ∈ singles states initial, states[i]?.isSome = true := by
    simpa using hlt
  have hrows := mapM_eq_some_filterMap hsome
  simp only [accepts?, accepts, hsingles, hrows, Option.bind_eq_bind, Option.bind_some]
  exact congrArg some List.filterMap_filterMap

end SinglePath

/-! ### Productions -/

namespace Rows

variable (r : Rows)

/-- The text of the handles in the identifier of a production. -/
def handlesId? : List SymbolIdx → Option String
  | [] => some ""
  | h :: handles => do
    let s ← r.symbols[h]?
    let rest ← handlesId? handles
    return " " ++ s.id ++ rest

/-- The identifier of a production. -/
def productionId? (p : ProductionRow) : Option String := do
  let s ← r.symbols[p.head]?
  let handles ← r.handlesId? p.handles
  return s.id ++ " ::=" ++ handles

variable {r}

theorem symbolId_eq {i : SymbolIdx} {s : SymbolRow} (h : r.symbols[i]? = some s) :
    r.symbolId i = s.id := by
  rw [symbolId, h, Option.map_some, Option.getD_some]

theorem handlesId?_eq {handles : List SymbolIdx} (h : ∀ i ∈ handles, i < r.symbols.length) :
    r.handlesId? handles = some (r.handlesId handles) := by
  induction handles with
  | nil => rfl
  | cons i handles ih =>
    have hget := List.getElem?_eq_getElem (h i List.mem_cons_self)
    simp only [handlesId?, handlesId, hget, symbolId_eq hget,
      ih fun j hj => h j (List.mem_cons_of_mem _ hj), Option.bind_eq_bind, Option.bind_some]
    rfl

theorem productionId?_eq {p : ProductionRow} (hp : p.Within r.size) :
    r.productionId? p = some (r.productionId p) := by
  have hget := List.getElem?_eq_getElem hp.head
  simp only [productionId?, productionId, hget, symbolId_eq hget, handlesId?_eq hp.handles,
    Option.bind_eq_bind, Option.bind_some]
  rfl

end Rows

/-- The rules that fit a production with the given handles. -/
def inferRules? (symbols : List Symbol) (p : ProductionRow) : Option TreeRules := do
  let handles ← p.handles.mapM fun h => symbols[h]?
  let nonTerminals := handles.countP (·.kind == .nonTerminal)
  let terminals := handles.countP (·.kind == .terminal)
  let varied := handles.countP fun s => s.kind == .terminal && !s.singleLexeme
  return {
    forwardChild :=
      (nonTerminals == 1 && terminals == 0) || (nonTerminals == 0 && varied == 1) ||
        (nonTerminals == 0 && terminals == 1)
    mergeChild := false
    listifyRecursion :=
      (p.handles.zip handles).any fun (h, s) => h == p.head && s.kind == .nonTerminal
    removeSingleLexeme := (0 < nonTerminals || 0 < varied) && varied < terminals }

theorem any_zip_filterMap {α β : Type} {f : α → Option β} {xs : List α}
    (h : ∀ x ∈ xs, (f x).isSome = true) (P : α → Bool) (Q : β → Bool) :
    ((xs.zip (xs.filterMap f)).any fun (x, y) => P x && Q y) =
      xs.any fun x => P x && (f x).any Q := by
  induction xs with
  | nil => rfl
  | cons x xs ih =>
    obtain ⟨y, hy⟩ := Option.isSome_iff_exists.1 (h x List.mem_cons_self)
    rw [List.filterMap_cons_some hy, List.zip_cons_cons, List.any_cons, List.any_cons,
      ih fun z hz => h z (List.mem_cons_of_mem _ hz), hy, Option.any_some]

theorem inferRules?_eq {symbols : List Symbol} {p : ProductionRow}
    (h : ∀ i ∈ p.handles, i < symbols.length) :
    inferRules? symbols p = some (inferRules symbols p) := by
  have hsome : ∀ i ∈ p.handles, symbols[i]?.isSome = true := by
    simpa using h
  have hrecursive := any_zip_filterMap hsome (· == p.head) (·.kind == .nonTerminal)
  unfold inferRules? inferRules
  rw [mapM_eq_some_filterMap hsome, ← hrecursive]
  rfl

/-! ### The LALR automaton -/

/-- Set the action on a symbol that the table has to have. -/
def setAction? (table : Array (Option Action)) (a : SymbolIdx × Action) :
    Option (Array (Option Action)) :=
  if h : a.1 < table.size then some (table.set a.1 (some a.2)) else none

/-- The actions of a state on each of `n` symbols. -/
def LalrRow.table? (n : Nat) (s : LalrRow) : Option (Array (Option Action)) :=
  s.actions.foldlM setAction? (Array.replicate n none)

theorem ActionMap.lookup_concat {actions : ActionMap} {a : SymbolIdx × Action}
    (hsorted : (actions ++ [a]).Pairwise fun a b => a.1 < b.1) (i : SymbolIdx) :
    (actions ++ [a]).lookup i = if a.1 = i then some a.2 else actions.lookup i := by
  have hlast := (List.pairwise_append.1 hsorted).2.2
  rw [List.lookup_append]
  by_cases hi : a.1 = i
  · -- an earlier action is on a lesser symbol
    have hnone : actions.lookup i = none := by
      rw [List.lookup_eq_none_iff]
      intro b hb
      have hlt := hlast b hb a List.mem_cons_self
      rw [hi] at hlt
      simpa using Nat.ne_of_gt hlt
    rw [if_pos hi, hnone, Option.none_or, ← hi, List.lookup_cons, beq_self_eq_true]
  · have hne : (i == a.1) = false := by simpa using Ne.symm hi
    rw [if_neg hi, List.lookup_cons, hne, List.lookup_nil, Option.or_none]

theorem LalrRow.table?_eq {n : Nat} {s : LalrRow} (hsorted : s.IsSorted)
    (hlt : ∀ a ∈ s.actions, a.1 < n) :
    s.table? n = some ((List.range n).map fun i => s.actions.lookup i).toArray := by
  unfold table?
  unfold IsSorted at hsorted
  generalize s.actions = actions at hsorted hlt
  induction actions using List.reverseRecOn with
  | nil =>
    rw [List.foldlM_nil]
    refine congrArg some (Array.ext (by simp) fun i _ _ => by simp)
  | append_singleton actions a ih =>
    have hinit := ih (List.pairwise_append.1 hsorted).1 fun b hb =>
      hlt b (List.mem_append_left _ hb)
    have ha : a.1 < n := hlt a (List.mem_append_right _ List.mem_cons_self)
    rw [List.foldlM_append, hinit]
    simp only [Option.bind_eq_bind, Option.bind_some, List.foldlM_cons, List.foldlM_nil, setAction?]
    rw [dif_pos (by simpa using ha)]
    refine congrArg some (Array.ext (by simp) fun i hi _ => ?_)
    rw [Array.getElem_set]
    simp [ActionMap.lookup_concat hsorted]

/-! ### Groups -/

namespace Rows

variable (r : Rows)

/-- Note for the symbol that starts a group that it does, unless it starts another. -/
def setGroup? (table : Array (Option GroupIdx)) (g : Group) : Option (Array (Option GroupIdx)) :=
  if h : g.startSymbol < table.size then
    match table[g.startSymbol] with
    | none => some (table.set g.startSymbol (some g.index))
    | some _ => some table
  else none

/-- The group that each symbol starts, if it starts one. -/
def groupStarts? : Option (Array (Option GroupIdx)) :=
  r.groups.foldlM setGroup? (Array.replicate r.symbols.length none)

variable {r}

theorem groupStarts?_eq (hgroups : ∀ g ∈ r.groups, g.startSymbol < r.symbols.length) :
    r.groupStarts? = some ((List.range r.symbols.length).map fun i =>
      (r.groups.find? (·.startSymbol == i)).map Group.index).toArray := by
  unfold groupStarts?
  generalize r.symbols.length = n at hgroups
  generalize r.groups = groups at hgroups
  induction groups using List.reverseRecOn with
  | nil => exact congrArg some (Array.ext (by simp) fun i _ _ => by simp)
  | append_singleton groups g ih =>
    have hinit := ih fun other hother => hgroups other (List.mem_append_left _ hother)
    have hg : g.startSymbol < n := hgroups g (List.mem_append_right _ List.mem_cons_self)
    rw [List.foldlM_append, hinit]
    simp only [Option.bind_eq_bind, Option.bind_some, List.foldlM_cons, List.foldlM_nil, setGroup?]
    rw [dif_pos (by simpa using hg)]
    -- the first group that a symbol starts is an earlier one, or else this one
    have hfirst (i : SymbolIdx) : (groups ++ [g]).find? (·.startSymbol == i) =
        (groups.find? (·.startSymbol == i)).or (if g.startSymbol = i then some g else none) := by
      simp [List.find?_append, List.find?_singleton]
    cases hfind : groups.find? (·.startSymbol == g.startSymbol) with
    | none =>
      simp only [List.getElem_toArray, List.getElem_map, List.getElem_range, hfind, Option.map_none]
      refine congrArg some (Array.ext (by simp) fun i hi _ => ?_)
      rw [Array.getElem_set]
      by_cases hi : g.startSymbol = i
      · subst hi
        simp [hfirst, hfind]
      · simp [hfirst, hi]
    | some first =>
      simp only [List.getElem_toArray, List.getElem_map, List.getElem_range, hfind, Option.map_some]
      refine congrArg some (Array.ext (by simp) fun i hi _ => ?_)
      by_cases hi : g.startSymbol = i
      · subst hi
        simp [hfirst, hfind]
      · simp [hfirst, hi]

/-! ### Grammars -/

variable (r)

/-- The symbols, with the analysis of their lexemes. -/
def linkSymbols? : Option (List Symbol) := do
  let found ← SinglePath.accepts? r.dfaStates r.dfaInitial
  let accepts ← found.mapM (inRange? r.symbols.length)
  return r.symbols.map fun s => { s with singleLexeme := accepts.count s.index == 1 }

/-- The grammar with these rows and the given special symbols. -/
def toGrammar? (eofSymbol errorSymbol : SymbolIdx) : Option Grammar := do
  let symbols ← r.linkSymbols?
  let productions ← r.productions.mapM fun p => do
    let id ← r.productionId? p
    let rules ← inferRules? symbols p
    return { p with id, rules }
  let _ ← r.groupStarts?
  let dfaStates ← r.dfaStates.mapM fun s => do
    let lookup ← Lookup.ofState? (fun i => r.charsets[i]?.map CharacterSet.ranges) s
    return { s with lookup }
  let lalrStates ← r.lalrStates.mapM fun s => do
    let table ← s.table? r.symbols.length
    return { s with table }
  return {
    properties := r.properties
    charsets := r.charsets.toArray
    symbols := symbols.toArray
    groups := r.groups.toArray
    productions := productions.toArray
    dfaStates := dfaStates.toArray
    lalrStates := lalrStates.toArray
    dfaInitial := r.dfaInitial
    lalrInitial := r.lalrInitial
    eofSymbol
    errorSymbol }

variable {r}

theorem linkSymbols?_eq (hdfa : r.dfaInitial < r.size .dfaStates)
    (hdfaStates : ∀ s ∈ r.dfaStates, s.Within r.size) : r.linkSymbols? = some r.linkSymbols := by
  have hclosed : SinglePath.Closed r.dfaStates := fun s hs => (hdfaStates s hs).target
  have hrange : ∀ i ∈ SinglePath.accepts r.dfaStates r.dfaInitial, i < r.symbols.length := by
    intro i hi
    obtain ⟨j, -, haccept⟩ := List.mem_filterMap.1 hi
    obtain ⟨s, hs, haccept⟩ := Option.bind_eq_some_iff.1 haccept
    exact (hdfaStates s (List.mem_of_getElem? hs)).accept i haccept
  simp only [linkSymbols?, linkSymbols, SinglePath.accepts?_eq hclosed hdfa, mapM_inRange? hrange,
    Option.bind_eq_bind, Option.bind_some]
  rfl

/-- Linking valid rows looks up and sets nothing out of range. -/
theorem toGrammar?_eq {eofSymbol errorSymbol : SymbolIdx} (hr : r.toTable.Ordered)
    (hcheck : r.checkReferences = .ok ()) :
    r.toGrammar? eofSymbol errorSymbol = some (r.toGrammar eofSymbol errorSymbol) := by
  obtain ⟨hdfa, -, hproductions, hgroups, hdfaStates, hlalrStates⟩ :=
    forall_references.1 (checkReferences_eq_ok.1 hcheck)
  have hsymbols : r.linkSymbols.length = r.symbols.length := List.length_map _
  have hlinked : r.productions.mapM (fun p => do
      let id ← r.productionId? p
      let rules ← inferRules? r.linkSymbols p
      return ({ p with id, rules } : Production)) =
      some (r.productions.map fun p =>
        { p with id := r.productionId p, rules := inferRules r.linkSymbols p }) := by
    refine mapM_eq_some_map fun p hp => ?_
    have hwithin := hproductions p hp
    rw [productionId?_eq hwithin, inferRules?_eq (by rw [hsymbols]; exact hwithin.handles)]
    rfl
  have hscanned : r.dfaStates.mapM (fun s => do
      let lookup ← Lookup.ofState? (fun i => r.charsets[i]?.map CharacterSet.ranges) s
      return ({ s with lookup } : DfaState)) =
      some (r.dfaStates.map fun s => { s with lookup := Lookup.ofState r.charsetRanges s }) := by
    refine mapM_eq_some_map fun s hs => ?_
    have hranges (e : Edge) (he : e ∈ s.edges) :
        r.charsets[e.charset]?.map CharacterSet.ranges = some (r.charsetRanges e.charset) := by
      have hget := List.getElem?_eq_getElem ((hdfaStates s hs).charset e he)
      simp only [charsetRanges, hget, Option.map_some, Option.getD_some]
    rw [Lookup.ofState?_eq hranges]
    rfl
  have hparsed : r.lalrStates.mapM (fun s => do
      let table ← s.table? r.symbols.length
      return ({ s with table } : LalrState)) =
      some (r.lalrStates.map fun s => { s with
        table := ((List.range r.symbols.length).map fun i => s.actions.lookup i).toArray }) := by
    refine mapM_eq_some_map fun s hs => ?_
    have hsymbol : ∀ a ∈ s.actions, a.1 < r.symbols.length := (hlalrStates s hs).symbol
    rw [LalrRow.table?_eq (hr.actions s (List.mem_map_of_mem hs)) hsymbol]
    rfl
  have hstarted := groupStarts?_eq fun g hg => (hgroups g hg).startSymbol
  unfold toGrammar?
  rw [linkSymbols?_eq hdfa hdfaStates]
  simp only [Option.bind_eq_bind, Option.bind_some] at hlinked hscanned hparsed ⊢
  rw [hlinked, hstarted, hscanned, hparsed]
  rfl

end Rows

/-! ### Tables -/

/-- Demand that a table is valid: its rows, and the symbols that every grammar needs. -/
def Table.validate (t : Table) : Except TableFault (Rows × SymbolIdx × SymbolIdx) := do
  let rows ← t.complete
  let eofSymbol ← rows.findKind .endOfFile
  let errorSymbol ← rows.findKind .error
  rows.checkReferences
  return (rows, eofSymbol, errorSymbol)

/-- Link the rows of a table. -/
def Table.link? (t : Table) : Option (Except TableFault Grammar) :=
  match t.validate with
  | .error fault => some (.error fault)
  | .ok (rows, eofSymbol, errorSymbol) => (rows.toGrammar? eofSymbol errorSymbol).map .ok

theorem Table.validate_eq_ok {t : Table} {r : Rows} {eofSymbol errorSymbol : SymbolIdx}
    (h : t.validate = .ok (r, eofSymbol, errorSymbol)) :
    r.toTable = t ∧ r.checkReferences = .ok () := by
  simp only [validate, bind_eq_ok, complete_eq_ok] at h
  obtain ⟨_, hr, _, -, _, -, _, hcheck, h⟩ := h
  cases h
  exact ⟨hr, hcheck⟩

theorem Table.link?_eq {t : Table} (ht : t.Ordered) : t.link? = some t.link := by
  have hlink : t.link = (fun valid => valid.1.toGrammar valid.2.1 valid.2.2) <$> t.validate := by
    simp only [link, validate, map_bind, map_pure]
  unfold link?
  rw [hlink]
  cases hvalid : t.validate with
  | error fault => rfl
  | ok valid =>
    obtain ⟨r, eofSymbol, errorSymbol⟩ := valid
    obtain ⟨rfl, hcheck⟩ := validate_eq_ok hvalid
    dsimp only
    rw [Rows.toGrammar?_eq ht hcheck]
    rfl

namespace Grammar

/-- Load the grammar of the table that `bytes` holds. -/
def ofBytes? (bytes : List UInt8) : Option (Except TableError Grammar) :=
  match Table.decode bytes with
  | .error e => some (.error e)
  | .ok t => t.link?.map fun linked => linked.mapError fun fault => ⟨fault, none⟩

/-- Loading never fails to look up or to set a row. -/
theorem ofBytes?_eq (bytes : List UInt8) : ofBytes? bytes = some (ofBytes bytes) := by
  unfold ofBytes? ofBytes
  cases hdecode : Table.decode bytes with
  | error e => rfl
  | ok t =>
    dsimp only
    rw [Table.link?_eq (Table.ordered_of_decode hdecode)]
    rfl

/-- **Validation is sound and complete.**  Loading never looks up a row that does not exist; it
succeeds exactly if the bytes are those of a valid table; and then the grammar is well-formed, its
parts having the sizes that the last record of sizes announces. -/
theorem ofBytes_validates (bytes : List UInt8) :
    ofBytes? bytes = some (ofBytes bytes) ∧
      ((∃ g, ofBytes bytes = .ok g) ↔ ∃ t, Table.decode bytes = .ok t ∧ t.Valid) ∧
      ∀ g, ofBytes bytes = .ok g →
        g.WellFormed ∧ ∀ part, g.size part = Table.announced (Table.recordsOf bytes) part :=
  ⟨ofBytes?_eq bytes, exists_ofBytes_iff, fun _ => wellFormed_of_ofBytes⟩

end Grammar

end CompiledGrammar
