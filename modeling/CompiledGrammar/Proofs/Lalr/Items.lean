import CompiledGrammar.Proofs.Lalr.Path
import CompiledGrammar.Proofs.Lexer.Stream

/-!
# Item sets

Why a table parses all that its grammar derives is written down as `ItemSets`: which productions are
under way in each state, and which symbols may follow each non-terminal.  Whoever makes a table
knows them, but a table does not tell them.

`ItemSets.Valid` says what they have to fulfil for the table to be complete: a state has a
transition over the next symbol of everything that is under way in it, and reduces what is complete
on everything that may follow.  It is found out by going through all items
(`ItemSets.valid_of_check`).
-/

namespace CompiledGrammar

/-- A production that is under way, with the number of its handles that are behind. -/
abbrev LrItem := ProductionIdx × Nat

/-- What is under way in the states of a table, and what may come first and next. -/
structure ItemSets where
  /-- For each state the productions under way that have handles behind, and the non-terminals all
  of whose productions may start. -/
  states : List (List LrItem × List SymbolIdx)
  /-- The terminals that a non-terminal may start with. -/
  first : SymbolIdx → List SymbolIdx
  /-- A non-terminal may derive nothing. -/
  nullable : SymbolIdx → Bool
  /-- The terminals that may follow a non-terminal. -/
  follow : SymbolIdx → List SymbolIdx

namespace ItemSets

variable (c : ItemSets) (g : Grammar)

/-- The productions of a non-terminal. -/
def starting (heads : List SymbolIdx) : List LrItem :=
  g.productions.toList.zipIdx.filterMap fun (p, i) =>
    if heads.contains p.head then some (i, 0) else none

/-- All that is under way in a state. -/
def items (q : LalrStateIdx) : List LrItem :=
  match c.states[q]? with
  | some (kernel, heads) => kernel ++ starting g heads
  | none => []

/-- The symbols that may come first in what symbols derive, if `next` are those that may come
after it. -/
def firstOf : List SymbolIdx → List SymbolIdx → List SymbolIdx
  | [], next => next
  | s :: rest, next =>
    if g.hasKind s .nonTerminal then
      c.first s ++ if c.nullable s then firstOf rest next else []
    else [s]

/-- Where a state goes over a symbol, by a transition of the kind that the symbol demands. -/
def enters? (q : LalrStateIdx) (s : SymbolIdx) : Option LalrStateIdx :=
  if g.hasKind s .nonTerminal then g.goto? q s
  else
    match g.action? q s with
    | some (.shift t) => some t
    | _ => none

/-- The productions of a non-terminal may start in a state. -/
def starts (q : LalrStateIdx) (s : SymbolIdx) : Bool :=
  c.states[q]?.any fun (_, heads) => heads.contains s

/-- The item sets show that the table parses all that can be derived from the start symbol. -/
structure Valid (start : SymbolIdx) : Prop where
  /-- The start symbol is a non-terminal. -/
  start_nonTerminal : g.hasKind start .nonTerminal = true
  /-- So are the heads of productions. -/
  head_nonTerminal : ∀ {i : ProductionIdx} {p : Production}, g.productions[i]? = some p →
    g.hasKind p.head .nonTerminal = true
  /-- Tokens are not. -/
  token_terminal : ∀ {s : SymbolIdx}, s ∈ g.scanned → g.hasKind s .nonTerminal = false
  /-- What comes first in the handles of a production comes first in its head. -/
  first : ∀ {i : ProductionIdx} {p : Production}, g.productions[i]? = some p →
    ∀ s ∈ c.firstOf g p.handles [], s ∈ c.first p.head
  /-- A head derives nothing if its handles do. -/
  nullable : ∀ {i : ProductionIdx} {p : Production}, g.productions[i]? = some p →
    (∀ s ∈ p.handles, g.hasKind s .nonTerminal = true ∧ c.nullable s = true) →
    c.nullable p.head = true
  /-- What may come after a handle may follow it. -/
  follow : ∀ {i : ProductionIdx} {p : Production} {d : Nat} {s : SymbolIdx},
    g.productions[i]? = some p → p.handles[d]? = some s → g.hasKind s .nonTerminal = true →
    ∀ a ∈ c.firstOf g (p.handles.drop (d + 1)) (c.follow p.head), a ∈ c.follow s
  /-- The start symbol may start, and is accepted at the end of the input. -/
  start : c.starts g.lalrInitial start = true ∧ ∃ t, g.goto? g.lalrInitial start = some t ∧
    ∀ s ∈ g.scanned, g.hasKind s .endOfFile = true →
      s ∈ c.follow start ∧ g.hasKind s .error = false ∧ g.action? t s = some .accept
  /-- There is a transition over the next handle of an item to where the item goes on, and if the
  handle is a non-terminal it may start. -/
  next : ∀ {q : LalrStateIdx} {i : ProductionIdx} {d : Nat} {p : Production} {s : SymbolIdx},
    (i, d) ∈ c.items g q → g.productions[i]? = some p → p.handles[d]? = some s →
    (g.hasKind s .nonTerminal = true → c.starts q s = true) ∧
      ∃ t, enters? g q s = some t ∧ (i, d + 1) ∈ c.items g t
  /-- A complete item is reduced on everything that may follow its head. -/
  reduce : ∀ {q : LalrStateIdx} {i : ProductionIdx} {p : Production},
    (i, p.handles.length) ∈ c.items g q → g.productions[i]? = some p →
    ∀ a ∈ c.follow p.head, g.hasKind a .error = false ∧ g.action? q a = some (.reduce i)

/-! ### The checker -/

/-- What may come first and next is right for a production. -/
def checkProduction (p : Production) : Bool :=
  g.hasKind p.head .nonTerminal &&
  ((c.firstOf g p.handles []).all fun s => (c.first p.head).contains s) &&
  (!(p.handles.all fun s => g.hasKind s .nonTerminal && c.nullable s) || c.nullable p.head) &&
  (List.range p.handles.length).all fun d =>
    p.handles[d]?.all fun s => !g.hasKind s .nonTerminal ||
      (c.firstOf g (p.handles.drop (d + 1)) (c.follow p.head)).all fun a => (c.follow s).contains a

/-- A state can go on with an item. -/
def checkItem (q : LalrStateIdx) (item : LrItem) : Bool :=
  g.productions[item.1]?.all fun p =>
    match p.handles[item.2]? with
    | some s => (!g.hasKind s .nonTerminal || c.starts q s) &&
        (enters? g q s).any fun t => (c.items g t).contains (item.1, item.2 + 1)
    | none => item.2 != p.handles.length || (c.follow p.head).all fun a =>
        !g.hasKind a .error && g.action? q a == some (.reduce item.1)

/-- The start symbol is accepted at the end of the input. -/
def checkStart (start : SymbolIdx) : Bool :=
  g.hasKind start .nonTerminal && c.starts g.lalrInitial start &&
    (g.goto? g.lalrInitial start).any fun t => g.scanned.all fun s =>
      !g.hasKind s .endOfFile || (c.follow start).contains s && !g.hasKind s .error &&
        g.action? t s == some .accept

/-- The item sets are valid. -/
def check (start : SymbolIdx) : Bool :=
  c.checkStart g start && (g.scanned.all fun s => !g.hasKind s .nonTerminal) &&
  (g.productions.toList.all (c.checkProduction g)) &&
  (List.range c.states.length).all fun q => (c.items g q).all (c.checkItem g q)

variable {c} {g}

theorem mem_items_of_starts {q : LalrStateIdx} {s : SymbolIdx} (h : c.starts q s = true)
    {i : ProductionIdx} {p : Production} (hp : g.productions[i]? = some p) (hs : p.head = s) :
    (i, 0) ∈ c.items g q := by
  obtain ⟨⟨kernel, heads⟩, hq, hmem⟩ := (Option.any_eq_true _ _).1 h
  simp only [items, hq]
  refine List.mem_append_right _ (List.mem_filterMap.2 ⟨(p, i), ?_, ?_⟩)
  · rw [List.mem_zipIdx_iff_getElem?, Array.getElem?_toList]
    exact hp
  · simp only [hs, hmem, ↓reduceIte]

theorem lt_length_of_mem_items {q : LalrStateIdx} {item : LrItem} (h : item ∈ c.items g q) :
    q < c.states.length := by
  unfold items at h
  cases hq : c.states[q]? with
  | none => rw [hq] at h; cases h
  | some state => exact (List.getElem?_eq_some_iff.1 hq).1

theorem nullable_of_check {p : Production} (h : c.checkProduction g p = true)
    (hall : ∀ s ∈ p.handles, g.hasKind s .nonTerminal = true ∧ c.nullable s = true) :
    c.nullable p.head = true := by
  simp only [checkProduction, Bool.and_eq_true] at h
  have hhandles : (p.handles.all fun s => g.hasKind s .nonTerminal && c.nullable s) = true :=
    List.all_eq_true.2 fun s hs => Bool.and_eq_true_iff.2 (hall s hs)
  simpa only [hhandles, Bool.not_true, Bool.false_or] using h.1.2

theorem follow_of_check {p : Production} {d : Nat} {s : SymbolIdx}
    (h : c.checkProduction g p = true) (hs : p.handles[d]? = some s)
    (hkind : g.hasKind s .nonTerminal = true) :
    ∀ a ∈ c.firstOf g (p.handles.drop (d + 1)) (c.follow p.head), a ∈ c.follow s := by
  simp only [checkProduction, Bool.and_eq_true, List.all_eq_true, List.mem_range] at h
  have hd := h.2 d (List.getElem?_eq_some_iff.1 hs).1
  simpa [hs, hkind] using hd

theorem next_of_check {q : LalrStateIdx} {i : ProductionIdx} {d : Nat} {p : Production}
    {s : SymbolIdx} (h : c.checkItem g q (i, d) = true) (hp : g.productions[i]? = some p)
    (hs : p.handles[d]? = some s) :
    (g.hasKind s .nonTerminal = true → c.starts q s = true) ∧
      ∃ t, enters? g q s = some t ∧ (i, d + 1) ∈ c.items g t := by
  simp only [checkItem, hp, Option.all_some, hs, Bool.and_eq_true] at h
  obtain ⟨hstarts, henters⟩ := h
  obtain ⟨t, ht, hmem⟩ := (Option.any_eq_true _ _).1 henters
  refine ⟨fun hkind => ?_, t, ht, List.contains_iff_mem.1 hmem⟩
  simpa only [hkind, Bool.not_true, Bool.false_or] using hstarts

theorem reduce_of_check {q : LalrStateIdx} {i : ProductionIdx} {p : Production}
    (h : c.checkItem g q (i, p.handles.length) = true) (hp : g.productions[i]? = some p) :
    ∀ a ∈ c.follow p.head, g.hasKind a .error = false ∧ g.action? q a = some (.reduce i) := by
  have hend : p.handles[p.handles.length]? = none := List.getElem?_eq_none (Nat.le_refl _)
  simp only [checkItem, hp, Option.all_some, hend, bne_self_eq_false, Bool.false_or,
    List.all_eq_true, Bool.and_eq_true, Bool.not_eq_true', beq_iff_eq] at h
  exact h

theorem valid_of_check {start : SymbolIdx} (h : c.check g start = true) : c.Valid g start := by
  simp only [check, Bool.and_eq_true, List.all_eq_true, List.mem_range] at h
  obtain ⟨⟨⟨hstart, htoken⟩, hproductions⟩, hitems⟩ := h
  simp only [checkStart, Bool.and_eq_true] at hstart
  obtain ⟨⟨hkind, hstarts⟩, htarget⟩ := hstart
  obtain ⟨t, ht, haccept⟩ := (Option.any_eq_true _ _).1 htarget
  have hproduction : ∀ {i : ProductionIdx} {p : Production}, g.productions[i]? = some p →
      c.checkProduction g p = true := fun hp =>
    hproductions _ (Array.mem_toList_iff.2 (Array.mem_of_getElem? hp))
  have hitem : ∀ {q : LalrStateIdx} {item : LrItem}, item ∈ c.items g q →
      c.checkItem g q item = true := fun hmem =>
    hitems _ (lt_length_of_mem_items hmem) _ hmem
  refine
    { start_nonTerminal := hkind
      head_nonTerminal := fun hp => ?_
      token_terminal := fun hs => by simpa using htoken _ hs
      first := fun hp => ?_
      nullable := fun hp => nullable_of_check (hproduction hp)
      follow := fun hp => follow_of_check (hproduction hp)
      start := ⟨hstarts, t, ht, fun s hs hend => ?_⟩
      next := fun hmem => next_of_check (hitem hmem)
      reduce := fun hmem => reduce_of_check (hitem hmem) }
  · have := hproduction hp
    simp only [checkProduction, Bool.and_eq_true] at this
    exact this.1.1.1
  · have := hproduction hp
    simp only [checkProduction, Bool.and_eq_true, List.all_eq_true, List.contains_iff_mem] at this
    exact this.1.1.2
  · have := List.all_eq_true.1 haccept s hs
    simpa [hend, and_assoc] using this

end ItemSets

end CompiledGrammar
