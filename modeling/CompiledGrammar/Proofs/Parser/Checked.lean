import CompiledGrammar.Proofs.Grammar.Checked
import CompiledGrammar.Proofs.Lexer.Checked
import CompiledGrammar.Proofs.Parser.Step

/-!
# Parsing never looks up anything that does not exist

Parsing looks up states, symbols and productions by number, and items by their place on the stack.
As for scanning, the definitions of this module with a question mark fail at the first lookup that
is out of range.  They work on the whole stack, bottom included, and also fail if nothing is left of
it.

* A parser `Parser.Fits` a grammar if its lexer does and if all it holds, from its items to its last
  error, is of the grammar and of its input.  Every step keeps that up (`Parser.Fits.step`), and no
  checked step fails on such a parser (`Parser.step?_eq`).
* A `Parser.Op` is one of the operations of a parser.  A parser that has been through any sequence
  of them fits its grammar (`Parser.Fits.run`), so none of them ever fails (`Parser.Op.run?_eq`).
* `operations_succeed` sums up what holds of lexers and parsers alike.
-/

namespace CompiledGrammar

/-! ### The LALR automaton -/

namespace Grammar

variable (g : Grammar)

/-- The action, if there is one, of a state that has to exist. -/
def stateAction? (state : LalrStateIdx) (symbol : SymbolIdx) : Option (Option Action) :=
  g.lalrStates[state]?.map fun s => s.action? symbol

/-- Where a state goes, if it goes anywhere, once a symbol has been reduced on top of it. -/
def stateGoto? (state : LalrStateIdx) (symbol : SymbolIdx) : Option (Option LalrStateIdx) :=
  (g.stateAction? state symbol).map fun action =>
    match action with
    | some (.goto target) => some target
    | _ => none

/-- Whether the production does nothing but rename a non-terminal. -/
def unit? (p : Production) : Option Bool :=
  match p.handles with
  | [h] => g.symbols[h]?.map fun symbol => symbol.kind == .nonTerminal
  | _ => some false

/-- The symbols from the input that a state has an action for. -/
def expectedAt? (state : LalrStateIdx) : Option (List SymbolIdx) := do
  let s ← g.lalrStates[state]?
  let symbols ← (s.actions.map Prod.fst).mapM fun i => g.symbols[i]?.map fun symbol => (i, symbol)
  return (symbols.filter fun (_, symbol) =>
    symbol.kind == .terminal || symbol.kind == .endOfFile || symbol.kind == .groupStart ||
      symbol.kind == .groupEnd).map Prod.fst

variable {g} {state : LalrStateIdx} {symbol : SymbolIdx}

theorem stateAction?_eq (h : state < g.lalrStates.size) :
    g.stateAction? state symbol = some (g.action? state symbol) := by
  simp only [stateAction?, action?, Array.getElem?_eq_getElem h, Option.map_some, Option.bind_some]

theorem stateGoto?_eq (h : state < g.lalrStates.size) :
    g.stateGoto? state symbol = some (g.goto? state symbol) := by
  rw [stateGoto?, stateAction?_eq h]
  rfl

theorem unit?_eq {p : Production} (hp : p.Within g.size) : g.unit? p = some (g.isUnit p) := by
  have hsymbol (h : SymbolIdx) (hh : h ∈ p.handles) : ∃ s, g.symbols[h]? = some s :=
    ⟨_, Array.getElem?_eq_getElem (hp.handles h hh)⟩
  unfold unit? isUnit
  generalize p.handles = handles at hsymbol
  match handles with
  | [h] =>
    obtain ⟨s, hs⟩ := hsymbol h (List.mem_singleton_self h)
    simp only [hs, Option.map_some, hasKind_of_getElem? hs]
  | [] => rfl
  | _ :: _ :: _ => rfl

theorem expectedAt?_eq (hg : g.WellFormed) (h : state < g.lalrStates.size) :
    g.expectedAt? state = some (g.expectedIn state) := by
  have hstate : g.lalrStates[state]? = some _ := Array.getElem?_eq_getElem h
  have hwithin := hg.lalrStates _ (Array.mem_of_getElem? hstate)
  have hsymbols : ∀ i ∈ g.lalrStates[state].actions.map Prod.fst, i < g.symbols.size :=
    List.forall_mem_map.2 hwithin.symbol
  unfold expectedAt? expectedIn
  rw [hstate]
  simp only [Option.bind_eq_bind, Option.bind_some]
  generalize g.lalrStates[state].actions.map Prod.fst = symbols at hsymbols
  rw [mapM_eq_some_filterMap fun i hi => by simp [hsymbols i hi]]
  refine congrArg some ?_
  -- the symbols that are looked up are left out where their numbers are
  induction symbols with
  | nil => rfl
  | cons i rest ih =>
    obtain ⟨hi, hrest⟩ := List.forall_mem_cons.1 hsymbols
    have hsymbol : g.symbols[i]? = some g.symbols[i] := Array.getElem?_eq_getElem hi
    rw [List.filter_cons, ← ih hrest, List.filterMap_cons_some (by rw [hsymbol, Option.map_some]),
      List.filter_cons]
    simp only [isExpectable, hasKind_of_getElem? hsymbol]
    split <;> rfl

namespace WellFormed

/-- What an action of a state refers to exists. -/
theorem action_within (hg : g.WellFormed) {a : Action} (h : g.action? state symbol = some a) :
    a.Within g.size := by
  rw [hg.action, Option.bind_eq_some_iff] at h
  obtain ⟨s, hs, hlookup⟩ := h
  obtain ⟨before, after, hactions, -⟩ := List.lookup_eq_some_iff.1 hlookup
  refine (hg.lalrStates s (Array.mem_of_getElem? hs)).action (symbol, a) ?_
  rw [hactions]
  exact List.mem_append_right _ List.mem_cons_self

theorem goto_lt (hg : g.WellFormed) {target : LalrStateIdx}
    (h : g.goto? state symbol = some target) : target < g.lalrStates.size := by
  unfold goto? at h
  split at h
  · rename_i haction
    cases h
    exact hg.action_within haction
  · cases h

theorem lt_of_isExpectable {s : SymbolIdx} (h : g.isExpectable s = true) :
    s < g.symbols.size := by
  simp only [isExpectable, Bool.or_eq_true] at h
  rcases h with ((h | h) | h) | h <;> exact lt_of_hasKind h

theorem lt_of_mem_expectedIn {s : SymbolIdx} (h : s ∈ g.expectedIn state) :
    s < g.symbols.size := by
  unfold expectedIn at h
  split at h
  · exact lt_of_isExpectable (List.mem_filter.1 h).2
  · cases h

end WellFormed

end Grammar

/-! ### What fits a grammar and an input -/

section

variable {τ : Type} (g : Grammar) (input : Buffer)

/-- What has come onto the stack is of the grammar and the input. -/
def Origin.Fits : Origin → Prop
  | .bottom => False
  | .shifted token => token.Fits g input
  | .reduced production => production < g.productions.size

/-- An item above the bottom of the stack is of the grammar and the input. -/
structure Item.Fits (i : Item τ) : Prop where
  state : i.state < g.lalrStates.size
  origin : i.origin.Fits g input

/-- A reduction is of the grammar and the input. -/
structure Reduction.Fits (r : Reduction τ) : Prop where
  production : r.production < g.productions.size
  handles : ∀ i ∈ r.handles, i.Fits g input

/-- An error is of the grammar and the input. -/
structure ParseError.Fits (e : ParseError) : Prop where
  state : e.state < g.lalrStates.size
  token : e.token.Fits g input
  expected : ∀ s ∈ e.fault.expected, s < g.symbols.size

/-- All that a parser holds is of the grammar and of its input. -/
structure Parser.Fits (p : Parser τ) : Prop where
  lexer : p.lexer.Fits g
  state : p.state < g.lalrStates.size
  items : ∀ i ∈ p.items, i.Fits g p.input
  lookahead : ∀ t ∈ p.lookahead.token?, t.Fits g p.input
  reduction : ∀ r ∈ p.reduction, r.Fits g p.input
  error : ∀ e ∈ p.error, e.Fits g p.input

variable {g input}

theorem ParseError.Fits.exists_render? {e : ParseError} (h : e.Fits g input) :
    ∃ s, e.render? g input = some s := by
  obtain ⟨lexeme, hlexeme⟩ := h.token.exists_lexeme?
  obtain ⟨token, htoken⟩ := h.token.exists_render?
  have hexpected := h.expected
  unfold render?
  cases hfault : e.fault with
  | lexical =>
    rw [hlexeme]
    exact ⟨_, rfl⟩
  | syntactic expected =>
    rw [hfault] at hexpected
    have hids (s : SymbolIdx) (hs : s ∈ expected) : (g.symbolId? s).isSome = true := by
      simp [Grammar.symbolId?, hexpected s hs]
    simp only [mapM_eq_some_filterMap hids, htoken]
    exact ⟨_, rfl⟩
  | internal => exact ⟨_, rfl⟩

end

namespace Parser

variable {τ : Type} {g : Grammar} {p : Parser τ}

namespace Fits

theorem start (hg : g.WellFormed) {lexer : Lexer} (hlexer : lexer.Fits g) (trim : Bool) :
    (start g lexer trim : Parser τ).Fits g :=
  ⟨hlexer, hg.lalrInitial, nofun, nofun, nofun, nofun⟩

theorem topState_lt (hg : g.WellFormed) {input : Buffer} {items : List (Item τ)}
    (h : ∀ i ∈ items, i.Fits g input) : g.topState items < g.lalrStates.size := by
  cases items with
  | nil => exact hg.lalrInitial
  | cons i _ => exact (h i List.mem_cons_self).state

/-- The token that a step looks at is one of the input. -/
theorem look (hg : g.WellFormed) (h : p.Fits g) :
    (p.look g).1.Fits g (p.look g).2.input ∧ (p.look g).2.Fits g := by
  unfold Parser.look
  split
  · rename_i token hpending
    refine ⟨h.lookahead token (by rw [hpending]; rfl), ?_⟩
    exact { h with reduction := nofun }
  · -- the lexer moves on in the same input
    have hread := h.lexer.readToken hg
    have hitems := h.items
    have herror := h.error
    unfold input at hitems herror
    generalize p.lexer.readToken g = read at hread
    obtain ⟨token, lexer⟩ := read
    obtain ⟨htoken, hlexer, hbuffer⟩ := hread
    rw [← hbuffer] at htoken hitems herror
    refine ⟨htoken, hlexer, h.state, hitems, ?_, nofun, herror⟩
    rintro t ⟨⟩
    exact htoken

/-- Failing keeps up what the items and the lookahead have left. -/
theorem fail (h : p.Fits g) {fault : ParseFault} {token : Token} (htoken : token.Fits g p.input)
    (hfault : ∀ s ∈ fault.expected, s < g.symbols.size) : (p.fail fault token).2.Fits g := by
  refine { h with error := ?_ }
  rintro e ⟨⟩
  exact ⟨h.state, htoken, hfault⟩

/-- Items can be taken off the stack, and what is pushed has to be of the grammar and the input. -/
theorem drop (h : p.Fits g) (n : Nat) : { p with items := p.items.drop n }.Fits g :=
  { h with items := fun i hi => h.items i (List.mem_of_mem_drop hi) }

theorem rename (hg : g.WellFormed) (h : p.Fits g) (production : Production) {token : Token}
    (htoken : token.Fits g p.input) : (p.rename g production token).2.Fits g := by
  unfold Parser.rename
  split
  · exact h.fail htoken nofun
  rename_i item items hitems
  have hall := h.items
  rw [hitems] at hall
  obtain ⟨hitem, hbelow⟩ := List.forall_mem_cons.1 hall
  split
  · rename_i state hgoto
    have hstate := hg.goto_lt hgoto
    exact { h with
      state := hstate
      items := List.forall_mem_cons.2 ⟨⟨hstate, hitem.origin⟩, hbelow⟩ }
  · exact h.fail htoken nofun

theorem replace (hg : g.WellFormed) (h : p.Fits g) {production : Production} {token : Token}
    (hproduction : production.index < g.productions.size) (htoken : token.Fits g p.input) :
    (p.replace g production token).2.Fits g := by
  unfold Parser.replace
  dsimp only
  split
  · exact h.fail htoken nofun
  split
  · rename_i state hgoto
    have hstate := hg.goto_lt hgoto
    refine { h.drop production.handles.length with
      state := hstate
      items := List.forall_mem_cons.2 ⟨⟨hstate, hproduction⟩, ?_⟩
      reduction := ?_ }
    · exact (h.drop production.handles.length).items
    · rintro r ⟨⟩
      exact ⟨hproduction, fun i hi =>
        h.items i (List.mem_of_mem_take (List.mem_reverse.1 hi))⟩
  · exact (h.drop production.handles.length).fail htoken nofun

theorem act (hg : g.WellFormed) (h : p.Fits g) {token : Token} (htoken : token.Fits g p.input) :
    (p.act g token).2.Fits g := by
  unfold Parser.act
  split
  · exact h.fail htoken nofun
  cases haction : g.action? p.state token.symbol with
  | none => exact h.fail htoken fun s hs => Grammar.WellFormed.lt_of_mem_expectedIn hs
  | some action =>
    have hwithin := hg.action_within haction
    cases action with
    | shift state =>
      refine { h with state := hwithin, items := ?_, lookahead := ?_ }
      · exact List.forall_mem_cons.2 ⟨⟨hwithin, htoken⟩, h.items⟩
      · rintro t ⟨⟩
        exact htoken
    | reduce i =>
      dsimp only [Parser.reduce]
      split
      · exact h.fail htoken nofun
      rename_i production hproduction
      split
      · exact h.rename hg production htoken
      · refine h.replace hg ?_ htoken
        rw [hg.productionIndex i production hproduction]
        exact hwithin
    | accept => exact h
    | goto state => exact h.fail htoken nofun

/-- **A step keeps what a parser holds of the grammar and of the input.** -/
theorem step (hg : g.WellFormed) (h : p.Fits g) : (p.step g).2.Fits g := by
  obtain ⟨htoken, hlooked⟩ := h.look hg
  exact hlooked.act hg htoken

end Fits

/-! ### Checked steps -/

variable (g p)

/-- The token that decides the next step, read from the input if need be. -/
def look? : Option (Token × Parser τ) :=
  match p.lookahead with
  | .pending token => some (token, { p with reduction := none })
  | _ => do
    let (token, lexer) ← p.lexer.readToken? g
    return (token, { p with lexer, lookahead := .pending token, reduction := none })

/-- What stands on the bottom of a stack, topmost item first, if the stack has a bottom. -/
def aboveBottom? : List (Item τ) → Option (List (Item τ))
  | [] => none
  | _ :: above => some above.reverse

/-- Move the topmost item on to the state for the head of a production that only renames it. -/
def rename? (production : Production) (token : Token) : Option (Event × Parser τ) :=
  let stack := p.stack g
  if stack.length < 2 then return p.fail .internal token
  else do
    let exposed ← stack[stack.length - 2]?
    match ← g.stateGoto? exposed.state production.head with
    | some state =>
      let top ← stack.getLast?
      let items ← aboveBottom? (stack.dropLast ++ [{ top with state }])
      return (.reduceEliminated, { p with state, items })
    | none => return p.fail .internal token

/-- Pop the handles of a production and push its head. -/
def replace? (production : Production) (token : Token) : Option (Event × Parser τ) :=
  let stack := p.stack g
  let n := production.handles.length
  if stack.length ≤ n then return p.fail .internal token
  else do
    let split := stack.length - n
    let below := stack.take split
    let exposed ← below[split - 1]?
    match ← g.stateGoto? exposed.state production.head with
    | some state =>
      let items ← aboveBottom? (below ++ [⟨state, .reduced production.index, none⟩])
      return (.reduce,
        { p with state, items, reduction := some ⟨production.index, stack.drop split⟩ })
    | none =>
      let items ← aboveBottom? below
      return { p with items }.fail .internal token

/-- Reduce a production. -/
def reduce? (production : ProductionIdx) (token : Token) : Option (Event × Parser τ) := do
  let production ← g.productions[production]?
  let trimmed ← if p.trim then g.unit? production else some false
  if trimmed then p.rename? g production token
  else p.replace? g production token

/-- Perform one transition. -/
def step? : Option (Event × Parser τ) := do
  let (token, p) ← p.look? g
  let symbol ← g.symbols[token.symbol]?
  if symbol.kind = .error then return p.fail .lexical token
  else
    match ← g.stateAction? p.state token.symbol with
    | none =>
      let expected ← g.expectedAt? p.state
      return p.fail (.syntactic expected) token
    | some (.shift state) => return p.shift state token
    | some (.reduce production) => p.reduce? g production token
    | some .accept => return (.accept, p)
    | some (.goto _) => return p.fail .internal token

variable {g p}

theorem look?_eq (hg : g.WellFormed) (h : p.Fits g) : p.look? g = some (p.look g) := by
  unfold look? look
  rw [Lexer.readToken?_eq hg h.lexer]
  cases p.lookahead <;> rfl

/-! #### The whole stack -/

theorem length_stack : (p.stack g).length = p.items.length + 1 := by
  rw [stack, List.length_cons, List.length_reverse]

theorem stack_concat (item : Item τ) :
    p.stack g ++ [item] = { p with items := item :: p.items }.stack g := by
  simp only [stack, List.cons_append, List.reverse_cons]

theorem aboveBottom?_stack : aboveBottom? (p.stack g) = some p.items := by
  simp only [stack, aboveBottom?, List.reverse_reverse]

/-- The topmost item is at the end. -/
theorem getElem?_stack :
    ∃ top, (p.stack g)[p.items.length]? = some top ∧ top.state = g.topState p.items := by
  cases hitems : p.items with
  | nil => exact ⟨_, by rw [stack, hitems]; rfl, rfl⟩
  | cons item items =>
    refine ⟨item, ?_, rfl⟩
    rw [stack, hitems, List.length_cons, List.getElem?_cons_succ, List.reverse_cons,
      List.getElem?_append_right (by simp), List.length_reverse, Nat.sub_self]
    rfl

/-- What is left below the topmost `n` items is a whole stack again. -/
theorem take_stack {n : Nat} (h : n ≤ p.items.length) :
    (p.stack g).take (p.items.length + 1 - n) = { p with items := p.items.drop n }.stack g := by
  rw [stack, Nat.succ_sub h, List.take_succ_cons, List.take_reverse, Nat.sub_sub_self h]
  rfl

theorem drop_stack {n : Nat} (h : n ≤ p.items.length) :
    (p.stack g).drop (p.items.length + 1 - n) = (p.items.take n).reverse := by
  rw [stack, Nat.succ_sub h, List.drop_succ_cons, List.drop_reverse, Nat.sub_sub_self h]

theorem rename?_eq (hg : g.WellFormed) (h : p.Fits g) (production : Production) (token : Token) :
    p.rename? g production token = some (p.rename g production token) := by
  unfold rename? rename
  cases hitems : p.items with
  | nil =>
    rw [if_pos (by rw [length_stack, hitems]; exact Nat.lt_succ_self 1)]
    rfl
  | cons item items =>
    have hbelow := h.drop 1
    rw [hitems, List.drop_one, List.tail_cons] at hbelow
    have hsplit : p.stack g = { p with items }.stack g ++ [item] := by
      rw [stack_concat, ← hitems]
    obtain ⟨exposed, hexposed, hstate⟩ := getElem?_stack (g := g) (p := { p with items })
    dsimp only at hexposed hstate
    have hget : (p.stack g)[items.length]? = some exposed := by
      rw [hsplit, List.getElem?_append_left (by rw [length_stack]; exact Nat.lt_succ_self _)]
      exact hexposed
    have hlength : (p.stack g).length = items.length + 2 := by
      rw [length_stack, hitems, List.length_cons]
    dsimp only
    rw [if_neg (by omega), hlength, Nat.add_sub_cancel, hget]
    simp only [Option.bind_eq_bind, Option.bind_some, hstate,
      Grammar.stateGoto?_eq (Fits.topState_lt hg hbelow.items)]
    cases g.goto? (g.topState items) production.head with
    | none => rfl
    | some state =>
      dsimp only
      rw [hsplit, List.getLast?_concat, List.dropLast_concat, Option.bind_some, stack_concat,
        aboveBottom?_stack]
      rfl

theorem replace?_eq (hg : g.WellFormed) (h : p.Fits g) (production : Production) (token : Token) :
    p.replace? g production token = some (p.replace g production token) := by
  unfold replace?
  by_cases hlt : p.items.length < production.handles.length
  · rw [replace_of_lt hlt, if_pos (by rw [length_stack]; exact hlt)]
    rfl
  · have hle := Nat.le_of_not_lt hlt
    have hbelow := h.drop production.handles.length
    obtain ⟨exposed, hexposed, hstate⟩ :=
      getElem?_stack (g := g) (p := { p with items := p.items.drop production.handles.length })
    rw [List.length_drop] at hexposed
    rw [replace_append (List.take_append_drop production.handles.length p.items).symm
      (List.length_take_of_le hle), if_neg (by rw [length_stack]; omega)]
    have hsplit : p.items.length + 1 - production.handles.length - 1 =
        p.items.length - production.handles.length := by omega
    simp only [length_stack, take_stack hle, drop_stack hle, hsplit, hexposed, Option.bind_eq_bind,
      Option.bind_some, hstate, Grammar.stateGoto?_eq (Fits.topState_lt hg hbelow.items)]
    cases g.goto? (g.topState (p.items.drop production.handles.length)) production.head with
    | none =>
      dsimp only
      rw [aboveBottom?_stack]
      rfl
    | some state =>
      dsimp only
      rw [stack_concat, aboveBottom?_stack]
      rfl

theorem reduce?_eq (hg : g.WellFormed) (h : p.Fits g) {i : ProductionIdx}
    (hi : i < g.productions.size) (token : Token) :
    p.reduce? g i token = some (p.reduce g i token) := by
  have hproduction : g.productions[i]? = some g.productions[i] := Array.getElem?_eq_getElem hi
  have hwithin := hg.productions _ (Array.mem_of_getElem? hproduction)
  unfold reduce? reduce
  rw [hproduction]
  simp only [Option.bind_eq_bind, Option.bind_some, Grammar.unit?_eq hwithin]
  cases p.trim <;> cases g.isUnit g.productions[i] <;>
    simp [rename?_eq hg h, replace?_eq hg h]

/-- **A step never fails.** -/
theorem step?_eq (hg : g.WellFormed) (h : p.Fits g) : p.step? g = some (p.step g) := by
  obtain ⟨htoken, hlooked⟩ := h.look hg
  unfold step? step
  rw [look?_eq hg h]
  generalize p.look g = looked at htoken hlooked
  obtain ⟨token, p⟩ := looked
  have hsymbol := Array.getElem?_eq_getElem htoken.symbol
  simp only [Option.bind_eq_bind, Option.bind_some, hsymbol, Grammar.hasKind_of_getElem? hsymbol,
    beq_iff_eq, Grammar.stateAction?_eq hlooked.state, Grammar.expectedAt?_eq hg hlooked.state]
  split
  · rfl
  cases haction : g.action? p.state token.symbol with
  | none => rfl
  | some action =>
    cases action with
    | shift state => rfl
    | reduce i => exact reduce?_eq hg hlooked (hg.action_within haction) token
    | accept => rfl
    | goto state => rfl

/-! ### Any number of operations -/

/-- An operation of a parser, or of whoever watches it. -/
inductive Op (τ : Type) where
  /-- Parse another input, from its beginning. -/
  | load (input : Buffer)
  /-- Parse the input again. -/
  | reset
  /-- Hand over the input. -/
  | release
  /-- Perform one transition. -/
  | step
  /-- Attach a payload to the topmost item. -/
  | attach (payload : Option τ)
deriving DecidableEq, Repr

namespace Op

/-- The event that an operation tells, if it tells one, and the parser after it. -/
def run (g : Grammar) (p : Parser τ) : Op τ → Option Event × Parser τ
  | load input => (none, p.load g input)
  | reset => (none, p.reset g)
  | release => (none, (p.release g).2)
  | step => let (event, next) := p.step g; (some event, next)
  | attach payload => (none, p.setPayload payload)

/-- The same, where a transition can fail. -/
def run? (g : Grammar) (p : Parser τ) : Op τ → Option (Option Event × Parser τ)
  | step => (p.step? g).map fun (event, next) => (some event, next)
  | op => some (op.run g p)

end Op

/-- The parser after some operations. -/
def after (g : Grammar) (p : Parser τ) (ops : List (Op τ)) : Parser τ :=
  ops.foldl (fun p op => (op.run g p).2) p

/-- The parser after some operations, unless one of them fails. -/
def after? (g : Grammar) (p : Parser τ) (ops : List (Op τ)) : Option (Parser τ) :=
  ops.foldlM (fun p op => (op.run? g p).map Prod.snd) p

theorem Fits.setPayload (h : p.Fits g) (payload : Option τ) : (p.setPayload payload).Fits g := by
  unfold Parser.setPayload
  split
  · exact h
  · rename_i item items hitems
    have hall := h.items
    rw [hitems] at hall
    obtain ⟨hitem, hbelow⟩ := List.forall_mem_cons.1 hall
    exact { h with items := List.forall_mem_cons.2 ⟨⟨hitem.state, hitem.origin⟩, hbelow⟩ }

theorem Fits.run (hg : g.WellFormed) (h : p.Fits g) (op : Op τ) : (op.run g p).2.Fits g := by
  cases op with
  | load input => exact .start hg (.reset g { p.lexer with buffer := input }) p.trim
  | reset => exact .start hg (.reset g p.lexer) p.trim
  | release => exact .start hg (.reset g { p.lexer with buffer := .empty }) p.trim
  | step => exact h.step hg
  | attach payload => exact h.setPayload payload

theorem Op.run?_eq (hg : g.WellFormed) (h : p.Fits g) (op : Op τ) :
    op.run? g p = some (op.run g p) := by
  cases op with
  | step =>
    rw [run?, step?_eq hg h]
    rfl
  | _ => rfl

/-- No operation fails, however many have come before. -/
theorem Fits.after?_eq (hg : g.WellFormed) (h : p.Fits g) (ops : List (Op τ)) :
    p.after? g ops = some (p.after g ops) ∧ (p.after g ops).Fits g := by
  induction ops generalizing p with
  | nil => exact ⟨rfl, h⟩
  | cons op ops ih =>
    rw [after?, List.foldlM_cons, Op.run?_eq hg h]
    exact ih (h.run hg op)

end Parser

/-! ### Lexers and parsers -/

/-- **No operation of a lexer or a parser on a loaded grammar looks up anything that does not
exist.**  After any sequence of operations the cursor stands between two characters of the input,
all that is held is of the grammar and of the input, and so are the tokens that are given, so tokens
and errors can be shown. -/
theorem operations_succeed {τ : Type} {g : Grammar} (hg : g.Loaded) (lineTerminator : UInt8)
    (trim : Bool) :
    (∀ (ops : List Lexer.Op) (l : Lexer), ({ lineTerminator } : Lexer).after g ops = l →
      ({ lineTerminator } : Lexer).after? g ops = some l ∧ l.Fits g ∧
      Utf8.IsBoundary l.buffer.chars l.cursor.offset ∧
      (∀ op : Lexer.Op, op.run? g l = some (op.run g l)) ∧
      ∀ (op : Lexer.Op) (token : Token) (next : Lexer), op.run g l = (some token, next) →
        token.Fits g next.buffer ∧ (∃ text, token.lexeme? next.buffer = some text) ∧
        ∃ text, token.render? g next.buffer = some text) ∧
    ∀ (ops : List (Parser.Op τ)) (p : Parser τ),
      (Parser.new g trim lineTerminator : Parser τ).after g ops = p →
      (Parser.new g trim lineTerminator : Parser τ).after? g ops = some p ∧ p.Fits g ∧
      Utf8.IsBoundary p.input.chars p.lexer.cursor.offset ∧ p.stack g ≠ [] ∧
      (∀ op : Parser.Op τ, op.run? g p = some (op.run g p)) ∧
      (∀ token ∈ p.lookahead.token?, (∃ text, token.lexeme? p.input = some text) ∧
        ∃ text, token.render? g p.input = some text) ∧
      ∀ e ∈ p.error, ∃ text, e.render? g p.input = some text := by
  have hwf := hg.wellFormed
  have hlexer : ({ lineTerminator } : Lexer).Fits g := .reset g { lineTerminator }
  refine ⟨?_, ?_⟩
  · rintro ops l rfl
    obtain ⟨hafter, hfits⟩ := hlexer.after?_eq hwf ops
    refine ⟨hafter, hfits, hfits.cursor.isBoundary, fun op => op.run?_eq hwf hfits,
      fun op token next hrun => ?_⟩
    have htoken := (hfits.run hwf op).2 token (by rw [hrun])
    rw [hrun] at htoken
    exact ⟨htoken, htoken.exists_lexeme?, htoken.exists_render?⟩
  · rintro ops p rfl
    have hnew : (Parser.new g trim lineTerminator : Parser τ).Fits g := .start hwf hlexer trim
    obtain ⟨hafter, hfits⟩ := hnew.after?_eq hwf ops
    refine ⟨hafter, hfits, hfits.lexer.cursor.isBoundary, List.cons_ne_nil _ _,
      fun op => op.run?_eq hwf hfits, ?_, ?_⟩
    · intro token htoken
      have hfit := hfits.lookahead token htoken
      exact ⟨hfit.exists_lexeme?, hfit.exists_render?⟩
    · intro e he
      exact (hfits.error e he).exists_render?

set_option maxRecDepth 10000 in
/-- The sample grammar of arithmetic and the input `1+é`: its parser fails on the last character
after a few steps, and its lexer gives the same token after two others; both can be shown. -/
theorem operations_succeed_sum :
    ∃ g, Grammar.ofBytes Sample.operators.toBytes = .ok g ∧
      (∃ (l next : Lexer) (token : Token),
        ({} : Lexer).after? g [.load (.owned "1+é"), .scan, .scan] = some l ∧
        Lexer.Op.read.run g l = (some token, next) ∧
        ∃ text, token.render? g next.buffer = some text) ∧
      ∃ (p : Parser Unit) (e : ParseError),
        (Parser.new g true defaultLineTerminator).after? g
          (.load (.owned "1+é") :: List.replicate 7 .step) = some p ∧
        p.error = some e ∧ ∃ text, e.render? g p.input = some text := by
  generalize hscans : [Lexer.Op.load (.owned "1+é"), .scan, .scan] = scans
  generalize hsteps : Parser.Op.load (.owned "1+é") :: List.replicate 7 (.step : Parser.Op Unit) =
    steps
  have hcheck : Grammar.loadsWith Sample.operators.toBytes (fun g =>
      (Lexer.Op.read.run g (({} : Lexer).after g scans)).1.isSome &&
        ((Parser.new g true defaultLineTerminator).after g steps).error.isSome) = true := by
    rw [← hscans, ← hsteps]
    decide +kernel
  obtain ⟨g, hload, hg⟩ := Grammar.exists_of_loadsWith hcheck
  rw [Bool.and_eq_true, Option.isSome_iff_exists, Option.isSome_iff_exists] at hg
  obtain ⟨⟨token, htoken⟩, e, he⟩ := hg
  have hrun : Lexer.Op.read.run g (({} : Lexer).after g scans) = (some token, _) :=
    Prod.ext htoken rfl
  obtain ⟨hlexer, hparser⟩ :=
    operations_succeed (τ := Unit) (.ofBytes hload) defaultLineTerminator true
  obtain ⟨hl, -, -, -, hshown⟩ := hlexer scans _ rfl
  obtain ⟨hp, -, -, -, -, -, herror⟩ := hparser steps _ rfl
  exact ⟨g, hload, ⟨_, _, token, hl, hrun, (hshown .read token _ hrun).2.2⟩, _, e, hp, he,
    herror e he⟩

end CompiledGrammar
