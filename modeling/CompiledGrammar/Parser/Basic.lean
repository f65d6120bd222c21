import CompiledGrammar.Lexer.Basic
import CompiledGrammar.Parser.Error
import CompiledGrammar.Parser.Item

/-!
# The parser

A `Parser` drives the LALR automaton of a grammar over the tokens of its lexer, one transition at a
time (`Parser.step`), and tells what each was (`Event`).

A parser may *trim* reductions: reducing a production whose only handle is a non-terminal then only
changes the state of the topmost item.
-/

namespace CompiledGrammar

/-- What a step did. -/
inductive Event where
  /-- The input was accepted. -/
  | accept
  /-- A token was shifted. -/
  | shift
  /-- A production was reduced. -/
  | reduce
  /-- A reduction was trimmed. -/
  | reduceEliminated
  /-- The parse failed. -/
  | error
deriving DecidableEq, Repr

/-- No step after this one gets any further. -/
def Event.isFinal : Event → Bool
  | accept => true
  | error => true
  | _ => false

/-- The token that decides the next step. -/
inductive Lookahead where
  /-- None has been read yet. -/
  | unread
  /-- It has been read. -/
  | pending (token : Token)
  /-- The one that was read has been shifted, and the next is to be read. -/
  | consumed (token : Token)
deriving DecidableEq, Repr

/-- The token read last. -/
def Lookahead.token? : Lookahead → Option Token
  | unread => none
  | pending t => some t
  | consumed t => some t

/-! ### Parsing facts of a grammar -/

namespace Grammar

variable (g : Grammar)

/-- Where a state goes once a symbol has been reduced on top of it. -/
def goto? (state : LalrStateIdx) (symbol : SymbolIdx) : Option LalrStateIdx :=
  match g.action? state symbol with
  | some (.goto target) => some target
  | _ => none

/-- The production does nothing but rename a non-terminal. -/
def isUnit (p : Production) : Bool :=
  match p.handles with
  | [h] => g.hasKind h .nonTerminal
  | _ => false

/-- A token of the symbol can be expected from the input. -/
def isExpectable (s : SymbolIdx) : Bool :=
  g.hasKind s .terminal || g.hasKind s .endOfFile || g.hasKind s .groupStart ||
    g.hasKind s .groupEnd

/-- The symbols from the input that a state has an action for. -/
def expectedIn (state : LalrStateIdx) : List SymbolIdx :=
  match g.lalrStates[state]? with
  | some s => (s.actions.map Prod.fst).filter g.isExpectable
  | none => []

/-- The state on top of a stack of items. -/
def topState {τ : Type} : List (Item τ) → LalrStateIdx
  | [] => g.lalrInitial
  | item :: _ => item.state

end Grammar

/-- A parser between two steps. -/
structure Parser (τ : Type) where
  /-- Where tokens come from. -/
  lexer : Lexer
  /-- Whether reductions are trimmed. -/
  trim : Bool
  /-- The current state of the LALR automaton. -/
  state : LalrStateIdx
  /-- The stack above its bottom, topmost item first. -/
  items : List (Item τ)
  /-- The token that decides the next step. -/
  lookahead : Lookahead
  /-- What the last step reduced, if it was a reduction. -/
  reduction : Option (Reduction τ)
  /-- The last error since the parse was started. -/
  error : Option ParseError
deriving DecidableEq, Repr

namespace Parser

variable {τ : Type} (g : Grammar) (p : Parser τ)

/-! ### Input -/

/-- A parser at the start of the input of its lexer. -/
def start (lexer : Lexer) (trim : Bool) : Parser τ :=
  { lexer, trim, state := g.lalrInitial, items := [], lookahead := .unread, reduction := none,
    error := none }

/-- A parser that has no input yet. -/
def new (trim : Bool) (lineTerminator : UInt8) : Parser τ :=
  start g { lineTerminator } trim

/-- Parse the input again from its beginning. -/
def reset : Parser τ :=
  start g p.lexer.reset p.trim

/-- Parse another input, from its beginning. -/
def load (input : Buffer) : Parser τ :=
  start g (p.lexer.load input) p.trim

/-- Hand over the input and keep none. -/
def release : Buffer × Parser τ :=
  let (input, lexer) := p.lexer.release
  (input, start g lexer p.trim)

/-! ### Views -/

/-- The input. -/
def input : Buffer := p.lexer.buffer

/-- The whole stack, bottom first. -/
def stack : List (Item τ) :=
  ⟨g.lalrInitial, .bottom, none⟩ :: p.items.reverse

/-- The topmost item above the bottom. -/
def top? : Option (Item τ) := p.items.head?

/-- Attach a payload to the topmost item above the bottom. -/
def setPayload (payload : Option τ) : Parser τ :=
  match p.items with
  | [] => p
  | item :: items => { p with items := { item with payload } :: items }

/-! ### Steps -/

/-- The token that decides the next step, read from the input if need be. -/
def look : Token × Parser τ :=
  match p.lookahead with
  | .pending token => (token, { p with reduction := none })
  | _ =>
    let (token, lexer) := p.lexer.readToken g
    (token, { p with lexer, lookahead := .pending token, reduction := none })

/-- Fail on a token. -/
def fail (fault : ParseFault) (token : Token) : Event × Parser τ :=
  (.error, { p with error := some ⟨fault, p.state, token⟩ })

/-- Push the token and move to a state. -/
def shift (state : LalrStateIdx) (token : Token) : Event × Parser τ :=
  (.shift,
    { p with
      state, items := ⟨state, .shifted token, none⟩ :: p.items, lookahead := .consumed token })

/-- Move the topmost item on to the state for the head of a production that only renames it. -/
def rename (production : Production) (token : Token) : Event × Parser τ :=
  match p.items with
  | [] => p.fail .internal token
  | item :: items =>
    match g.goto? (g.topState items) production.head with
    | some state => (.reduceEliminated, { p with state, items := { item with state } :: items })
    | none => p.fail .internal token

/-- Pop the handles of a production and push its head. -/
def replace (production : Production) (token : Token) : Event × Parser τ :=
  let n := production.handles.length
  let handles := (p.items.take n).reverse
  if handles.length < n then p.fail .internal token
  else
    let below := p.items.drop n
    match g.goto? (g.topState below) production.head with
    | some state =>
      (.reduce,
        { p with
          state, items := ⟨state, .reduced production.index, none⟩ :: below
          reduction := some ⟨production.index, handles⟩ })
    | none => { p with items := below }.fail .internal token

/-- Reduce a production. -/
def reduce (production : ProductionIdx) (token : Token) : Event × Parser τ :=
  match g.productions[production]? with
  | none => p.fail .internal token
  | some production =>
    if p.trim && g.isUnit production then p.rename g production token
    else p.replace g production token

/-- Perform one transition. -/
def step : Event × Parser τ :=
  let (token, p) := p.look g
  if g.hasKind token.symbol .error then p.fail .lexical token
  else
    match g.action? p.state token.symbol with
    | none => p.fail (.syntactic (g.expectedIn p.state)) token
    | some (.shift state) => p.shift state token
    | some (.reduce production) => p.reduce g production token
    | some .accept => (.accept, p)
    | some (.goto _) => p.fail .internal token

end Parser

end CompiledGrammar
