import CompiledGrammar.Table.Code

/-!
# Rows of a table

The rows that the records of a table describe, one type for each kind of row, and `Table`, the
collection of all of them.  Nothing here is checked yet: a row may refer to rows that do not exist.
-/

namespace CompiledGrammar

/-- A fact about the grammar that its author recorded. -/
structure Property where
  /-- The number of the property. -/
  index : Nat
  /-- What it is about. -/
  name : String
  /-- What it says. -/
  value : String
deriving DecidableEq, Repr

/-- The code points from `first` to `last`, both included. -/
structure CodeRange where
  /-- The first code point. -/
  first : UInt16
  /-- The last code point. -/
  last : UInt16
deriving DecidableEq, Repr

/-- A set of code points in one Unicode plane. -/
structure CharacterSet where
  /-- The number of the set. -/
  index : CharSetIdx
  /-- The plane. -/
  plane : UInt16
  /-- The members, in the order of the table. -/
  ranges : List CodeRange
deriving DecidableEq, Repr

/-- A symbol as a table describes it. -/
structure SymbolRow where
  /-- The number of the symbol. -/
  index : SymbolIdx
  /-- Its name. -/
  name : String
  /-- Its role. -/
  kind : SymbolKind
deriving DecidableEq, Repr

/-- The identifier of a symbol: `<Name>` for a non-terminal, `Name` for a terminal and `(Name)` for
all else. -/
def SymbolRow.id (s : SymbolRow) : String :=
  match s.kind with
  | .nonTerminal => "<" ++ s.name ++ ">"
  | .terminal => s.name
  | _ => "(" ++ s.name ++ ")"

/-- A lexical group: a region, such as a comment, that is scanned as one token. -/
structure Group where
  /-- The number of the group. -/
  index : GroupIdx
  /-- Its name. -/
  name : String
  /-- The symbol of the token that stands for the whole region. -/
  container : SymbolIdx
  /-- The symbol that opens the region. -/
  startSymbol : SymbolIdx
  /-- The symbol that closes it. -/
  endSymbol : SymbolIdx
  /-- How the region consumes what neither nests in it nor closes it. -/
  advance : AdvanceMode
  /-- Whether the closing delimiter belongs to the region. -/
  ending : EndingMode
  /-- The groups that may open inside. -/
  nesting : List GroupIdx
deriving DecidableEq, Repr

/-- The group `inner` may open inside this group. -/
def Group.nests (g : Group) (inner : GroupIdx) : Bool :=
  g.nesting.contains inner

/-- A production as a table describes it. -/
structure ProductionRow where
  /-- The number of the production. -/
  index : ProductionIdx
  /-- The symbol that it derives. -/
  head : SymbolIdx
  /-- The symbols that it derives it from. -/
  handles : List SymbolIdx
deriving DecidableEq, Repr

/-- An edge of the lexical automaton. -/
structure Edge where
  /-- The characters that take it. -/
  charset : CharSetIdx
  /-- Where it leads. -/
  target : DfaStateIdx
deriving DecidableEq, Repr

/-- A state of the lexical automaton as a table describes it. -/
structure DfaRow where
  /-- The number of the state. -/
  index : DfaStateIdx
  /-- The symbol that a text ending here is, if any. -/
  accept : Option SymbolIdx
  /-- The edges that leave the state. -/
  edges : List Edge
deriving DecidableEq, Repr

/-- The actions of a state of the LALR automaton, in increasing order of their symbols and at most
one for a symbol. -/
abbrev ActionMap := List (SymbolIdx × Action)

/-- Set the action for a symbol, in place of one it may have had. -/
def ActionMap.insert (s : SymbolIdx) (a : Action) : ActionMap → ActionMap
  | [] => [(s, a)]
  | (t, b) :: rest =>
    if s < t then (s, a) :: (t, b) :: rest
    else if s = t then (s, a) :: rest
    else (t, b) :: ActionMap.insert s a rest

/-- A state of the LALR automaton as a table describes it. -/
structure LalrRow where
  /-- The number of the state. -/
  index : LalrStateIdx
  /-- What to do on each symbol. -/
  actions : ActionMap
deriving DecidableEq, Repr

/-- All rows of a table.  A row stands at the position of its number; `none` is a row that the
sizes of the table announce and no record has supplied. -/
structure Table where
  /-- The properties, in the order of the table. -/
  properties : List Property := []
  /-- The character sets. -/
  charsets : List (Option CharacterSet) := []
  /-- The symbols. -/
  symbols : List (Option SymbolRow) := []
  /-- The lexical groups. -/
  groups : List (Option Group) := []
  /-- The productions. -/
  productions : List (Option ProductionRow) := []
  /-- The states of the lexical automaton. -/
  dfaStates : List (Option DfaRow) := []
  /-- The states of the LALR automaton. -/
  lalrStates : List (Option LalrRow) := []
  /-- The initial states of the lexical and the LALR automaton. -/
  initial : Option (DfaStateIdx × LalrStateIdx) := none
deriving DecidableEq, Repr

end CompiledGrammar
