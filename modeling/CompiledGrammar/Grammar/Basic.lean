import CompiledGrammar.Grammar.Lookup
import CompiledGrammar.Table.Error

/-!
# Grammars

A `Grammar` is a table whose references have been checked, together with what is derived from it:
the transitions of each state of the lexical automaton, the action table of each state of the LALR
automaton, the identifiers of productions, the symbols with a single lexeme, and the rules by which
each production appears in a simplified tree (`TreeRules`).  Two of these rules can be changed later
(`Grammar.setMergeChild?`, `Grammar.setForwardChild?`); all else stays as it was linked.
-/

namespace CompiledGrammar

/-- How a production appears in a simplified tree. -/
structure TreeRules where
  /-- An only child takes the place of the node. -/
  forwardChild : Bool
  /-- The children of a child that the child's own production built become children of the node. -/
  mergeChild : Bool
  /-- A recursion becomes one flat list. -/
  listifyRecursion : Bool
  /-- Terminals that have a single lexeme are left out. -/
  removeSingleLexeme : Bool
deriving DecidableEq, Repr

/-- A symbol. -/
structure Symbol extends SymbolRow where
  /-- The symbol is only ever matched by one fixed text. -/
  singleLexeme : Bool
deriving DecidableEq, Repr

/-- A production. -/
structure Production extends ProductionRow where
  /-- Its identifier, such as `<E> ::= <E> + <M>`. -/
  id : String
  /-- How it appears in a simplified tree. -/
  rules : TreeRules
deriving DecidableEq, Repr

/-- A state of the lexical automaton. -/
structure DfaState extends DfaRow where
  /-- Where characters lead. -/
  lookup : Lookup
deriving DecidableEq, Repr

/-- A state of the LALR automaton. -/
structure LalrState extends LalrRow where
  /-- The action on each symbol of the grammar, by its number. -/
  table : Array (Option Action)
deriving DecidableEq, Repr

/-- The action on a symbol. -/
def LalrState.action? (s : LalrState) (symbol : SymbolIdx) : Option Action :=
  s.table[symbol]?.join

/-- A linked table. -/
structure Grammar where
  /-- The properties, in the order of the table. -/
  properties : List Property
  /-- The character sets. -/
  charsets : Array CharacterSet
  /-- The symbols. -/
  symbols : Array Symbol
  /-- The lexical groups. -/
  groups : Array Group
  /-- The productions. -/
  productions : Array Production
  /-- The states of the lexical automaton. -/
  dfaStates : Array DfaState
  /-- The states of the LALR automaton. -/
  lalrStates : Array LalrState
  /-- The state in which a scan starts. -/
  dfaInitial : DfaStateIdx
  /-- The state in which a parse starts. -/
  lalrInitial : LalrStateIdx
  /-- The symbol of the end of the input. -/
  eofSymbol : SymbolIdx
  /-- The symbol of input that nothing matches. -/
  errorSymbol : SymbolIdx
deriving DecidableEq, Repr

namespace Grammar

variable (g : Grammar)

/-! ### Queries -/

/-- The value of a property: of the first one with the name, if there are several. -/
def property? (name : String) : Option String :=
  (g.properties.find? (·.name == name)).map Property.value

/-- The symbol with an identifier: the last one, if there are several. -/
def symbolIdx? (id : String) : Option SymbolIdx :=
  (g.symbols.toList.reverse.find? (·.id == id)).map (·.index)

/-- The production with an identifier: the last one, if there are several. -/
def productionIdx? (id : String) : Option ProductionIdx :=
  (g.productions.toList.reverse.find? (·.id == id)).map (·.index)

/-- The identifier of a symbol, if the grammar has it. -/
def symbolId? (s : SymbolIdx) : Option String :=
  g.symbols[s]?.map (·.id)

/-- The identifier of a production, if the grammar has it. -/
def productionId? (p : ProductionIdx) : Option String :=
  g.productions[p]?.map (·.id)

/-- The symbol is one of the given kind. -/
def hasKind (s : SymbolIdx) (kind : SymbolKind) : Bool :=
  g.symbols[s]?.any (·.kind == kind)

/-- The group that a symbol opens: the first one, if there are several. -/
def groupStartedBy? (s : SymbolIdx) : Option Group :=
  g.groups.toList.find? (·.startSymbol == s)

/-- The action of a state of the LALR automaton on a symbol. -/
def action? (state : LalrStateIdx) (symbol : SymbolIdx) : Option Action :=
  g.lalrStates[state]?.bind (·.action? symbol)

/-! ### Rules of productions -/

/-- Change the rules of a production, if the grammar has it. -/
def modifyRules? (p : ProductionIdx) (f : TreeRules → TreeRules) : Option Grammar :=
  if p < g.productions.size then
    some { g with productions := g.productions.modify p fun q => { q with rules := f q.rules } }
  else none

/-- Set whether the children of a production's children are merged into its node. -/
def setMergeChild? (p : ProductionIdx) (merge : Bool) : Option Grammar :=
  g.modifyRules? p fun r => { r with mergeChild := merge }

/-- Set whether an only child takes the place of a production's node. -/
def setForwardChild? (p : ProductionIdx) (forward : Bool) : Option Grammar :=
  g.modifyRules? p fun r => { r with forwardChild := forward }

end Grammar

end CompiledGrammar
