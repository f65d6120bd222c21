import CompiledGrammar.Grammar.Basic
import CompiledGrammar.Grammar.SinglePath
import CompiledGrammar.Table.Decode

/-!
# Linking a table

`Table.link` turns the rows of a table into a grammar.  It demands that every announced row is there
(`Table.complete`), that there are an end-of-input and an error symbol, and that every number in a
row refers to a row that exists (`Rows.references`), and then derives what scanning, parsing and
tree building need.  The demands are made in a fixed order, and the first that fails is the error.
-/

namespace CompiledGrammar

/-- The rows of a table, none of them missing. -/
structure Rows where
  /-- The properties. -/
  properties : List Property
  /-- The character sets. -/
  charsets : List CharacterSet
  /-- The symbols. -/
  symbols : List SymbolRow
  /-- The lexical groups. -/
  groups : List Group
  /-- The productions. -/
  productions : List ProductionRow
  /-- The states of the lexical automaton. -/
  dfaStates : List DfaRow
  /-- The states of the LALR automaton. -/
  lalrStates : List LalrRow
  /-- The initial state of the lexical automaton. -/
  dfaInitial : DfaStateIdx
  /-- The initial state of the LALR automaton. -/
  lalrInitial : LalrStateIdx
deriving DecidableEq, Repr

/-! ### Missing rows -/

/-- The rows of a part, of which `i` precede the given ones. -/
def presentFrom {α : Type} (part : TablePart) (i : Nat) :
    List (Option α) → Except TableFault (List α)
  | [] => .ok []
  | none :: _ => .error (.missingRow part i)
  | some row :: rows => (presentFrom part (i + 1) rows).map (row :: ·)

/-- The rows of a table, which must all be there. -/
def Table.complete (t : Table) : Except TableFault Rows := do
  let charsets ← presentFrom .charsets 0 t.charsets
  let symbols ← presentFrom .symbols 0 t.symbols
  let groups ← presentFrom .groups 0 t.groups
  let productions ← presentFrom .productions 0 t.productions
  let dfaStates ← presentFrom .dfaStates 0 t.dfaStates
  let lalrStates ← presentFrom .lalrStates 0 t.lalrStates
  match t.initial with
  | none => throw (.missingRow .initialStates 0)
  | some (dfaInitial, lalrInitial) =>
    return { properties := t.properties, charsets, symbols, groups, productions, dfaStates,
             lalrStates, dfaInitial, lalrInitial }

/-! ### References -/

/-- A number in a row, and the part of the table that it refers to. -/
structure Reference where
  /-- The part. -/
  part : TablePart
  /-- The number. -/
  index : Nat
deriving DecidableEq, Repr

/-- What an action refers to. -/
def Action.references : Action → List Reference
  | .shift state => [⟨.lalrStates, state⟩]
  | .goto state => [⟨.lalrStates, state⟩]
  | .reduce production => [⟨.productions, production⟩]
  | .accept => []

/-- What a production refers to. -/
def ProductionRow.references (p : ProductionRow) : List Reference :=
  (p.head :: p.handles).map (⟨.symbols, ·⟩)

/-- What a group refers to. -/
def Group.references (g : Group) : List Reference :=
  [g.container, g.startSymbol, g.endSymbol].map (⟨.symbols, ·⟩) ++
    g.nesting.map (⟨.groups, ·⟩)

/-- What a state of the lexical automaton refers to. -/
def DfaRow.references (s : DfaRow) : List Reference :=
  s.accept.toList.map (⟨.symbols, ·⟩) ++
    s.edges.flatMap fun e => [⟨.charsets, e.charset⟩, ⟨.dfaStates, e.target⟩]

/-- What a state of the LALR automaton refers to. -/
def LalrRow.references (s : LalrRow) : List Reference :=
  s.actions.flatMap fun (symbol, action) => ⟨.symbols, symbol⟩ :: action.references

namespace Rows

variable (r : Rows)

/-- The number of rows of a part. -/
def size : TablePart → Nat
  | .charsets => r.charsets.length
  | .symbols => r.symbols.length
  | .groups => r.groups.length
  | .productions => r.productions.length
  | .dfaStates => r.dfaStates.length
  | .lalrStates => r.lalrStates.length
  | .actionTargets => 0
  | .initialStates => 0

/-- All references, in the order in which they are checked. -/
def references : List Reference :=
  [⟨.dfaStates, r.dfaInitial⟩, ⟨.lalrStates, r.lalrInitial⟩] ++
    r.productions.flatMap ProductionRow.references ++ r.groups.flatMap Group.references ++
    r.dfaStates.flatMap DfaRow.references ++ r.lalrStates.flatMap LalrRow.references

/-- Every reference is to a row that exists; otherwise the first that is not is the error. -/
def checkReferences : Except TableFault Unit :=
  match r.references.find? fun ref => r.size ref.part ≤ ref.index with
  | some ref => .error (.indexOutOfRange ref.part ref.index)
  | none => .ok ()

/-- The first symbol of a kind that every grammar needs. -/
def findKind (kind : SymbolKind) : Except TableFault SymbolIdx :=
  match r.symbols.find? (·.kind == kind) with
  | some s => .ok s.index
  | none => .error (.missingSymbol kind)

/-! ### Derived parts -/

/-- The members of a character set. -/
def charsetRanges (i : CharSetIdx) : List CodeRange :=
  (r.charsets[i]?.map CharacterSet.ranges).getD []

/-- The identifier of a symbol. -/
def symbolId (s : SymbolIdx) : String :=
  (r.symbols[s]?.map SymbolRow.id).getD ""

/-- The text of the handles in the identifier of a production. -/
def handlesId : List SymbolIdx → String
  | [] => ""
  | h :: handles => " " ++ r.symbolId h ++ handlesId handles

/-- The identifier of a production: its head, `::=`, and its handles, with blanks between them. -/
def productionId (p : ProductionRow) : String :=
  r.symbolId p.head ++ " ::=" ++ r.handlesId p.handles

/-- The symbols, with the analysis of their lexemes. -/
def linkSymbols : List Symbol :=
  let accepts := SinglePath.accepts r.dfaStates r.dfaInitial
  r.symbols.map fun s => { s with singleLexeme := accepts.count s.index == 1 }

end Rows

/-- The rules that fit a production with the given handles.  With one handle that can vary, and
nothing else to show, the handle stands for the whole; single-lexeme terminals say nothing where
something else can vary. -/
def inferRules (symbols : List Symbol) (p : ProductionRow) : TreeRules :=
  let handles := p.handles.filterMap fun h => symbols[h]?
  let nonTerminals := handles.countP (·.kind == .nonTerminal)
  let terminals := handles.countP (·.kind == .terminal)
  let varied := handles.countP fun s => s.kind == .terminal && !s.singleLexeme
  { forwardChild :=
      (nonTerminals == 1 && terminals == 0) || (nonTerminals == 0 && varied == 1) ||
        (nonTerminals == 0 && terminals == 1)
    mergeChild := false
    listifyRecursion :=
      p.handles.any fun h => h == p.head && symbols[h]?.any (·.kind == .nonTerminal)
    removeSingleLexeme := (0 < nonTerminals || 0 < varied) && varied < terminals }

namespace Rows

variable (r : Rows)

/-- The grammar with these rows and the given special symbols. -/
def toGrammar (eofSymbol errorSymbol : SymbolIdx) : Grammar :=
  let symbols := r.linkSymbols
  { properties := r.properties
    charsets := r.charsets.toArray
    symbols := symbols.toArray
    groups := r.groups.toArray
    productions := (r.productions.map fun p =>
      { p with id := r.productionId p, rules := inferRules symbols p }).toArray
    dfaStates := (r.dfaStates.map fun s =>
      { s with lookup := Lookup.ofState r.charsetRanges s }).toArray
    lalrStates := (r.lalrStates.map fun s =>
      { s with
        table := ((List.range r.symbols.length).map fun i => s.actions.lookup i).toArray }).toArray
    dfaInitial := r.dfaInitial
    lalrInitial := r.lalrInitial
    eofSymbol
    errorSymbol }

end Rows

/-- Link the rows of a table. -/
def Table.link (t : Table) : Except TableFault Grammar := do
  let rows ← t.complete
  let eofSymbol ← rows.findKind .endOfFile
  let errorSymbol ← rows.findKind .error
  rows.checkReferences
  return rows.toGrammar eofSymbol errorSymbol

namespace Grammar

/-- Load the grammar of the table that `bytes` holds. -/
def ofBytes (bytes : List UInt8) : Except TableError Grammar := do
  let table ← Table.decode bytes
  table.link.mapError fun fault => ⟨fault, none⟩

/-- Load the grammar of a table in a file; `none` is a file that cannot be read. -/
def ofFile : Option (List UInt8) → Except LoadError Grammar
  | some contents => (ofBytes contents).mapError .badTable
  | none => .error .unreadable

end Grammar

end CompiledGrammar
