import CompiledGrammar.Table.Record
import CompiledGrammar.Table.Row
import CompiledGrammar.Table.Decode

/-!
# Drafting a table

A `Draft` gathers the parts of a grammar and writes them as a table (`Draft.toBytes`).  The lexical
automaton grows with it as a trie: a pattern (`Draft.pattern`) follows the edges that earlier
patterns laid down as far as they agree with it, and lays down new ones from there on.  Patterns
that share a beginning must therefore use identical character classes there, and the classes that
leave one state must not overlap.
-/

namespace CompiledGrammar

/-- One step of a lexical pattern. -/
inductive Atom where
  /-- One character of a class. -/
  | one (ranges : List CodeRange)
  /-- One or more characters of a class. -/
  | many (ranges : List CodeRange)
deriving DecidableEq, Repr

namespace Atom

/-- The class of an atom. -/
def ranges : Atom → List CodeRange
  | one r => r
  | many r => r

/-- The atom repeats its class. -/
def repeats : Atom → Bool
  | one _ => false
  | many _ => true

/-- The atom of one character, of which a table has room for the low 16 bits. -/
def ofChar (c : Char) : Atom :=
  one [⟨UInt16.ofNat c.toNat, UInt16.ofNat c.toNat⟩]

end Atom

/-- A state of the lexical automaton of a draft. -/
structure DraftState where
  /-- The symbol that a text ending here is, if any. -/
  accept : Option SymbolIdx := none
  /-- The edges that leave the state. -/
  edges : List Edge := []
deriving DecidableEq, Repr

/-- A lexical group of a draft.  The modes are codes, and need not be valid ones. -/
structure DraftGroup where
  /-- The name of the group. -/
  name : String
  /-- The symbol of the token that stands for the whole region. -/
  container : SymbolIdx
  /-- The symbol that opens the region. -/
  startSymbol : SymbolIdx
  /-- The symbol that closes it. -/
  endSymbol : SymbolIdx
  /-- The code of the advance mode. -/
  advance : Int16
  /-- The code of the ending mode. -/
  ending : Int16
  /-- The groups that may open inside. -/
  nesting : List GroupIdx
deriving DecidableEq, Repr

/-- An action of a draft: a symbol, the code of a kind of action, and its target. -/
structure DraftAction where
  /-- The symbol. -/
  symbol : SymbolIdx
  /-- The code of the kind. -/
  kind : Int16
  /-- The target. -/
  target : Nat
deriving DecidableEq, Repr

/-- The parts of a grammar that is being drafted.  Everything is numbered from zero, in order. -/
structure Draft where
  /-- The properties, as names and values. -/
  properties : List (String × String) := []
  /-- The symbols, as names and codes of kinds. -/
  symbols : List (String × Int16) := []
  /-- The character classes of the patterns, each once. -/
  charsets : List (List CodeRange) := []
  /-- The lexical groups. -/
  groups : List DraftGroup := []
  /-- The productions, as heads and handles. -/
  productions : List (SymbolIdx × List SymbolIdx) := []
  /-- The states of the lexical automaton, the initial one first. -/
  dfa : List DraftState := [{}]
  /-- The actions of the states of the LALR automaton, the initial one first. -/
  lalr : List (List DraftAction) := []
deriving DecidableEq, Repr

namespace Draft

/-! ### Adding parts -/

/-- Add a property. -/
def property (d : Draft) (name value : String) : Draft :=
  { d with properties := d.properties ++ [(name, value)] }

/-- Add a symbol. -/
def symbol (d : Draft) (name : String) (kind : Int16) : Draft :=
  { d with symbols := d.symbols ++ [(name, kind)] }

/-- Add a production. -/
def production (d : Draft) (head : SymbolIdx) (handles : List SymbolIdx) : Draft :=
  { d with productions := d.productions ++ [(head, handles)] }

/-- Add a lexical group. -/
def group (d : Draft) (g : DraftGroup) : Draft :=
  { d with groups := d.groups ++ [g] }

/-- Add a state of the LALR automaton. -/
def lalrState (d : Draft) (actions : List DraftAction) : Draft :=
  { d with lalr := d.lalr ++ [actions] }

/-! ### The lexical automaton -/

/-- The number of the character set of a class, which is added if it is new. -/
def charset (d : Draft) (ranges : List CodeRange) : Draft × CharSetIdx :=
  match d.charsets.findIdx? (· == ranges) with
  | some i => (d, i)
  | none => ({ d with charsets := d.charsets ++ [ranges] }, d.charsets.length)

/-- Change a state of the lexical automaton. -/
def modifyState (d : Draft) (i : DfaStateIdx) (f : DraftState → DraftState) : Draft :=
  { d with dfa := d.dfa.modify i f }

/-- The edges that leave a state. -/
def edgesAt (d : Draft) (i : DfaStateIdx) : List Edge :=
  (d.dfa[i]?.map DraftState.edges).getD []

/-- Where a character set leads from a state, other than back to it. -/
def next? (d : Draft) (state : DfaStateIdx) (charset : CharSetIdx) : Option DfaStateIdx :=
  ((d.edgesAt state).find? fun e => e.charset == charset && e.target != state).map Edge.target

/-- Add a state that accepts nothing and has no edges. -/
def addState (d : Draft) : Draft :=
  { d with dfa := d.dfa ++ [{}] }

/-- Add an edge to a state. -/
def addEdge (d : Draft) (state : DfaStateIdx) (e : Edge) : Draft :=
  d.modifyState state fun s => { s with edges := s.edges ++ [e] }

/-- Add a loop to a state, unless it has that loop. -/
def addLoop (d : Draft) (state : DfaStateIdx) (charset : CharSetIdx) : Draft :=
  if (d.edgesAt state).contains ⟨charset, state⟩ then d else d.addEdge state ⟨charset, state⟩

/-- The state that an atom leads to from a state, which is added if it is new. -/
def step (d : Draft) (state : DfaStateIdx) (a : Atom) : Draft × DfaStateIdx :=
  let (d, charset) := d.charset a.ranges
  let (d, target) :=
    match d.next? state charset with
    | some target => (d, target)
    | none => (d.addState.addEdge state ⟨charset, d.dfa.length⟩, d.dfa.length)
  (if a.repeats then d.addLoop target charset else d, target)

/-- The state that a sequence of atoms leads to. -/
def path (d : Draft) (state : DfaStateIdx) : List Atom → Draft × DfaStateIdx
  | [] => (d, state)
  | a :: atoms =>
    let (d, target) := d.step state a
    path d target atoms

/-- Scan whatever matches the pattern as the symbol. -/
def pattern (d : Draft) (symbol : SymbolIdx) (atoms : List Atom) : Draft :=
  let (d, last) := d.path 0 atoms
  d.modifyState last fun s => { s with accept := some symbol }

/-- Scan the text as the symbol. -/
def literal (d : Draft) (symbol : SymbolIdx) (text : String) : Draft :=
  d.pattern symbol (text.toList.map Atom.ofChar)

/-! ### Writing -/

/-- A number as a value, of which a table has room for 16 bits. -/
def number (n : Nat) : Value := .int (Int16.ofNat n)

/-- A word as a value. -/
def word (w : UInt16) : Value := .int w.toInt16

/-- The record of a property. -/
def propertyRecord (p : (String × String) × Nat) : Record :=
  [.byte 'p'.toUInt8, number p.2, .str p.1.1, .str p.1.2]

/-- The record of the sizes. -/
def sizesRecord (d : Draft) : Record :=
  [.byte 't'.toUInt8, number d.symbols.length, number d.charsets.length,
    number d.productions.length, number d.dfa.length, number d.lalr.length,
    number d.groups.length]

/-- The record of the initial states, which are the first ones. -/
def initialRecord : Record :=
  [.byte 'I'.toUInt8, number 0, number 0]

/-- The record of a character set. -/
def charsetRecord (c : List CodeRange × Nat) : Record :=
  [.byte 'c'.toUInt8, number c.2, number 0, number c.1.length, .empty] ++
    c.1.flatMap fun r => [word r.first, word r.last]

/-- The record of a symbol. -/
def symbolRecord (s : (String × Int16) × Nat) : Record :=
  [.byte 'S'.toUInt8, number s.2, .str s.1.1, .int s.1.2]

/-- The record of a lexical group. -/
def groupRecord (g : DraftGroup × Nat) : Record :=
  [.byte 'g'.toUInt8, number g.2, .str g.1.name, number g.1.container, number g.1.startSymbol,
    number g.1.endSymbol, .int g.1.advance, .int g.1.ending, .empty,
    number g.1.nesting.length] ++ g.1.nesting.map number

/-- The record of a production. -/
def productionRecord (p : (SymbolIdx × List SymbolIdx) × Nat) : Record :=
  [.byte 'R'.toUInt8, number p.2, number p.1.1, .empty] ++ p.1.2.map number

/-- The record of a state of the lexical automaton. -/
def dfaRecord (s : DraftState × Nat) : Record :=
  [.byte 'D'.toUInt8, number s.2, .bool s.1.accept.isSome,
    (s.1.accept.map number).getD (.int (-1)), .empty] ++
    s.1.edges.flatMap fun e => [number e.charset, number e.target, .empty]

/-- The record of a state of the LALR automaton. -/
def lalrRecord (s : List DraftAction × Nat) : Record :=
  [.byte 'L'.toUInt8, number s.2, .empty] ++
    s.1.flatMap fun a => [number a.symbol, .int a.kind, number a.target, .empty]

/-- The records of the table. -/
def records (d : Draft) : List Record :=
  d.properties.zipIdx.map propertyRecord ++ [d.sizesRecord, initialRecord] ++
    d.charsets.zipIdx.map charsetRecord ++ d.symbols.zipIdx.map symbolRecord ++
    d.groups.zipIdx.map groupRecord ++ d.productions.zipIdx.map productionRecord ++
    d.dfa.zipIdx.map dfaRecord ++ d.lalr.zipIdx.map lalrRecord

/-- The bytes of the table. -/
def toBytes (d : Draft) : List UInt8 :=
  encodeString tableHeader ++ d.records.flatMap encodeRecord

end Draft

end CompiledGrammar
