import CompiledGrammar.Table.Code

/-!
# Errors in tables

A `TableFault` is what is wrong with a table, a `TableError` a fault with the place where it was
found.  Faults of the byte format have a place; faults of cross references between rows have none.
-/

namespace CompiledGrammar

/-- A part of a table that numbers refer to. -/
inductive TablePart where
  /-- The character sets. -/
  | charsets
  /-- The symbols. -/
  | symbols
  /-- The lexical groups. -/
  | groups
  /-- The productions. -/
  | productions
  /-- The states of the lexical automaton. -/
  | dfaStates
  /-- The states of the LALR automaton. -/
  | lalrStates
  /-- The targets of LALR actions, before it is known what they number. -/
  | actionTargets
  /-- The initial states of both automata. -/
  | initialStates
deriving DecidableEq, Repr

/-- The name of a part, as messages show it. -/
def TablePart.name : TablePart → String
  | charsets => "character sets"
  | symbols => "symbols"
  | groups => "groups"
  | productions => "productions"
  | dfaStates => "DFA states"
  | lalrStates => "LALR states"
  | actionTargets => "action targets"
  | initialStates => "initial states"

/-- What can be wrong with a table. -/
inductive TableFault where
  /-- It does not start with the header of the format. -/
  | badHeader
  /-- It ends inside a record. -/
  | truncated
  /-- A record starts with an unknown byte. -/
  | unknownRecordTag (tag : UInt8)
  /-- A value starts with an unknown byte. -/
  | unknownValueTag (tag : UInt8)
  /-- A record describes an unknown kind of row. -/
  | unknownRowKind (kind : UInt8)
  /-- A record of the given kind lacks a value, or has one of the wrong type. -/
  | malformedRecord (kind : Char)
  /-- A number does not refer to a row of the part. -/
  | indexOutOfRange (part : TablePart) (index : Int)
  /-- A row that the sizes announce was not supplied. -/
  | missingRow (part : TablePart) (index : Nat)
  /-- No symbol has a kind that every grammar needs. -/
  | missingSymbol (kind : SymbolKind)
  /-- A symbol's kind is not a code. -/
  | invalidSymbolKind (code : Int16)
  /-- An action's kind is not a code. -/
  | invalidActionKind (code : Int16)
  /-- One of a group's modes is not a code. -/
  | invalidGroupMode (code : Int16)
deriving DecidableEq, Repr

namespace TableFault

/-- A byte as two hexadecimal digits. -/
def hexByte (b : UInt8) : String :=
  String.ofList [Nat.digitChar (b.toNat / 16), Nat.digitChar (b.toNat % 16)]

/-- The text of a fault. -/
def message : TableFault → String
  | badHeader => "Not a grammar table (bad header)"
  | truncated => "Table is truncated"
  | unknownRecordTag tag => "Unknown record tag 0x" ++ hexByte tag
  | unknownValueTag tag => "Unknown value tag 0x" ++ hexByte tag
  | unknownRowKind kind => "Unknown row kind 0x" ++ hexByte kind
  | malformedRecord kind => "Malformed '" ++ kind.toString ++ "' record"
  | indexOutOfRange part index => "Index " ++ toString index ++ " out of range for " ++ part.name
  | missingRow part index => "No row " ++ toString index ++ " in " ++ part.name
  | missingSymbol kind => "Grammar has no " ++ kind.name ++ " symbol"
  | invalidSymbolKind code => "Invalid symbol kind " ++ toString code.toInt
  | invalidActionKind code => "Invalid action kind " ++ toString code.toInt
  | invalidGroupMode code => "Invalid group mode " ++ toString code.toInt

end TableFault

/-- A fault, and the offset of the byte where it was found, if it was found in the bytes. -/
structure TableError where
  /-- What is wrong. -/
  fault : TableFault
  /-- Where. -/
  offset : Option Nat
deriving DecidableEq, Repr

/-- The text of an error: the fault, and its place if it has one. -/
def TableError.message (e : TableError) : String :=
  match e.offset with
  | some offset => e.fault.message ++ " at byte " ++ toString offset
  | none => e.fault.message

/-- Why a grammar could not be loaded from a file. -/
inductive LoadError where
  /-- The file cannot be read. -/
  | unreadable
  /-- The file is not the table of a grammar. -/
  | badTable (cause : TableError)
deriving DecidableEq, Repr

/-- The text of a load error. -/
def LoadError.message : LoadError → String
  | unreadable => "Can't read grammar table"
  | badTable cause => cause.message

end CompiledGrammar
