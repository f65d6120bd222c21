import CompiledGrammar.Table.Record
import CompiledGrammar.Table.Row

/-!
# Decoding a table

`Table.decode` reads the bytes of a table as rows.  The first value of a record is a byte that names
the kind of row, and the fields of the row follow at fixed positions, some of them reserved.  Rows
with a list in them end in that list.  Only the format is checked: references between rows are
checked when a grammar is linked.

The sizes of all parts are a row of their own, which empties every part and makes room for the
announced number of rows; a row that does not fit its part is an error.
-/

namespace CompiledGrammar

/-- The header of the format. -/
def tableHeader : String := "GOLD Parser Tables/v5.0"

/-! ### Fields

The functions of this section read one field of a record of the row kind `kind`; `none` stands for
a field that the record is too short to have. -/

namespace Field

variable (kind : Char)

/-- An integer. -/
def int : Option Value → Except TableFault Int16
  | some (.int n) => .ok n
  | _ => .error (.malformedRecord kind)

/-- An integer that numbers a row of a part. -/
def index (part : TablePart) (field : Option Value) : Except TableFault Nat := do
  let n ← int kind field
  if 0 ≤ n.toInt then .ok n.toInt.toNat else .error (.indexOutOfRange part n.toInt)

/-- An integer that counts something. -/
def count (field : Option Value) : Except TableFault Nat := do
  let n ← int kind field
  if 0 ≤ n.toInt then .ok n.toInt.toNat else .error (.malformedRecord kind)

/-- A truth value. -/
def bool : Option Value → Except TableFault Bool
  | some (.bool b) => .ok b
  | _ => .error (.malformedRecord kind)

/-- A string. -/
def str : Option Value → Except TableFault String
  | some (.str s) => .ok s
  | _ => .error (.malformedRecord kind)

/-- A record must have at least `n` values. -/
def require (n : Nat) (r : Record) : Except TableFault Unit :=
  if r.length < n then .error (.malformedRecord kind) else .ok ()

end Field

/-! ### Lists at the end of a row -/

namespace Tail

/-- The ranges of a character set: `n` pairs of words. -/
def ranges : Nat → Record → Except TableFault (List CodeRange)
  | 0, _ => .ok []
  | n + 1, r => do
    let first ← Field.int 'c' r[0]?
    let last ← Field.int 'c' r[1]?
    let rest ← ranges n (r.drop 2)
    return ⟨first.toUInt16, last.toUInt16⟩ :: rest

/-- The numbers of the groups that may open inside a group. -/
def nesting (r : Record) : Except TableFault (List GroupIdx) :=
  r.mapM fun v => Field.index 'g' .groups (some v)

/-- The handles of a production. -/
def handles (r : Record) : Except TableFault (List SymbolIdx) :=
  r.mapM fun v => Field.index 'R' .symbols (some v)

/-- The edges of a state of the lexical automaton, each a character set, a target and a reserved
value. -/
def edges : Record → Except TableFault (List Edge)
  | charset :: target :: _ :: r => do
    let charset ← Field.index 'D' .charsets (some charset)
    let target ← Field.index 'D' .dfaStates (some target)
    let rest ← edges r
    return ⟨charset, target⟩ :: rest
  | _ => .ok []

/-- The actions of a state of the LALR automaton, each a symbol, a kind, a target and a reserved
value.  They are added to `actions` from left to right. -/
def actions (acc : ActionMap) : Record → Except TableFault ActionMap
  | symbol :: kind :: target :: _ :: r => do
    let symbol ← Field.index 'L' .symbols (some symbol)
    let code ← Field.int 'L' (some kind)
    let target ← Field.index 'L' .actionTargets (some target)
    match Action.ofCode? code target with
    | some action => actions (acc.insert symbol action) r
    | none => .error (.invalidActionKind code)
  | _ => .ok acc

end Tail

/-! ### Rows -/

/-- Put a row at its position, which the sizes must have announced. -/
def placeRow {α : Type} (part : TablePart) (index : Nat) (row : α) (rows : List (Option α)) :
    Except TableFault (List (Option α)) :=
  if index < rows.length then .ok (rows.set index (some row))
  else .error (.indexOutOfRange part index)

namespace Table

/-- Add a property. -/
def addProperty (t : Table) (r : Record) : Except TableFault Table := do
  let index ← Field.count 'p' r[1]?
  let name ← Field.str 'p' r[2]?
  let value ← Field.str 'p' r[3]?
  return { t with properties := t.properties ++ [⟨index, name, value⟩] }

/-- Set the sizes of all parts. -/
def setSizes (t : Table) (r : Record) : Except TableFault Table := do
  let symbols ← Field.count 't' r[1]?
  let charsets ← Field.count 't' r[2]?
  let productions ← Field.count 't' r[3]?
  let dfaStates ← Field.count 't' r[4]?
  let lalrStates ← Field.count 't' r[5]?
  let groups ← Field.count 't' r[6]?
  return { t with
    symbols := List.replicate symbols none
    charsets := List.replicate charsets none
    productions := List.replicate productions none
    dfaStates := List.replicate dfaStates none
    lalrStates := List.replicate lalrStates none
    groups := List.replicate groups none }

/-- Add a character set. -/
def addCharset (t : Table) (r : Record) : Except TableFault Table := do
  let index ← Field.index 'c' .charsets r[1]?
  let plane ← Field.int 'c' r[2]?
  let n ← Field.count 'c' r[3]?
  Field.require 'c' (5 + 2 * n) r
  let ranges ← Tail.ranges n (r.drop 5)
  let charsets ← placeRow .charsets index ⟨index, plane.toUInt16, ranges⟩ t.charsets
  return { t with charsets }

/-- Add a symbol. -/
def addSymbol (t : Table) (r : Record) : Except TableFault Table := do
  let index ← Field.index 'S' .symbols r[1]?
  let code ← Field.int 'S' r[3]?
  match SymbolKind.ofCode? code with
  | none => throw (.invalidSymbolKind code)
  | some kind =>
    let name ← Field.str 'S' r[2]?
    let symbols ← placeRow .symbols index ⟨index, name, kind⟩ t.symbols
    return { t with symbols }

/-- Add a lexical group. -/
def addGroup (t : Table) (r : Record) : Except TableFault Table := do
  let index ← Field.index 'g' .groups r[1]?
  let advanceCode ← Field.int 'g' r[6]?
  let endingCode ← Field.int 'g' r[7]?
  let n ← Field.count 'g' r[9]?
  Field.require 'g' (10 + n) r
  let nesting ← Tail.nesting ((r.drop 10).take n)
  let name ← Field.str 'g' r[2]?
  let container ← Field.index 'g' .symbols r[3]?
  let startSymbol ← Field.index 'g' .symbols r[4]?
  let endSymbol ← Field.index 'g' .symbols r[5]?
  match AdvanceMode.ofCode? advanceCode, EndingMode.ofCode? endingCode with
  | none, _ => throw (.invalidGroupMode advanceCode)
  | _, none => throw (.invalidGroupMode endingCode)
  | some advance, some ending =>
    let groups ← placeRow .groups index
      ⟨index, name, container, startSymbol, endSymbol, advance, ending, nesting⟩ t.groups
    return { t with groups }

/-- Add a production. -/
def addProduction (t : Table) (r : Record) : Except TableFault Table := do
  let index ← Field.index 'R' .productions r[1]?
  let head ← Field.index 'R' .symbols r[2]?
  Field.require 'R' 4 r
  let handles ← Tail.handles (r.drop 4)
  let productions ← placeRow .productions index ⟨index, head, handles⟩ t.productions
  return { t with productions }

/-- Set the initial states. -/
def setInitial (t : Table) (r : Record) : Except TableFault Table := do
  let dfa ← Field.index 'I' .dfaStates r[1]?
  let lalr ← Field.index 'I' .lalrStates r[2]?
  return { t with initial := some (dfa, lalr) }

/-- Add a state of the lexical automaton. -/
def addDfaState (t : Table) (r : Record) : Except TableFault Table := do
  let index ← Field.index 'D' .dfaStates r[1]?
  Field.require 'D' 5 r
  let accepts ← Field.bool 'D' r[2]?
  let accept ← if accepts then some <$> Field.index 'D' .symbols r[3]? else pure none
  let edges ← Tail.edges (r.drop 5)
  let dfaStates ← placeRow .dfaStates index ⟨index, accept, edges⟩ t.dfaStates
  return { t with dfaStates }

/-- Add a state of the LALR automaton. -/
def addLalrState (t : Table) (r : Record) : Except TableFault Table := do
  let index ← Field.index 'L' .lalrStates r[1]?
  Field.require 'L' 3 r
  let actions ← Tail.actions [] (r.drop 3)
  let lalrStates ← placeRow .lalrStates index ⟨index, actions⟩ t.lalrStates
  return { t with lalrStates }

/-- Add the row that a record of the given kind describes. -/
def addRow (t : Table) (kind : UInt8) (r : Record) : Except TableFault Table :=
  if kind = 'p'.toUInt8 then t.addProperty r
  else if kind = 't'.toUInt8 then t.setSizes r
  else if kind = 'c'.toUInt8 then t.addCharset r
  else if kind = 'S'.toUInt8 then t.addSymbol r
  else if kind = 'g'.toUInt8 then t.addGroup r
  else if kind = 'R'.toUInt8 then t.addProduction r
  else if kind = 'I'.toUInt8 then t.setInitial r
  else if kind = 'D'.toUInt8 then t.addDfaState r
  else if kind = 'L'.toUInt8 then t.addLalrState r
  else .error (.unknownRowKind kind)

/-- Add the row that a record describes.  An error in it is reported at the record. -/
def addRecord (t : Table) (located : Nat × Record) : Except TableError Table :=
  let (offset, r) := located
  match r with
  | .byte kind :: _ =>
    (t.addRow kind r).mapError fun fault => ⟨fault, some offset⟩
  | _ => .error ⟨.malformedRecord '?', some offset⟩

/-- The rows that come after the header. -/
def decodeRecords (c : ByteCursor) : Except TableError Table := do
  let (records, failure) := readRecords c
  let t ← records.foldlM addRecord {}
  match failure with
  | some e => throw e
  | none => return t

/-- The rows of the table that `bytes` holds. -/
def decode (bytes : List UInt8) : Except TableError Table :=
  match readString ⟨0, bytes⟩ with
  | .error e => .error { e with fault := .badHeader }
  | .ok (header, c) =>
    if header = tableHeader then decodeRecords c else .error ⟨.badHeader, some 0⟩

end Table

end CompiledGrammar
