/-!
# Indices and codes

A compiled grammar addresses its parts by number: symbols, character sets, lexical groups,
productions, states of the lexical automaton and states of the LALR automaton.  The kinds of
symbols, actions and groups are integer codes in a table and enumerations here; `ofCode?` reads a
code, and fails on an integer that is not one.
-/

namespace CompiledGrammar

/-- The number of a symbol. -/
abbrev SymbolIdx := Nat

/-- The number of a character set. -/
abbrev CharSetIdx := Nat

/-- The number of a lexical group. -/
abbrev GroupIdx := Nat

/-- The number of a production. -/
abbrev ProductionIdx := Nat

/-- The number of a state of the lexical automaton. -/
abbrev DfaStateIdx := Nat

/-- The number of a state of the LALR automaton. -/
abbrev LalrStateIdx := Nat

/-- What role a symbol plays. -/
inductive SymbolKind where
  /-- Derived by productions. -/
  | nonTerminal
  /-- Read from the input and passed to the parser. -/
  | terminal
  /-- Read from the input and dropped, such as white space. -/
  | noise
  /-- The end of the input. -/
  | endOfFile
  /-- Opens a lexical group. -/
  | groupStart
  /-- Closes a lexical group. -/
  | groupEnd
  /-- A kind the table format reserves. -/
  | decremented
  /-- Input that nothing matches. -/
  | error
deriving DecidableEq, Repr

namespace SymbolKind

/-- The kind with a given code. -/
def ofCode? (code : Int16) : Option SymbolKind :=
  match code.toInt with
  | 0 => some nonTerminal
  | 1 => some terminal
  | 2 => some noise
  | 3 => some endOfFile
  | 4 => some groupStart
  | 5 => some groupEnd
  | 6 => some decremented
  | 7 => some error
  | _ => none

/-- The name of a kind, as messages show it. -/
def name : SymbolKind → String
  | nonTerminal => "NonTerminal"
  | terminal => "Terminal"
  | noise => "Noise"
  | endOfFile => "EndOfFile"
  | groupStart => "GroupStart"
  | groupEnd => "GroupEnd"
  | decremented => "Decremented"
  | error => "Error"

end SymbolKind

/-- How a lexical group consumes input that neither nests nor closes it. -/
inductive AdvanceMode where
  /-- A whole token at a time. -/
  | token
  /-- A character at a time. -/
  | character
deriving DecidableEq, Repr

/-- The mode with a given code. -/
def AdvanceMode.ofCode? (code : Int16) : Option AdvanceMode :=
  match code.toInt with
  | 0 => some token
  | 1 => some character
  | _ => none

/-- Whether the delimiter that closes a group is part of the group. -/
inductive EndingMode where
  /-- It is not, and is scanned again after the group. -/
  | opened
  /-- It is. -/
  | closed
deriving DecidableEq, Repr

/-- The mode with a given code. -/
def EndingMode.ofCode? (code : Int16) : Option EndingMode :=
  match code.toInt with
  | 0 => some opened
  | 1 => some closed
  | _ => none

/-- What the LALR automaton does on a symbol. -/
inductive Action where
  /-- Push the symbol and move to a state. -/
  | shift (state : LalrStateIdx)
  /-- Replace the handles of a production by its head. -/
  | reduce (production : ProductionIdx)
  /-- Move to a state, once a reduction has put a head there. -/
  | goto (state : LalrStateIdx)
  /-- Accept the input. -/
  | accept
deriving DecidableEq, Repr

/-- The action with a given code, on a given target. -/
def Action.ofCode? (code : Int16) (target : Nat) : Option Action :=
  match code.toInt with
  | 1 => some (shift target)
  | 2 => some (reduce target)
  | 3 => some (goto target)
  | 4 => some accept
  | _ => none

end CompiledGrammar
