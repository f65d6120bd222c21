import CompiledGrammar.Grammar.Basic

/-!
# Walking the lexical automaton

`Grammar.walk` follows the automaton along a text, for as long as it has somewhere to go, and
reports the longest beginning of the text that it accepts, and how far it read.  Code points that a
table cannot address, those above `U+FFFF`, are all taken as `U+FFFF`.
-/

namespace CompiledGrammar

/-- What a walk has found.  Both numbers count characters. -/
structure Walk where
  /-- The longest accepted text that is not empty: its symbol and its length. -/
  accepted : Option (SymbolIdx × Nat)
  /-- How far the walk has read, with the character on which it stopped. -/
  read : Nat
deriving DecidableEq, Repr

/-- The code point by which the automaton knows a character. -/
def dfaCode (c : Char) : Nat :=
  min c.toNat 0xFFFF

namespace Grammar

variable (g : Grammar)

/-- The state that a character leads to, if it leads anywhere. -/
def dfaStep (q : DfaState) (c : Char) : Option DfaState :=
  match q.lookup.transition (dfaCode c) with
  | .goto t => g.dfaStates[t]?
  | .acceptLoop => some q
  | .loop => some q
  | .dead => none

/-- Walk from a state. -/
def walk (q : DfaState) : List Char → Walk
  | [] => ⟨none, 0⟩
  | c :: cs =>
    match g.dfaStep q c with
    | none => ⟨none, 1⟩
    | some next =>
      let w := walk next cs
      { accepted :=
          match w.accepted with
          | some (symbol, n) => some (symbol, n + 1)
          | none => next.accept.map fun symbol => (symbol, 1)
        read := w.read + 1 }

/-- The symbol of the next token of a text, and the number of characters it takes: the longest
accepted beginning, else everything up to the character that cannot be right, else the end of the
input. -/
def nextMatch (cs : List Char) : SymbolIdx × Nat :=
  match g.dfaStates[g.dfaInitial]? with
  | none => (g.eofSymbol, 0)
  | some q =>
    let w := g.walk q cs
    match w.accepted with
    | some found => found
    | none => if w.read = 0 then (g.eofSymbol, 0) else (g.errorSymbol, w.read)

end Grammar

end CompiledGrammar
