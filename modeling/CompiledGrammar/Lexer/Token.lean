import CompiledGrammar.Grammar.Basic
import CompiledGrammar.Text.Buffer

/-!
# Tokens

A `Token` is a symbol and the span of input it stands for.  It does not hold the text: its lexeme is
read from the buffer it was scanned from.
-/

namespace CompiledGrammar

/-- A piece of input, recognised as a symbol. -/
structure Token where
  /-- The symbol. -/
  symbol : SymbolIdx
  /-- The bytes of the input it covers. -/
  span : Span
  /-- The position of the first of them. -/
  position : Position
deriving DecidableEq, Repr

namespace Token

/-- The text of a token, unless the buffer is not the one it was scanned from. -/
def lexeme? (t : Token) (input : Buffer) : Option String :=
  input.slice? t.span

/-- A token as diagnostics show it: its symbol and its text in quotes. -/
def render? (t : Token) (g : Grammar) (input : Buffer) : Option String := do
  let id ← g.symbolId? t.symbol
  let lexeme ← t.lexeme? input
  return id ++ " '" ++ lexeme ++ "'"

end Token

end CompiledGrammar
