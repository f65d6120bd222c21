import CompiledGrammar.Lexer.Token

/-!
# Parse errors

A parse fails on input that no token matches, on a token that cannot come next, or, if the table is
not consistent, on a reduction that leads nowhere.
-/

namespace CompiledGrammar

/-- Why a parse failed. -/
inductive ParseFault where
  /-- Nothing matches the input. -/
  | lexical
  /-- The token cannot come next.  The symbols that could are listed in increasing order. -/
  | syntactic (expected : List SymbolIdx)
  /-- The table leads nowhere after a reduction, or has an action where it makes no sense. -/
  | internal
deriving DecidableEq, Repr

/-- The symbols that could have come next. -/
def ParseFault.expected : ParseFault → List SymbolIdx
  | .syntactic expected => expected
  | _ => []

/-- A failed parse. -/
structure ParseError where
  /-- Why it failed. -/
  fault : ParseFault
  /-- The state it failed in. -/
  state : LalrStateIdx
  /-- The token it failed on. -/
  token : Token
deriving DecidableEq, Repr

namespace ParseError

variable (e : ParseError)

/-- Where the parse failed. -/
def position : Position := e.token.position

/-- The text of an error. -/
def message : String :=
  let place := " at line " ++ toString e.position.line ++ " column " ++ toString e.position.column
  match e.fault with
  | .lexical => "Lexical error" ++ place
  | .syntactic _ => "Syntax error" ++ place
  | .internal => "Internal error in state " ++ toString e.state ++ place

/-- An error as diagnostics show it, with the token and the symbols that could have come next. -/
def render? (g : Grammar) (input : Buffer) : Option String :=
  let place := "(" ++ toString e.position.line ++ ":" ++ toString e.position.column ++ ")"
  match e.fault with
  | .lexical =>
    (e.token.lexeme? input).map fun lexeme => "LexicalError" ++ place ++ " Token='" ++ lexeme ++ "'"
  | .syntactic expected => do
    let ids ← expected.mapM g.symbolId?
    let token ← e.token.render? g input
    return "SyntaxError" ++ place ++ " Token=" ++ token ++ " ExpectedTokens=[" ++
      String.intercalate ", " ids ++ "]"
  | .internal => some ("InternalError" ++ place ++ " State=" ++ toString e.state)

end ParseError

end CompiledGrammar
