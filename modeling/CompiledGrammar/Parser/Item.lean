import CompiledGrammar.Lexer.Token

/-!
# Items of the parse stack

An `Item` is what one symbol left on the parse stack: the state it led to, where it came from, and a
payload for whoever watches the parse.  A `Reduction` records the items that a production has taken
off the stack.
-/

namespace CompiledGrammar

/-- How an item came onto the stack. -/
inductive Origin where
  /-- It is the bottom of the stack, and was there from the start. -/
  | bottom
  /-- A token was shifted. -/
  | shifted (token : Token)
  /-- A production was reduced. -/
  | reduced (production : ProductionIdx)
deriving DecidableEq, Repr

namespace Origin

/-- The token that was shifted. -/
def token? : Origin → Option Token
  | shifted t => some t
  | _ => none

/-- The production that was reduced. -/
def production? : Origin → Option ProductionIdx
  | reduced p => some p
  | _ => none

end Origin

/-- An item of the parse stack.  The parser never looks at its payload. -/
structure Item (τ : Type) where
  /-- The state of the LALR automaton on top of this item. -/
  state : LalrStateIdx
  /-- How it came here. -/
  origin : Origin
  /-- What was attached to it. -/
  payload : Option τ
deriving DecidableEq, Repr

namespace Item

variable {τ : Type} (i : Item τ)

/-- The text of the item's token, if it has one. -/
def lexeme? (input : Buffer) : Option String :=
  i.origin.token?.bind (·.lexeme? input)

/-- An item as diagnostics show it: its state, and the production or symbol it stands for. -/
def render? (g : Grammar) : Option String :=
  match i.origin with
  | .bottom => some ("S=" ++ toString i.state)
  | .shifted t => (g.symbolId? t.symbol).map fun id => "S=" ++ toString i.state ++ ", T=" ++ id
  | .reduced p => (g.productionId? p).map fun id => "S=" ++ toString i.state ++ ", P=" ++ id

end Item

/-- What a reduction has taken off the stack. -/
structure Reduction (τ : Type) where
  /-- The production. -/
  production : ProductionIdx
  /-- The items of its handles, from left to right. -/
  handles : List (Item τ)
deriving DecidableEq, Repr

/-- A reduction as diagnostics show it, given the item that was pushed for its head. -/
def Reduction.render? {τ : Type} (r : Reduction τ) (g : Grammar) (head : Item τ) :
    Option String := do
  let headText ← head.render? g
  let handleTexts ← r.handles.mapM (·.render? g)
  return "P=" ++ toString r.production ++ ", H=(" ++ headText ++ "), Hs=[" ++
    String.intercalate ", " handleTexts ++ "]"

end CompiledGrammar
