import CompiledGrammar.Tree.Simplified

/-!
# From input to tree

`Grammar.parse` parses a whole input and returns its tree, concrete or simplified, together with the
input that the tree's tokens refer to.  As any run it takes a bound on its steps.
-/

namespace CompiledGrammar

/-- Which tree to build. -/
inductive TreeStyle where
  /-- The tree as the grammar derives it. -/
  | concrete
  /-- The tree without what the rules of its productions leave out. -/
  | simplified
deriving DecidableEq, Repr

/-- A tree, and the input it was parsed from. -/
structure ParsedTree where
  /-- The nodes. -/
  arena : Arena
  /-- The root. -/
  root : NodeId
  /-- The input. -/
  input : Buffer
deriving DecidableEq, Repr

namespace ParsedTree

/-- The tree as text. -/
def render? (t : ParsedTree) (g : Grammar) : Option String :=
  t.arena.render? t.root g t.input

/-- The tokens of the tree, from left to right. -/
def terminals (t : ParsedTree) : List Token :=
  t.arena.terminals t.root

end ParsedTree

/-- Why an input has no tree. -/
inductive ParseTreeError where
  /-- It could not be loaded. -/
  | input (cause : InputError)
  /-- It could not be parsed. -/
  | parse (cause : ParseError)
deriving DecidableEq, Repr

/-- The text of an error. -/
def ParseTreeError.message : ParseTreeError → String
  | .input cause => cause.message
  | .parse cause => cause.message

namespace Grammar

variable (g : Grammar)

/-- Parse an input with a builder whose arena and root are found by `finish`.  A parse that accepts
without a root, as a table may have it, is an internal error. -/
def parseWith {σ : Type} (n : Nat) (handler : Handler σ NodeId) (s : σ)
    (finish : σ → Arena × Option NodeId) (input : Buffer) :
    Option (Except ParseError ParsedTree) := do
  let parser := (Parser.new g false defaultLineTerminator).load g input
  let (event, s, parser) ← parser.runWith g handler n s
  match event, parser.error with
  | .error, some e => return .error e
  | _, _ =>
    match finish s with
    | (arena, some root) => return .ok ⟨arena, root, parser.input⟩
    | (_, none) =>
      let token := parser.lookahead.token?.getD ⟨g.eofSymbol, .empty 0, .first⟩
      return .error ⟨.internal, parser.state, token⟩

/-- Parse an input in at most `n` steps. -/
def parse (n : Nat) (style : TreeStyle) (input : Buffer) :
    Option (Except ParseError ParsedTree) :=
  match style with
  | .concrete => g.parseWith n ConcreteBuilder.onEvent {} (fun b => (b.arena, b.root)) input
  | .simplified =>
    g.parseWith n (SimplifiedBuilder.onEvent g) {} (fun b => (b.arena, b.root)) input

/-- Parse an input that may have failed to load. -/
def parseLoaded (n : Nat) (style : TreeStyle) (input : Except InputError Buffer) :
    Option (Except ParseTreeError ParsedTree) :=
  match input with
  | .error cause => some (.error (.input cause))
  | .ok input => (g.parse n style input).map fun result => result.mapError .parse

end Grammar

end CompiledGrammar
