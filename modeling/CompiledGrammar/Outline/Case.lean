import CompiledGrammar.Outline.Basic

/-!
# Test cases

A `Case` is an input and what parsing it should come to: a tree, given as an outline, or errors,
given as their texts.  What it should come to may be left open.

Cases are written as a list of `TestSuccess(input: "…", tree: …)` and `TestError(input: "…", errors:
[…])`, where the second field is optional (`Case.readAll?`).
-/

namespace CompiledGrammar

/-- What an input should come to. -/
inductive Expectation where
  /-- It is accepted, with the given tree if there is one. -/
  | success (tree : Option Outline)
  /-- It is refused, with the given errors if there are any. -/
  | failure (errors : Option (List String))
deriving BEq, Repr

/-- An input and what it should come to. -/
structure Case where
  /-- The input. -/
  input : String
  /-- What it should come to. -/
  expectation : Expectation
deriving BEq, Repr

namespace Case

/-- The input should be accepted. -/
def shouldPass (c : Case) : Bool :=
  match c.expectation with
  | .success _ => true
  | .failure _ => false

/-! ### Reading -/

/-- Read the rest of an optional value after `Some`: a value in brackets, or bare if that is
allowed. -/
def some? {α : Type} (implicit : Bool) (value? : List Char → Option (α × List Char))
    (cs : List Char) : Option (α × List Char) := do
  let cs ← Literal.skipBlanks cs
  match Literal.mark? '(' cs with
  | some rest =>
    let rest ← Literal.skipBlanks rest
    let (value, rest) ← value? rest
    let (_, rest) ← Literal.comma? rest
    let rest ← Literal.mark? ')' rest
    return (value, rest)
  | none => if implicit then value? cs else none

/-- Read an optional value: `None`, or `Some` and a value, where `Some` may be left out if a bare
value is allowed.  Neither word needs anything to end it. -/
def option? {α : Type} (implicit : Bool) (value? : List Char → Option (α × List Char))
    (cs : List Char) : Option (Option α × List Char) :=
  match Literal.word? "None" cs, Literal.word? "Some" cs with
  | some rest, _ => some (none, rest)
  | none, some rest => (some? implicit value? rest).map fun (value, rest) => (some value, rest)
  | none, none =>
    if implicit then (value? cs).map fun (value, rest) => (some value, rest) else none

/-- Read items up to a closing bracket, in at most `n` steps.  Only after a comma may there be
another. -/
def sequence? {α : Type} (item? : List Char → Option (α × List Char)) (closing : Char)
    (hadComma : Bool) : Nat → List Char → Option (List α × List Char)
  | 0, _ => none
  | n + 1, cs => do
    let cs ← Literal.skipBlanks cs
    match Literal.mark? closing cs with
    | some rest => return ([], rest)
    | none =>
      if hadComma then
        let (item, rest) ← item? cs
        let (hasComma, rest) ← Literal.comma? rest
        let (items, rest) ← sequence? item? closing hasComma n rest
        return (item :: items, rest)
      else none

/-- Read a list. -/
def list? {α : Type} (item? : List Char → Option (α × List Char)) (cs : List Char) :
    Option (List α × List Char) := do
  let rest ← Literal.mark? '[' cs
  sequence? item? ']' true (rest.length + 1) rest

/-- A field of a case. -/
inductive Field where
  /-- The input. -/
  | input (text : String)
  /-- What it should come to. -/
  | outcome (expectation : Expectation)

/-- How deep the tree of a case may go.  The list of cases, the case and the option around the tree
each take two from the limit. -/
def treeLimit : Nat := Outline.nestingLimit - 6

/-- Read what a case of the kind named should come to, if the name of the field fits. -/
def outcome? (implicit : Bool) (kind field : String) (cs : List Char) :
    Option (Expectation × List Char) :=
  if kind = "TestSuccess" ∧ field = "tree" then
    (option? implicit (Outline.readAt? treeLimit) cs).map fun (tree, rest) =>
      (.success tree, rest)
  else if kind = "TestError" ∧ field = "errors" then
    (option? implicit (list? Literal.text?) cs).map fun (errors, rest) => (.failure errors, rest)
  else none

/-- Read a field: its name, a colon and its value. -/
def field? (implicit : Bool) (kind : String) (cs : List Char) : Option (Field × List Char) := do
  let (name, rest) ← Literal.name? cs
  let rest ← Literal.skipBlanks rest
  let rest ← Literal.mark? ':' rest
  let rest ← Literal.skipBlanks rest
  if name = "input" then
    let (text, rest) ← Literal.text? rest
    return (.input text, rest)
  else
    let (expectation, rest) ← outcome? implicit kind name rest
    return (.outcome expectation, rest)

/-- What a case of the kind named comes to if nothing is said. -/
def openOutcome? (kind : String) : Option Expectation :=
  if kind = "TestSuccess" then some (.success none)
  else if kind = "TestError" then some (.failure none)
  else none

/-- The case with some fields: one input, and at most one outcome. -/
def ofFields? (unsaid : Expectation) : List Field → Option Case
  | [.input text] => some ⟨text, unsaid⟩
  | [.input text, .outcome e] => some ⟨text, e⟩
  | [.outcome e, .input text] => some ⟨text, e⟩
  | _ => none

/-- Read a case.  It has at most two fields, so three steps take it to its closing bracket. -/
def read? (implicit : Bool) (cs : List Char) : Option (Case × List Char) := do
  let (kind, rest) ← Literal.name? cs
  let unsaid ← openOutcome? kind
  let rest ← Literal.skipBlanks rest
  let rest ← Literal.mark? '(' rest
  let (fields, rest) ← sequence? (field? implicit kind) ')' true 3 rest
  let case ← ofFields? unsaid fields
  return (case, rest)

/-- Read a list of cases. -/
def readAll? (s : String) : Option (List Case) :=
  Outline.document? (fun implicit cs => list? (read? implicit) cs) s

end Case

end CompiledGrammar
