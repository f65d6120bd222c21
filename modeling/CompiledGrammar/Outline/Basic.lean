import CompiledGrammar.Outline.Literal

/-!
# Outlines of trees

An `Outline` is a tree in a form that is easy to write by hand: a leaf is written
`("symbol", "lexeme")` and a branch `("production", [outlines])`.

* `Outline.write?` writes an outline, one child to a line.
* `Outline.read?` reads one.  It is lenient where the meaning is plain: any bracketed sequence,
  named or not, may stand for another, commas may trail, and there may be comments.

Both refuse outlines that go deeper than `nestingLimit`.
-/

namespace CompiledGrammar

/-- A tree of texts. -/
inductive Outline where
  /-- A token: the identifier of its symbol, and its text. -/
  | leaf (symbol lexeme : String)
  /-- A node: the identifier of its production, and its children. -/
  | branch (production : String) (children : List Outline)
deriving BEq, Repr

namespace Outline

/-- How deep an outline may go: a pair of brackets takes it one deeper, and an item in them another
one. -/
def nestingLimit : Nat := 128

/-- The attribute that lets optional fields go without a wrapper. -/
def implicitOptions : String := "implicit_some"

/-! ### Writing -/

/-- The blanks before a line at some depth. -/
def indent (depth : Nat) : String :=
  String.ofList (List.replicate (4 * depth) ' ')

mutual

/-- How deep an outline goes. -/
def nesting : Outline → Nat
  | leaf _ _ => 2
  | branch _ children => 3 + nestingAll children

/-- How deep the items of a list go. -/
def nestingAll : List Outline → Nat
  | [] => 0
  | o :: os => max (1 + o.nesting) (nestingAll os)

end

mutual

/-- The text of an outline whose first line is indented already. -/
def render (depth : Nat) : Outline → String
  | leaf symbol lexeme => "(" ++ Literal.quote symbol ++ ", " ++ Literal.quote lexeme ++ ")"
  | branch production [] => "(" ++ Literal.quote production ++ ", [])"
  | branch production (o :: os) =>
    "(" ++ Literal.quote production ++ ", [\n" ++ renderAll (depth + 1) (o :: os) ++ indent depth ++
      "])"

/-- The lines of several outlines. -/
def renderAll (depth : Nat) : List Outline → String
  | [] => ""
  | o :: os => indent depth ++ render depth o ++ ",\n" ++ renderAll depth os

end

/-- The text of an outline, after a line with the attribute. -/
def write? (o : Outline) : Option String :=
  if o.nesting ≤ nestingLimit then
    some ("#![enable(" ++ implicitOptions ++ ")]\n" ++ o.render 0)
  else none

/-! ### Reading -/

/-- What brackets and texts say before their meaning is known. -/
inductive Datum where
  /-- A text. -/
  | text (s : String)
  /-- A sequence in brackets. -/
  | list (items : List Datum)
deriving Repr

/-- Names that stand for values of their own and, unless they are marked, cannot name a sequence. -/
def reservedNames : List String := ["true", "false", "Some", "None", "inf", "NaN"]

/-- The characters start with a reserved name. -/
def startsReserved (cs : List Char) : Bool :=
  (Literal.plainName? cs).any fun (name, _) => reservedNames.contains name

mutual

/-- Read a datum that goes at most `depth` deep, in at most `n` steps. -/
def datum? (depth : Nat) : Nat → List Char → Option (Datum × List Char)
  | 0, _ => none
  | n + 1, cs =>
    if Literal.startsText cs then
      (Literal.text? cs).map fun (s, rest) => (.text s, rest)
    else
      match cs with
      | '(' :: ')' :: _ => none
      | '(' :: rest => list? depth ')' n rest
      | '[' :: rest => list? depth ']' n rest
      | _ =>
        if startsReserved cs then none
        else do
          let (_, rest) ← Literal.name? cs
          let rest ← Literal.skipBlanks rest
          let rest ← Literal.mark? '(' rest
          list? depth ')' n rest

/-- Read a list after its opening bracket. -/
def list? (depth : Nat) (closing : Char) : Nat → List Char → Option (Datum × List Char)
  | 0, _ => none
  | n + 1, cs =>
    match depth with
    | 0 => none
    | depth + 1 => (items? depth closing true n cs).map fun (items, rest) => (.list items, rest)

/-- Read the items of a list up to its closing bracket.  Only after a comma may there be another. -/
def items? (depth : Nat) (closing : Char) (hadComma : Bool) :
    Nat → List Char → Option (List Datum × List Char)
  | 0, _ => none
  | n + 1, cs => do
    let cs ← Literal.skipBlanks cs
    match Literal.mark? closing cs with
    | some rest => return ([], rest)
    | none =>
      if hadComma ∧ 0 < depth then
        let (item, rest) ← datum? (depth - 1) n cs
        let (hasComma, rest) ← Literal.comma? rest
        let (items, rest) ← items? depth closing hasComma n rest
        return (item :: items, rest)
      else none

end

/-- A bound on the steps of reading a text: each character is looked at in at most four. -/
def steps (cs : List Char) : Nat := 4 * cs.length + 4

mutual

/-- The outline that a datum stands for: a pair of texts is a leaf, a text and a list a branch. -/
def ofDatum? : Datum → Option Outline
  | .list [.text symbol, .text lexeme] => some (leaf symbol lexeme)
  | .list [.text production, .list items] => (ofData? items).map (branch production)
  | _ => none

/-- The outlines that several data stand for. -/
def ofData? : List Datum → Option (List Outline)
  | [] => some []
  | d :: ds => do
    let o ← ofDatum? d
    let os ← ofData? ds
    return o :: os

end

/-- Read an outline that goes at most `depth` deep. -/
def readAt? (depth : Nat) (cs : List Char) : Option (Outline × List Char) := do
  let (d, rest) ← datum? depth (steps cs) cs
  let o ← ofDatum? d
  return (o, rest)

/-! ### Attributes -/

/-- The names of known attributes. -/
def attributeNames : List String :=
  ["unwrap_newtypes", implicitOptions, "unwrap_variant_newtypes"]

/-- Read the names of an attribute, at most `n` of them. -/
def attributeNames? : Nat → List Char → Option (List String × List Char)
  | 0, _ => none
  | n + 1, cs => do
    let (name, rest) ← Literal.name? cs
    if attributeNames.contains name then
      let (hasComma, rest) ← Literal.comma? rest
      if hasComma && rest.head?.any Literal.isNameRest then
        let (names, rest) ← attributeNames? n rest
        return (name :: names, rest)
      else return ([name], rest)
    else none

/-- Read an attribute, after its number sign. -/
def attribute? (cs : List Char) : Option (List String × List Char) := do
  let cs ← ["!", "[", "enable", "("].foldlM
    (fun cs w => (Literal.word? w cs).bind Literal.skipBlanks) (← Literal.skipBlanks cs)
  let (names, cs) ← attributeNames? (cs.length + 1) cs
  let cs ← [")", "]"].foldlM (fun cs w => (Literal.word? w cs).bind Literal.skipBlanks)
    (← Literal.skipBlanks cs)
  return (names, cs)

/-- Read the attributes at the start of a text, at most `n` of them. -/
def attributes? : Nat → List Char → Option (List String × List Char)
  | 0, cs => some ([], cs)
  | n + 1, cs => do
    let cs ← Literal.skipBlanks cs
    match cs with
    | '#' :: rest =>
      let (names, rest) ← attribute? rest
      let (more, rest) ← attributes? n rest
      return (names ++ more, rest)
    | _ => return ([], cs)

/-- Read a whole text: attributes, what `content?` reads, and nothing more. -/
def document? {α : Type} (content? : Bool → List Char → Option (α × List Char)) (s : String) :
    Option α := do
  let cs := s.toList
  let (names, cs) ← attributes? (cs.length + 1) cs
  let (content, cs) ← content? (names.contains implicitOptions) cs
  let cs ← Literal.skipBlanks cs
  if cs.isEmpty then return content else none

/-- Read an outline. -/
def read? (s : String) : Option Outline :=
  document? (fun _ cs => readAt? nestingLimit cs) s

end Outline

end CompiledGrammar
