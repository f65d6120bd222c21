import CompiledGrammar.Table.Row

/-!
# Transitions of the lexical automaton

The edges of a state name character sets.  Scanning needs the reverse: where a given character
leads.  A `Lookup` answers that from two tables that are derived from the edges once
(`Lookup.ofState`): one entry for each ASCII character, and a list of ranges, sorted by their
first code point, for all others.

Where edges overlap the later one wins on ASCII.  Beyond ASCII only the last range that starts at or
before a code point is consulted, so edges should not overlap there.
-/

namespace CompiledGrammar

/-- Where the automaton goes on a character. -/
inductive Transition where
  /-- To another state. -/
  | goto (state : DfaStateIdx)
  /-- Nowhere: the scan stops. -/
  | dead
  /-- Back to the same state, which accepts. -/
  | acceptLoop
  /-- Back to the same state, which does not accept. -/
  | loop
deriving DecidableEq, Repr

/-- A transition for all code points from `first` to `last`. -/
structure TransitionRange where
  /-- The first code point. -/
  first : Nat
  /-- The last code point. -/
  last : Nat
  /-- Where they lead. -/
  target : Transition
deriving DecidableEq, Repr

/-- The number of code points that have an entry of their own. -/
def asciiSize : Nat := 0x80

/-- The transitions of one state. -/
structure Lookup where
  /-- The entries of the ASCII characters. -/
  ascii : Array Transition
  /-- The ranges beyond ASCII, sorted by their first code point. -/
  ranges : List TransitionRange
deriving DecidableEq, Repr

namespace Lookup

/-- Where a code point leads. -/
def transition (l : Lookup) (c : Nat) : Transition :=
  match l.ascii[c]? with
  | some t => t
  | none =>
    match (l.ranges.takeWhile (·.first ≤ c)).getLast? with
    | some r => if c ≤ r.last then r.target else .dead
    | none => .dead

/-! ### From edges -/

/-- Where an edge of a state leads. -/
def edgeTransition (s : DfaRow) (e : Edge) : Transition :=
  if e.target = s.index then if s.accept.isSome then .acceptLoop else .loop
  else .goto e.target

/-- The ranges of the edges of a state, in order, without those that run backwards. -/
def edgeRanges (charset : CharSetIdx → List CodeRange) (s : DfaRow) : List TransitionRange :=
  s.edges.flatMap fun e =>
    ((charset e.charset).filter fun r => r.first ≤ r.last).map fun r =>
      ⟨r.first.toNat, r.last.toNat, edgeTransition s e⟩

/-- Set the entries of a range. -/
def paint (table : Array Transition) (r : TransitionRange) : Array Transition :=
  table.mapIdx fun c t => if r.first ≤ c ∧ c ≤ r.last then r.target else t

/-- The part of a range beyond ASCII, if there is one. -/
def beyondAscii (r : TransitionRange) : Option TransitionRange :=
  if asciiSize ≤ r.last then some { r with first := max r.first asciiSize } else none

/-- Insert a range after those that start no later. -/
def insertRange (r : TransitionRange) : List TransitionRange → List TransitionRange
  | [] => [r]
  | s :: rest => if s.first ≤ r.first then s :: insertRange r rest else r :: s :: rest

/-- Sort ranges by their first code point; those that start together stay in order. -/
def sortRanges (ranges : List TransitionRange) : List TransitionRange :=
  ranges.foldl (fun sorted r => insertRange r sorted) []

/-- The tables of a state, given the members of each character set. -/
def ofState (charset : CharSetIdx → List CodeRange) (s : DfaRow) : Lookup :=
  let ranges := edgeRanges charset s
  { ascii := ranges.foldl paint (Array.replicate asciiSize .dead)
    ranges := sortRanges (ranges.filterMap beyondAscii) }

end Lookup

end CompiledGrammar
