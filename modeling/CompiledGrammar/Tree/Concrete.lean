import CompiledGrammar.Parser.Run
import CompiledGrammar.Tree.Arena

/-!
# Concrete trees

A `ConcreteBuilder` watches a parse and builds its tree as it is: a node for every token that is
shifted, and a node with one child for every handle of a production that is reduced.  Payloads of
the parser are nodes.
-/

namespace CompiledGrammar

/-- A tree in the making. -/
structure ConcreteBuilder where
  /-- The nodes. -/
  arena : Arena := {}
  /-- The root, once the input has been accepted. -/
  root : Option NodeId := none
deriving DecidableEq, Repr

/-- Make a node for the token that was just shifted. -/
def Arena.allocShifted (a : Arena) (p : Parser NodeId) : Arena × Parser NodeId :=
  match p.lookahead.token? with
  | some token =>
    let (id, a) := a.allocTerm token
    (a, p.setPayload (some id))
  | none => (a, p)

/-- The node of the topmost item. -/
def Parser.topPayload? {τ : Type} (p : Parser τ) : Option τ :=
  p.top?.bind Item.payload

/-- Build on, after a step of the parser. -/
def ConcreteBuilder.onEvent : Handler ConcreteBuilder NodeId := fun event b p =>
  match event with
  | .shift =>
    let (arena, p) := b.arena.allocShifted p
    ({ b with arena }, p)
  | .reduce =>
    match p.reduction with
    | some r =>
      let (id, arena) := b.arena.allocNonterm r.production (r.handles.filterMap Item.payload)
      ({ b with arena }, p.setPayload (some id))
    | none => (b, p)
  | .accept => ({ b with root := p.topPayload? }, p)
  | _ => (b, p)

end CompiledGrammar
