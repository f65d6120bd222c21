import CompiledGrammar.Tree.Concrete

/-!
# Simplified trees

A `SimplifiedBuilder` watches a parse and builds its tree without what a reader of the tree rarely
needs, as the rules of each production say (`TreeRules`):

* terminals with a single lexeme are left out;
* an only child takes the place of the node;
* a recursion of a production on its own head becomes one flat list;
* children that a child's own production built are merged into the node.

What is left of the handles of a reduction are its *candidates* (`SimplifiedBuilder.candidates`),
each with the production of the item it comes from.  A list stays *open* while the recursion may
still extend it: `SimplifiedBuilder.openLists` are the open ones, innermost first.  A list is
closed when it becomes a child, and at the latest when the input is accepted.
-/

namespace CompiledGrammar

/-- A handle that is not left out. -/
structure Candidate where
  /-- The production that was reduced to it, if one was. -/
  production : Option ProductionIdx
  /-- Its node. -/
  node : NodeId
deriving DecidableEq, Repr

/-- A simplified tree in the making. -/
structure SimplifiedBuilder where
  /-- The nodes. -/
  arena : Arena := {}
  /-- The lists that may still grow, innermost first. -/
  openLists : List NodeId := []
  /-- The root, once the input has been accepted. -/
  root : Option NodeId := none
deriving DecidableEq, Repr

namespace Grammar

variable (g : Grammar)

/-- Tokens of the symbol all have the same text. -/
def hasSingleLexeme (s : SymbolIdx) : Bool :=
  g.symbols[s]?.any fun s => s.kind != .nonTerminal && s.singleLexeme

/-- The production derives the symbol. -/
def derives (p : ProductionIdx) (s : SymbolIdx) : Bool :=
  g.productions[p]?.any (·.head == s)

/-- The production has no handles. -/
def isEmptyProduction (p : ProductionIdx) : Bool :=
  g.productions[p]?.any (·.handles.isEmpty)

end Grammar

namespace SimplifiedBuilder

/-! ### Candidates -/

/-- The item is a token whose text says nothing. -/
def isFixed (g : Grammar) (item : Item NodeId) : Bool :=
  item.origin.token?.any fun t => g.hasSingleLexeme t.symbol

/-- The candidates among the handles of a production.  A token that has no node yet gets one. -/
def candidates (g : Grammar) (rules : TreeRules) :
    List (Item NodeId) → Arena → List Candidate × Arena
  | [], a => ([], a)
  | item :: items, a =>
    if rules.removeSingleLexeme && isFixed g item then candidates g rules items a
    else
      match item.payload, item.origin.token? with
      | some node, _ =>
        let (cs, a) := candidates g rules items a
        (⟨item.origin.production?, node⟩ :: cs, a)
      | none, some token =>
        let (node, a) := a.allocTerm token
        let (cs, a) := candidates g rules items a
        (⟨item.origin.production?, node⟩ :: cs, a)
      | none, none => candidates g rules items a

/-! ### Open lists -/

variable (b : SimplifiedBuilder)

/-- Close a list, if the node is an open one. -/
def close (node : NodeId) : SimplifiedBuilder :=
  { b with openLists := b.openLists.erase node }

/-- Close the lists among some candidates. -/
def closeAll (cs : List Candidate) : SimplifiedBuilder :=
  cs.foldl (fun b c => b.close c.node) b

/-- Make a node for a production. -/
def allocNode (p : Production) (children : List NodeId) : NodeId × SimplifiedBuilder :=
  let (node, arena) := b.arena.allocNonterm p.index children
  (node, { b with arena })

/-- Open a list of the given candidates. -/
def openList (p : Production) (cs : List Candidate) : NodeId × SimplifiedBuilder :=
  let (node, b) := (b.closeAll cs).allocNode p (cs.map Candidate.node)
  (node, { b with openLists := node :: b.openLists })

/-- Let an open list grow on both sides. -/
def growList (list : NodeId) (before after : List Candidate) : NodeId × SimplifiedBuilder :=
  (list,
    { b with
      arena := b.arena.modifyChildren list fun children =>
        before.map Candidate.node ++ children ++ after.map Candidate.node })

/-! ### Reductions -/

/-- Continue or start a list.  The first candidate of the production's own head is the list so far:
it grows if it is the innermost open list and of this production, and is dropped if it is empty. -/
def listNode (g : Grammar) (p : Production) (cs : List Candidate) : NodeId × SimplifiedBuilder :=
  let elsewhere (c : Candidate) : Bool := !c.production.any (g.derives · p.head)
  let before := cs.takeWhile elsewhere
  match cs.dropWhile elsewhere with
  | [] => b.openList p cs
  | list :: after =>
    let b := b.closeAll (before ++ after)
    if list.production = some p.index ∧ b.openLists.head? = some list.node then
      b.growList list.node before after
    else if list.production.any g.isEmptyProduction then b.openList p (before ++ after)
    else b.openList p cs

/-- What a candidate contributes to a node of a production: itself, or its children if they are to
be merged and the candidate is what its own production made of them. -/
def contribution (a : Arena) (p : Production) (c : Candidate) : List NodeId :=
  match a.node? c.node with
  | some (.nonterm q children) =>
    if p.rules.mergeChild ∧ c.production = some q then children else [c.node]
  | _ => [c.node]

/-- Make a node of the candidates. -/
def plainNode (p : Production) (cs : List Candidate) : NodeId × SimplifiedBuilder :=
  (b.closeAll cs).allocNode p (cs.flatMap (contribution b.arena p))

/-- The node that a production makes of its candidates. -/
def reduce (g : Grammar) (p : Production) (cs : List Candidate) : NodeId × SimplifiedBuilder :=
  match p.rules.forwardChild, cs with
  | true, [c] => (c.node, b.close c.node)
  | _, _ => if p.rules.listifyRecursion then b.listNode g p cs else b.plainNode p cs

/-- Build on, after a step of the parser. -/
def onEvent (g : Grammar) : Handler SimplifiedBuilder NodeId := fun event b p =>
  match event with
  | .shift =>
    let (arena, p) := b.arena.allocShifted p
    ({ b with arena }, p)
  | .reduce =>
    match p.reduction with
    | none => (b, p)
    | some r =>
      match g.productions[r.production]? with
      | none => (b, p)
      | some production =>
        let (cs, arena) := candidates g production.rules r.handles b.arena
        let (node, b) := reduce { b with arena } g production cs
        (b, p.setPayload (some node))
  | .accept => ({ b with root := p.topPayload?, openLists := [] }, p)
  | _ => (b, p)

end SimplifiedBuilder

end CompiledGrammar
