import CompiledGrammar.Tree.Concrete

/-!
# Evaluation

An `Evaluator` watches a parse and computes a value instead of a tree.  Each production may have an
action, which makes a value of the items of its handles; without one, a production passes on the
value of its first handle.  Tokens have no value: an action reads their text from the input.
-/

namespace CompiledGrammar

/-- What to do with the handles of a reduction: the value of the head, and the handles as they are
left behind. -/
abbrev Evaluate (τ : Type) := List (Item τ) → Buffer → τ × List (Item τ)

/-- The actions of productions, and the value of the last accepted input. -/
structure Evaluator (τ : Type) where
  /-- The actions, the latest first. -/
  actions : List (ProductionIdx × Evaluate τ) := []
  /-- The value of the accepted input. -/
  result : Option τ := none

namespace Evaluator

variable {τ : Type}

/-- The action of a production: the one set last. -/
def action? (ev : Evaluator τ) (p : ProductionIdx) : Option (Evaluate τ) :=
  ev.actions.lookup p

/-- Set the action of a production. -/
def setAction (ev : Evaluator τ) (p : ProductionIdx) (f : Evaluate τ) : Evaluator τ :=
  { ev with actions := (p, f) :: ev.actions }

/-- Set the action of the production with an identifier, if the grammar has one. -/
def setActionById? (ev : Evaluator τ) (g : Grammar) (id : String) (f : Evaluate τ) :
    Option (Evaluator τ) :=
  (g.productionIdx? id).map fun p => ev.setAction p f

/-- Pass on the value of the first handle, which loses it. -/
def forwardFirst : List (Item τ) → Option τ × List (Item τ)
  | [] => (none, [])
  | item :: items => (item.payload, { item with payload := none } :: items)

/-- The value of a head, and the handles as they are left behind. -/
def evaluate (ev : Evaluator τ) (r : Reduction τ) (input : Buffer) : Option τ × List (Item τ) :=
  match ev.action? r.production with
  | some f =>
    let (value, handles) := f r.handles input
    (some value, handles)
  | none => forwardFirst r.handles

/-- Evaluate on, after a step of the parser. -/
def onEvent : Handler (Evaluator τ) τ := fun event ev p =>
  match event with
  | .reduce =>
    match p.reduction with
    | some r =>
      let (value, handles) := ev.evaluate r p.input
      (ev, { p with reduction := some { r with handles } }.setPayload value)
    | none => (ev, p)
  | .accept => ({ ev with result := p.topPayload? }, p.setPayload none)
  | _ => (ev, p)

end Evaluator

end CompiledGrammar
