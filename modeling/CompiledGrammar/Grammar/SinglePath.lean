import CompiledGrammar.Table.Row

/-!
# States with a single path to them

A symbol that the lexical automaton accepts at the end of exactly one path is only ever matched by
characters of fixed classes at fixed places, as a keyword is.  `SinglePath.accepts` lists the
symbols of the states that exactly one path leads to, once for each such state.

A state has a second path to it exactly if some state on the way is arrived at twice: by two edges
from reachable states, or by one such edge if it is the initial state.
-/

namespace CompiledGrammar

namespace SinglePath

/-- The states that a state has edges to, one for each edge. -/
def targets (states : List DfaRow) (i : DfaStateIdx) : List DfaStateIdx :=
  match states[i]? with
  | some s => s.edges.map Edge.target
  | none => []

/-- Explore from the states of `frontier`, all of them in `seen`, for `n` rounds. -/
def explore (states : List DfaRow) : Nat → List DfaStateIdx → List DfaStateIdx →
    List DfaStateIdx
  | 0, _, seen => seen
  | n + 1, frontier, seen =>
    match (frontier.flatMap (targets states)).eraseDups.filter fun i => !seen.contains i with
    | [] => seen
    | fresh => explore states n fresh (seen ++ fresh)

/-- The states that can be reached from those of `starts`, each once.  Every round finds a new state
or is the last, so there are no more rounds than states. -/
def reachable (states : List DfaRow) (starts : List DfaStateIdx) : List DfaStateIdx :=
  explore states states.length starts.eraseDups starts.eraseDups

/-- Every arrival at a state: the start at the initial one, and every edge from a reachable one. -/
def arrivals (states : List DfaRow) (initial : DfaStateIdx) : List DfaStateIdx :=
  initial :: (reachable states [initial]).flatMap (targets states)

/-- The states that are arrived at twice, or can be reached from one that is. -/
def shared (states : List DfaRow) (initial : DfaStateIdx) : List DfaStateIdx :=
  let all := arrivals states initial
  reachable states (all.filter fun i => 1 < all.count i)

/-- The states that exactly one path leads to. -/
def singles (states : List DfaRow) (initial : DfaStateIdx) : List DfaStateIdx :=
  let several := shared states initial
  (reachable states [initial]).filter fun i => !several.contains i

/-- The symbols that states with a single path accept, once for each such state. -/
def accepts (states : List DfaRow) (initial : DfaStateIdx) : List SymbolIdx :=
  (singles states initial).filterMap fun i => states[i]?.bind DfaRow.accept

end SinglePath

end CompiledGrammar
