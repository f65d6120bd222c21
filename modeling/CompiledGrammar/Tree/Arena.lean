import CompiledGrammar.Lexer.Token

/-!
# Arenas

An `Arena` stores the nodes of parse trees.  A node is known by its number, and refers to its
children by theirs; nothing is ever removed.

`Arena.preorder` visits the nodes below some others, parents first and children from left to right,
with a list of the nodes still to visit.  `Arena.terminals` and `Arena.render?` read off a tree what
is at its leaves and how it looks.  A walk goes no deeper than there are nodes: what lies deeper
would lie below itself.
-/

namespace CompiledGrammar

/-- The number of a node. -/
abbrev NodeId := Nat

/-- A node of a parse tree. -/
inductive Node where
  /-- A token of the input. -/
  | term (token : Token)
  /-- What a production was reduced to. -/
  | nonterm (production : ProductionIdx) (children : List NodeId)
deriving DecidableEq, Repr

/-- The children of a node. -/
def Node.children : Node → List NodeId
  | term _ => []
  | nonterm _ children => children

/-- The same node with other children, if it has any at all. -/
def Node.mapChildren (f : List NodeId → List NodeId) : Node → Node
  | term t => term t
  | nonterm p children => nonterm p (f children)

/-- A store of nodes. -/
structure Arena where
  /-- The nodes, by their numbers. -/
  nodes : Array Node := #[]
deriving DecidableEq, Repr

namespace Arena

variable (a : Arena)

/-- How many nodes there are. -/
def size : Nat := a.nodes.size

/-- There are no nodes. -/
def isEmpty : Bool := a.nodes.isEmpty

/-- The node with a number. -/
def node? (id : NodeId) : Option Node := a.nodes[id]?

/-- Add a node, which gets the next number. -/
def alloc (node : Node) : NodeId × Arena :=
  (a.nodes.size, ⟨a.nodes.push node⟩)

/-- Add a node for a token. -/
def allocTerm (token : Token) : NodeId × Arena :=
  a.alloc (.term token)

/-- Add a node for a production. -/
def allocNonterm (production : ProductionIdx) (children : List NodeId) : NodeId × Arena :=
  a.alloc (.nonterm production children)

/-- Change the children of a node. -/
def modifyChildren (id : NodeId) (f : List NodeId → List NodeId) : Arena :=
  ⟨a.nodes.modify id (Node.mapChildren f)⟩

/-! ### Walks -/

/-- How many times nodes are referred to as children. -/
def links : Nat := a.nodes.toList.foldr (fun n total => n.children.length + total) 0

theorem length_children_le_links {id : NodeId} {n : Node} (h : a.node? id = some n) :
    n.children.length ≤ a.links := by
  have hmem : n ∈ a.nodes.toList := by
    rw [← Array.mem_def]
    exact Array.mem_of_getElem? h
  unfold links
  generalize a.nodes.toList = nodes at hmem
  induction nodes with
  | nil => cases hmem
  | cons m nodes ih =>
    simp only [List.foldr_cons]
    rcases List.mem_cons.1 hmem with rfl | hmem
    · omega
    · have := ih hmem
      omega

/-- A bound on the length of a walk from a node at some depth. -/
def weight (depth : Nat) : Nat := Nat.pow (a.links + 1) (a.size + 1 - depth)

/-- What to visit below a node at some depth. -/
def below (depth : Nat) (n : Node) : List (Nat × NodeId) :=
  if depth < a.size then n.children.map fun child => (depth + 1, child) else []

theorem weight_pos (depth : Nat) : 0 < a.weight depth :=
  Nat.pow_pos (Nat.succ_pos _)

/-- A bound on the length of a walk from all the nodes still to visit. -/
def cost (todo : List (Nat × NodeId)) : Nat :=
  todo.foldr (fun v total => a.weight v.1 + total) 0

@[simp] theorem cost_cons (v : Nat × NodeId) (todo : List (Nat × NodeId)) :
    a.cost (v :: todo) = a.weight v.1 + a.cost todo := rfl

@[simp] theorem cost_append (vs todo : List (Nat × NodeId)) :
    a.cost (vs ++ todo) = a.cost vs + a.cost todo := by
  induction vs with
  | nil => simp [cost]
  | cons v vs ih => simp only [List.cons_append, cost_cons, ih, Nat.add_assoc]

theorem cost_map (depth : Nat) (ids : List NodeId) :
    a.cost (ids.map fun id => (depth, id)) = ids.length * a.weight depth := by
  induction ids with
  | nil => simp [cost]
  | cons id ids ih =>
    rw [List.map_cons, cost_cons, ih, List.length_cons, Nat.succ_mul, Nat.add_comm]

theorem cost_below {id : NodeId} {n : Node} (h : a.node? id = some n) (depth : Nat) :
    a.cost (a.below depth n) < a.weight depth := by
  unfold below
  split
  · rename_i hlt
    have hlen := a.length_children_le_links h
    have hpow : a.weight depth = (a.links + 1) * a.weight (depth + 1) := by
      unfold weight
      rw [show a.size + 1 - depth = (a.size + 1 - (depth + 1)) + 1 by omega]
      exact Nat.mul_comm _ _
    rw [cost_map, hpow]
    exact Nat.mul_lt_mul_of_pos_right (by omega) (a.weight_pos _)
  · exact a.weight_pos depth

/-- The nodes to visit and all nodes below them, each with its depth. -/
def preorder (todo : List (Nat × NodeId)) : List (Nat × Node) :=
  match todo with
  | [] => []
  | (depth, id) :: todo =>
    match _h : a.node? id with
    | none => preorder todo
    | some n => (depth, n) :: preorder (a.below depth n ++ todo)
termination_by a.cost todo
decreasing_by
  · have := a.weight_pos depth
    simp only [cost_cons]
    omega
  · have := a.cost_below _h depth
    simp only [cost_append, cost_cons]
    omega

/-- The tokens below a node, from left to right. -/
def terminals (root : NodeId) : List Token :=
  (a.preorder [(0, root)]).filterMap fun
    | (_, .term t) => some t
    | (_, .nonterm _ _) => none

/-- A node as one line: the token, or the identifier of the production. -/
def renderNode? (g : Grammar) (input : Buffer) : Node → Option String
  | .term t => t.render? g input
  | .nonterm p _ => g.productionId? p

/-- A tree as text, one line for each node, indented by its depth. -/
def render? (root : NodeId) (g : Grammar) (input : Buffer) : Option String := do
  let lines ← (a.preorder [(0, root)]).mapM fun (depth, n) =>
    (renderNode? g input n).map fun text => String.ofList (List.replicate depth ' ') ++ text ++ "\n"
  return String.join lines

end Arena

end CompiledGrammar
