import CompiledGrammar.Parser.Basic
import CompiledGrammar.Tree.Arena
import Mathlib.Data.List.Forall2

/-!
# Derivation trees

A `Tree` is the tree of a parse as a value of its own, free of the numbers under which an arena
stores its nodes.

* `Tree.IsDerivation` says that every node is an application of its production;
* `Grammar.Sentence` are the sequences of tokens at the leaves of such trees;
* `Arena.Represents` says that an arena holds a tree at a node.  What an arena holds at a node is
  unique (`Arena.Represents.unique`), and stays the same as long as no node below it is changed
  (`Arena.Represents.congr`).
-/

namespace CompiledGrammar

/-- The tree of a parse. -/
inductive Tree where
  /-- A token of the input. -/
  | leaf (token : Token)
  /-- What a production was reduced to. -/
  | node (production : ProductionIdx) (children : List Tree)
deriving Repr

/-- The symbol that an item stands for, if it stands for one of the grammar. -/
def Origin.symbol? (g : Grammar) : Origin → Option SymbolIdx
  | bottom => none
  | shifted t => some t.symbol
  | reduced p => g.productions[p]?.map (·.head)

namespace Tree

/-- Induction over a tree, with the hypothesis for all children of a node. -/
@[induction_eliminator]
theorem inductionOn {P : Tree → Prop} (leaf : ∀ token, P (.leaf token))
    (node : ∀ p children, (∀ c ∈ children, P c) → P (.node p children)) (t : Tree) : P t := by
  refine @Tree.rec P (fun cs => ∀ c ∈ cs, P c) leaf node ?_ ?_ t
  · intro c hc
    cases hc
  · intro c cs hc hcs d hd
    rcases List.mem_cons.1 hd with rfl | hd
    · exact hc
    · exact hcs d hd

/-- How the item of a tree came onto the stack. -/
def origin : Tree → Origin
  | leaf t => .shifted t
  | node p _ => .reduced p

/-- The symbol at the root of a tree. -/
def symbol? (g : Grammar) (t : Tree) : Option SymbolIdx := t.origin.symbol? g

mutual

/-- The tokens at the leaves, from left to right. -/
def leaves : Tree → List Token
  | leaf t => [t]
  | node _ children => leavesAll children

/-- The tokens at the leaves of some trees. -/
def leavesAll : List Tree → List Token
  | [] => []
  | c :: cs => c.leaves ++ leavesAll cs

end

@[simp] theorem leaves_leaf (t : Token) : (leaf t).leaves = [t] := by
  simp only [leaves]

@[simp] theorem leaves_node (p : ProductionIdx) (children : List Tree) :
    (node p children).leaves = children.flatMap leaves := by
  simp only [leaves]
  induction children with
  | nil => rfl
  | cons c cs ih => simp only [leavesAll, ih, List.flatMap_cons]

theorem symbol?_leaf (g : Grammar) (t : Token) : (leaf t).symbol? g = some t.symbol := rfl

theorem symbol?_node {g : Grammar} {i : ProductionIdx} {p : Production} {children : List Tree}
    (hp : g.productions[i]? = some p) : (node i children).symbol? g = some p.head := by
  simp only [symbol?, origin, Origin.symbol?, hp, Option.map_some]

/-- Every node of the tree is an application of its production: the symbols at the roots of its
children are the handles. -/
inductive IsDerivation (g : Grammar) : Tree → Prop where
  /-- A token is derived from its own symbol. -/
  | leaf (token : Token) : IsDerivation g (.leaf token)
  /-- A production derives its head from its handles. -/
  | node {p : ProductionIdx} {production : Production} {children : List Tree} :
      g.productions[p]? = some production →
      children.map (symbol? g) = production.handles.map some →
      (∀ c ∈ children, IsDerivation g c) → IsDerivation g (.node p children)

end Tree

/-- The tokens are the leaves of a tree that the grammar derives from the symbol. -/
def Grammar.Sentence (g : Grammar) (start : SymbolIdx) (tokens : List Token) : Prop :=
  ∃ t : Tree, t.IsDerivation g ∧ t.symbol? g = some start ∧ t.leaves = tokens

/-! ### Trees in an arena -/

namespace Arena

variable {a b : Arena}

mutual

/-- The arena holds the tree at the node. -/
def Represents (a : Arena) (id : NodeId) : Tree → Prop
  | .leaf t => a.node? id = some (.term t)
  | .node p children => ∃ ids, a.node? id = some (.nonterm p ids) ∧ RepresentsAll a ids children

/-- The arena holds the trees at the nodes. -/
def RepresentsAll (a : Arena) : List NodeId → List Tree → Prop
  | ids, [] => ids = []
  | ids, c :: cs => ∃ id rest, ids = id :: rest ∧ Represents a id c ∧ RepresentsAll a rest cs

end

theorem representsAll_iff {ids : List NodeId} {ts : List Tree} :
    RepresentsAll a ids ts ↔ List.Forall₂ a.Represents ids ts := by
  induction ts generalizing ids with
  | nil => simp [RepresentsAll]
  | cons t ts ih =>
    simp only [RepresentsAll, ih, List.forall₂_cons_right_iff]
    constructor
    · rintro ⟨id, rest, rfl, h, hrest⟩
      exact ⟨id, rest, h, hrest, rfl⟩
    · rintro ⟨id, rest, h, hrest, rfl⟩
      exact ⟨id, rest, rfl, h, hrest⟩

@[simp] theorem represents_leaf {id : NodeId} {t : Token} :
    a.Represents id (.leaf t) ↔ a.node? id = some (.term t) := by
  simp only [Represents]

@[simp] theorem represents_node {id : NodeId} {p : ProductionIdx} {children : List Tree} :
    a.Represents id (.node p children) ↔
      ∃ ids, a.node? id = some (.nonterm p ids) ∧ List.Forall₂ a.Represents ids children := by
  simp only [Represents, representsAll_iff]

namespace Represents

theorem unique {id : NodeId} {t u : Tree} (ht : a.Represents id t) (hu : a.Represents id u) :
    t = u := by
  induction t generalizing id u with
  | leaf token =>
    rw [represents_leaf] at ht
    cases u with
    | leaf token' =>
      rw [represents_leaf, ht] at hu
      cases hu; rfl
    | node p children =>
      obtain ⟨ids, hnode, -⟩ := represents_node.1 hu
      rw [ht] at hnode; cases hnode
  | node p children ih =>
    obtain ⟨ids, hnode, hchildren⟩ := represents_node.1 ht
    cases u with
    | leaf token => rw [represents_leaf, hnode] at hu; cases hu
    | node q children' =>
      obtain ⟨ids', hnode', hchildren'⟩ := represents_node.1 hu
      rw [hnode] at hnode'
      cases hnode'
      -- the children are the same one after the other
      congr 1
      clear hnode ht hu
      induction hchildren generalizing children' with
      | nil => cases hchildren'; rfl
      | cons hc _ ihcs =>
        cases hchildren' with
        | cons hc' hcs' =>
          rw [ih _ List.mem_cons_self hc hc']
          rw [ihcs (fun c hmem => ih c (List.mem_cons_of_mem _ hmem)) _ hcs']

theorem lt_size {id : NodeId} {t : Tree} (h : a.Represents id t) : id < a.size := by
  have hsome : ∃ n, a.node? id = some n := by
    cases t with
    | leaf token => exact ⟨_, represents_leaf.1 h⟩
    | node p children =>
      obtain ⟨ids, hnode, -⟩ := represents_node.1 h
      exact ⟨_, hnode⟩
  obtain ⟨n, hn⟩ := hsome
  exact (Array.getElem?_eq_some_iff.1 hn).1

/-- A tree is still there if all nodes of a set that it lies in are. -/
theorem congr {S : NodeId → Prop} {id : NodeId} {t : Tree} (h : a.Represents id t)
    (hS : ∀ i n, S i → a.node? i = some n → b.node? i = some n ∧ ∀ c ∈ n.children, S c)
    (hid : S id) : b.Represents id t := by
  induction t generalizing id with
  | leaf token =>
    rw [represents_leaf] at h ⊢
    exact (hS id _ hid h).1
  | node p children ih =>
    obtain ⟨ids, hnode, hchildren⟩ := represents_node.1 h
    obtain ⟨hnode', hin⟩ := hS id _ hid hnode
    refine represents_node.2 ⟨ids, hnode', ?_⟩
    -- the set goes on to the children, where the hypotheses for them take over
    replace hin : ∀ c ∈ ids, S c := hin
    clear hnode hnode' h
    induction hchildren with
    | nil => exact .nil
    | cons hc _ ihcs =>
      refine .cons (ih _ List.mem_cons_self hc (hin _ List.mem_cons_self)) ?_
      exact ihcs (fun c hmem => ih c (List.mem_cons_of_mem _ hmem))
        fun c hmem => hin c (List.mem_cons_of_mem _ hmem)

end Represents

theorem lt_size_of_mem {ids : List NodeId} {ts : List Tree}
    (h : List.Forall₂ a.Represents ids ts) {id : NodeId} (hid : id ∈ ids) : id < a.size := by
  induction h with
  | nil => cases hid
  | cons hfirst _ ih =>
    rcases List.mem_cons.1 hid with rfl | hid
    · exact hfirst.lt_size
    · exact ih hid

/-! ### Allocation -/

theorem node?_alloc_of_lt {n : Node} {id : NodeId} (h : id < a.size) :
    (a.alloc n).2.node? id = a.node? id :=
  Array.getElem?_push_lt h |>.trans (Array.getElem?_eq_getElem h).symm

@[simp] theorem node?_alloc_self {n : Node} : (a.alloc n).2.node? (a.alloc n).1 = some n :=
  Array.getElem?_push_size

theorem node?_alloc {n m : Node} {id : NodeId} (h : (a.alloc n).2.node? id = some m) :
    a.node? id = some m ∨ (id = a.size ∧ m = n) := by
  simp only [node?, alloc, Array.getElem?_push] at h
  split at h
  · rename_i hid
    cases h
    exact Or.inr ⟨hid, rfl⟩
  · exact Or.inl h

theorem size_le_alloc (a : Arena) (n : Node) : a.size ≤ (a.alloc n).2.size := by
  simp only [size, alloc, Array.size_push]
  exact Nat.le_succ _

theorem fst_alloc_lt_size (a : Arena) (n : Node) : (a.alloc n).1 < (a.alloc n).2.size := by
  simp only [size, alloc, Array.size_push]
  exact Nat.lt_succ_self _

/-- A new node changes no tree. -/
theorem Represents.alloc {id : NodeId} {t : Tree} (h : a.Represents id t) (n : Node) :
    (a.alloc n).2.Represents id t := by
  refine h.congr (S := fun _ => True) (fun i m _ hm => ⟨?_, fun _ _ => trivial⟩) trivial
  rw [node?_alloc_of_lt (Array.getElem?_eq_some_iff.1 hm).1, hm]

theorem represents_allocTerm (t : Token) :
    (a.allocTerm t).2.Represents (a.allocTerm t).1 (.leaf t) :=
  represents_leaf.2 node?_alloc_self

theorem represents_allocNonterm {p : ProductionIdx} {ids : List NodeId} {children : List Tree}
    (h : List.Forall₂ a.Represents ids children) :
    (a.allocNonterm p ids).2.Represents (a.allocNonterm p ids).1 (.node p children) :=
  represents_node.2 ⟨ids, node?_alloc_self, h.imp fun _ _ hc => hc.alloc _⟩

/-! ### Growth in place -/

theorem node?_modifyChildren_of_ne {f : List NodeId → List NodeId} {id other : NodeId}
    (h : other ≠ id) : (a.modifyChildren id f).node? other = a.node? other := by
  simp only [node?, modifyChildren, Array.getElem?_modify, if_neg (Ne.symm h)]

theorem node?_modifyChildren_self {f : List NodeId → List NodeId} {id : NodeId} :
    (a.modifyChildren id f).node? id = (a.node? id).map (Node.mapChildren f) := by
  simp only [node?, modifyChildren, Array.getElem?_modify, if_true]

theorem size_modifyChildren (a : Arena) (id : NodeId) (f : List NodeId → List NodeId) :
    (a.modifyChildren id f).size = a.size := by
  simp only [size, modifyChildren, Array.size_modify]

end Arena

end CompiledGrammar
