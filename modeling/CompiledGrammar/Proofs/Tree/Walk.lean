import CompiledGrammar.Proofs.Tree.Derivation
import Mathlib.Data.Fintype.Card

/-!
# Walks through trees

Where an arena holds a tree, a walk visits the nodes of the tree, parents first and children from
left to right (`Arena.Represents.preorder_cons`).

A walk goes no deeper than there are nodes in the arena.  That cuts nothing off a tree: the nodes on
a way down a tree are the roots of trees of different heights, so there are at least as many
(`Arena.Represents.height_le_size`).

The tokens that a walk comes by are the leaves (`Arena.Represents.terminals_eq`).
-/

namespace CompiledGrammar

/-- What a node was made of. -/
def Node.origin : Node → Origin
  | term t => .shifted t
  | nonterm p _ => .reduced p

namespace Tree

mutual

/-- How many nodes there are on the longest way down. -/
def height : Tree → Nat
  | leaf _ => 1
  | node _ children => heightAll children + 1

/-- The height of the highest of some trees. -/
def heightAll : List Tree → Nat
  | [] => 0
  | c :: cs => max c.height (heightAll cs)

end

mutual

/-- What a walk comes by that starts at the root, at some depth. -/
def visits (depth : Nat) : Tree → List (Nat × Origin)
  | leaf t => [(depth, .shifted t)]
  | node p children => (depth, .reduced p) :: visitsAll (depth + 1) children

/-- What a walk comes by in some trees, one after the other. -/
def visitsAll (depth : Nat) : List Tree → List (Nat × Origin)
  | [] => []
  | c :: cs => c.visits depth ++ visitsAll depth cs

end

theorem height_le_heightAll {children : List Tree} {c : Tree} (h : c ∈ children) :
    c.height ≤ heightAll children := by
  induction children with
  | nil => cases h
  | cons d cs ih =>
    rw [heightAll]
    rcases List.mem_cons.1 h with rfl | h
    · exact Nat.le_max_left _ _
    · exact (ih h).trans (Nat.le_max_right _ _)

theorem exists_le_height {children : List Tree} {k : Nat} (hpos : 0 < k)
    (h : k ≤ heightAll children) : ∃ c ∈ children, k ≤ c.height := by
  induction children with
  | nil =>
    rw [heightAll] at h
    omega
  | cons c cs ih =>
    rw [heightAll] at h
    rcases le_max_iff.1 h with h | h
    · exact ⟨c, List.mem_cons_self, h⟩
    · obtain ⟨d, hd, hle⟩ := ih h
      exact ⟨d, List.mem_cons_of_mem _ hd, hle⟩

theorem visitsAll_eq_flatMap (depth : Nat) (children : List Tree) :
    visitsAll depth children = children.flatMap (visits depth) := by
  induction children with
  | nil => rw [visitsAll, List.flatMap_nil]
  | cons c cs ih => rw [visitsAll, ih, List.flatMap_cons]

/-- The tokens among what a walk comes by are the leaves. -/
theorem tokens_visits (t : Tree) (depth : Nat) :
    (t.visits depth).filterMap (fun v => v.2.token?) = t.leaves := by
  induction t generalizing depth with
  | leaf token =>
    rw [visits, leaves_leaf]
    rfl
  | node p children ih =>
    rw [visits, visitsAll_eq_flatMap, leaves_node, List.filterMap_cons_none rfl,
      List.filterMap_flatMap]
    exact List.flatMap_congr fun c hc => ih c hc (depth + 1)

end Tree

namespace Arena

variable {a : Arena} {id : NodeId} {t : Tree}

theorem preorder_nil : a.preorder [] = [] := by
  rw [preorder]

theorem preorder_cons {n : Node} (h : a.node? id = some n) (depth : Nat)
    (todo : List (Nat × NodeId)) :
    a.preorder ((depth, id) :: todo) = (depth, n) :: a.preorder (a.below depth n ++ todo) := by
  rw [preorder]
  split
  · rename_i hnone
    cases hnone.symm.trans h
  · rename_i m hm
    cases hm.symm.trans h
    rfl

theorem terminals_eq_filterMap (a : Arena) (root : NodeId) :
    a.terminals root = (a.preorder [(0, root)]).filterMap fun v => v.2.origin.token? := by
  refine List.filterMap_congr fun v _ => ?_
  obtain ⟨_, n⟩ := v
  cases n <;> rfl

namespace Represents

/-- Each of the children of a tree is held, too. -/
theorem exists_of_mem {ids : List NodeId} {children : List Tree}
    (h : List.Forall₂ a.Represents ids children) {c : Tree} (hc : c ∈ children) :
    ∃ i, a.Represents i c := by
  induction h with
  | nil => cases hc
  | cons hfirst _ ih =>
    rcases List.mem_cons.1 hc with rfl | hc
    · exact ⟨_, hfirst⟩
    · exact ih hc

/-- A tree has subtrees of all heights up to its own. -/
theorem exists_height_eq (h : a.Represents id t) {k : Nat} (hpos : 0 < k) (hle : k ≤ t.height) :
    ∃ i u, a.Represents i u ∧ u.height = k := by
  induction t generalizing id with
  | leaf token =>
    refine ⟨id, .leaf token, h, ?_⟩
    rw [Tree.height] at hle ⊢
    omega
  | node p children ih =>
    by_cases htop : k = (Tree.node p children).height
    · exact ⟨id, _, h, htop.symm⟩
    · have hchildren : k ≤ Tree.heightAll children := by
        rw [Tree.height] at hle htop
        omega
      obtain ⟨c, hc, hle⟩ := Tree.exists_le_height hpos hchildren
      obtain ⟨ids, -, hids⟩ := represents_node.1 h
      obtain ⟨i, hi⟩ := exists_of_mem hids hc
      exact ih c hc hi hle

/-- A tree is no higher than there are nodes. -/
theorem height_le_size (h : a.Represents id t) : t.height ≤ a.size := by
  -- subtrees of different heights are at different nodes
  have hsubtree (k : Fin t.height) :
      ∃ i : Fin a.size, ∃ u, a.Represents i u ∧ u.height = k + 1 := by
    obtain ⟨i, u, hu, hheight⟩ := h.exists_height_eq (Nat.succ_pos k) k.isLt
    exact ⟨⟨i, hu.lt_size⟩, u, hu, hheight⟩
  choose place subtree hplace hheight using hsubtree
  have hinjective : Function.Injective place := by
    intro j k hjk
    have hsame := (hplace j).unique (hjk ▸ hplace k)
    have hj := hheight j
    rw [hsame, hheight k] at hj
    exact Fin.ext (Nat.succ.inj hj).symm
  simpa only [Fintype.card_fin] using Fintype.card_le_of_injective place hinjective

/-- A walk through a tree comes by its nodes, and goes on with what is still to visit. -/
theorem preorder_cons (h : a.Represents id t) {depth : Nat} (hdepth : depth + t.height ≤ a.size)
    (todo : List (Nat × NodeId)) :
    (a.preorder ((depth, id) :: todo)).map (fun v => (v.1, v.2.origin)) =
      t.visits depth ++ (a.preorder todo).map fun v => (v.1, v.2.origin) := by
  induction t generalizing id depth todo with
  | leaf token =>
    have hbelow : a.below depth (.term token) = [] := by simp [below, Node.children]
    rw [Arena.preorder_cons (represents_leaf.1 h), hbelow, Tree.visits]
    rfl
  | node p children ih =>
    obtain ⟨ids, hnode, hids⟩ := represents_node.1 h
    rw [Tree.height] at hdepth
    have hbelow : a.below depth (.nonterm p ids) = ids.map fun i => (depth + 1, i) :=
      if_pos (by omega)
    rw [Arena.preorder_cons hnode, hbelow, Tree.visits, Tree.visitsAll_eq_flatMap, List.map_cons,
      List.cons_append]
    congr 1
    -- the children are visited one after the other
    have hheight (c : Tree) (hc : c ∈ children) : depth + 1 + c.height ≤ a.size := by
      have := Tree.height_le_heightAll hc
      omega
    clear hnode h hbelow hdepth
    induction hids with
    | nil => rfl
    | @cons i c is cs hfirst _ ihcs =>
      rw [List.map_cons, List.cons_append,
        ih c List.mem_cons_self hfirst (hheight c List.mem_cons_self), List.flatMap_cons,
        List.append_assoc]
      congr 1
      exact ihcs (fun d hd => ih d (List.mem_cons_of_mem _ hd))
        fun d hd => hheight d (List.mem_cons_of_mem _ hd)

/-- A walk from the root of a tree comes by the nodes of the tree. -/
theorem preorder_eq (h : a.Represents id t) :
    (a.preorder [(0, id)]).map (fun v => (v.1, v.2.origin)) = t.visits 0 := by
  have hdepth : 0 + t.height ≤ a.size := by
    rw [Nat.zero_add]
    exact h.height_le_size
  rw [h.preorder_cons hdepth, preorder_nil, List.map_nil, List.append_nil]

/-- **The tokens below a node are the leaves of its tree.** -/
theorem terminals_eq (h : a.Represents id t) : a.terminals id = t.leaves := by
  rw [← t.tokens_visits 0, ← h.preorder_eq, List.filterMap_map, terminals_eq_filterMap]
  rfl

end Represents

end Arena

end CompiledGrammar
