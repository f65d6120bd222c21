import CompiledGrammar.Proofs.Tree.Contract

/-!
# Leaves of simplified trees

What becomes of the leaves of a tree when it is simplified: the tokens that the production of their
parent leaves out are gone (`Tree.keptLeaves`), and all others are still there, each once and in the
same order.

* A node that is forwarded, a list that goes on and children that are merged keep their leaves where
  they are (`leaves_ofOperands`).
* An empty list that is dropped has no leaves: the node of a production has as many children as the
  production has handles (`Tree.HasArity`).

`Tree.HasArity.leaves_simplify` is the law.  Renamings have one child, so a tree has the same leaves
without them (`leaves_contract`).
-/

namespace CompiledGrammar

variable {g : Grammar} {p : Production} {i : ProductionIdx} {t : Tree} {children : List Tree}

/-- Every node has as many children as its production has handles. -/
inductive Tree.HasArity (g : Grammar) : Tree → Prop where
  /-- A token has no children. -/
  | leaf (token : Token) : HasArity g (.leaf token)
  /-- A node has a child for each handle. -/
  | node {i : ProductionIdx} {p : Production} {children : List Tree} :
      g.productions[i]? = some p → children.length = p.handles.length →
      (∀ c ∈ children, HasArity g c) → HasArity g (.node i children)

mutual

/-- The leaves of a tree without those that the production of their parent leaves out. -/
def Tree.keptLeaves (g : Grammar) : Tree → List Token
  | .leaf token => [token]
  | .node i children => keptAmong g (g.productions[i]?.any (·.rules.removeSingleLexeme)) children

/-- The leaves of the children of a node, without the children themselves that are left out. -/
def keptAmong (g : Grammar) (remove : Bool) : List Tree → List Token
  | [] => []
  | c :: cs => (if remove && c.isFixed g then [] else c.keptLeaves g) ++ keptAmong g remove cs

end

theorem keptLeaves_leaf (token : Token) : (Tree.leaf token).keptLeaves g = [token] := by
  rw [Tree.keptLeaves]

theorem keptLeaves_node (hp : g.productions[i]? = some p) :
    (Tree.node i children).keptLeaves g = keptAmong g p.rules.removeSingleLexeme children := by
  rw [Tree.keptLeaves, hp, Option.any_some]

theorem keptAmong_eq_flatMap (remove : Bool) (children : List Tree) :
    keptAmong g remove children =
      children.flatMap fun c => if remove && c.isFixed g then [] else c.keptLeaves g := by
  induction children with
  | nil => rw [keptAmong, List.flatMap_nil]
  | cons c cs ih => rw [keptAmong, ih, List.flatMap_cons]

/-! ### Simplification -/

/-- Whether children are merged or not, an operand contributes its leaves. -/
theorem leaves_contribution (o : Operand) :
    (o.contribution p).flatMap Tree.leaves = o.tree.leaves := by
  unfold Operand.contribution
  split
  · rename_i q children htree
    split
    · rw [htree, Tree.leaves_node]
    · rw [List.flatMap_singleton]
  · rw [List.flatMap_singleton]

/-- A list has the leaves of its operands, whether it goes on with one of them, drops it because it
is empty or starts with all of them. -/
theorem leaves_listChildren {os : List Operand}
    (hempty : ∀ o ∈ os, o.production.any g.isEmptyProduction = true → o.tree.leaves = [])
    (hlist : ∀ o ∈ os, o.production = some p.index → o.result.isList = true →
      o.tree = .node p.index o.tree.children) :
    (listChildren g p os).flatMap Tree.leaves = os.flatMap (·.tree.leaves) := by
  have hall : (os.map Operand.tree).flatMap Tree.leaves = os.flatMap (·.tree.leaves) :=
    List.flatMap_map ..
  by_cases hnone : ∀ o ∈ os, o.production.any (g.derives · p.head) = false
  · rw [listChildren_of_forall hnone, hall]
  · obtain ⟨before, list, after, rfl, hbefore, hhead⟩ := exists_cut hnone
    have hmem : list ∈ before ++ list :: after := List.mem_append_right _ List.mem_cons_self
    rw [listChildren_append hbefore hhead]
    split
    · rename_i hgrow
      have hleaves : list.tree.leaves = list.tree.children.flatMap Tree.leaves := by
        conv_lhs => rw [hlist list hmem hgrow.1 hgrow.2]
        exact Tree.leaves_node _ _
      rw [List.flatMap_append, List.flatMap_append, List.flatMap_map, List.flatMap_map,
        List.flatMap_append, List.flatMap_cons, hleaves, List.append_assoc]
    · split
      · rename_i hdrop
        rw [List.flatMap_map, List.flatMap_append, List.flatMap_append, List.flatMap_cons,
          hempty list hmem hdrop, List.nil_append]
      · exact hall

/-- What becomes of some operands has their leaves. -/
theorem leaves_ofOperands {os : List Operand}
    (hempty : ∀ o ∈ os, o.production.any g.isEmptyProduction = true → o.tree.leaves = [])
    (hlist : ∀ o ∈ os, o.production = some p.index → o.result.isList = true →
      o.tree = .node p.index o.tree.children) :
    (Simplified.ofOperands g p os).tree.leaves = os.flatMap (·.tree.leaves) := by
  unfold Simplified.ofOperands
  split
  · rw [List.flatMap_singleton]
  · split
    · rw [Tree.leaves_node, leaves_listChildren hempty hlist]
    · rw [Tree.leaves_node, List.flatMap_assoc]
      exact List.flatMap_congr fun o _ => leaves_contribution o

/-- The operands of a node have the leaves that its production does not leave out. -/
theorem leaves_operands (rules : TreeRules)
    (h : ∀ c ∈ children, (c.simplify g).tree.leaves = c.keptLeaves g) :
    (operands g rules children).flatMap (·.tree.leaves) =
      keptAmong g rules.removeSingleLexeme children := by
  induction children with
  | nil => rw [operands, keptAmong, List.flatMap_nil]
  | cons c cs ih =>
    rw [operands, keptAmong]
    rw [List.forall_mem_cons] at h
    split
    · rw [List.nil_append, ih h.2]
    · rw [List.flatMap_cons, ih h.2]
      exact congrArg (· ++ _) h.1

/-- The node of an empty production has no leaves. -/
theorem Tree.HasArity.keptLeaves_eq_nil (ht : t.HasArity g)
    (hempty : t.origin.production?.any g.isEmptyProduction = true) : t.keptLeaves g = [] := by
  cases ht with
  | leaf token => cases hempty
  | @node i p children hp hlen _ =>
    have hnil : p.handles.isEmpty = true := by
      simpa [Tree.origin, Origin.production?, Grammar.isEmptyProduction, hp] using hempty
    rw [List.isEmpty_iff.1 hnil, List.length_nil, List.length_eq_zero_iff] at hlen
    rw [keptLeaves_node hp, hlen, keptAmong]

/-- **Simplifying keeps the leaves.**  A simplified tree has the leaves that no production left out,
in the same order. -/
theorem Tree.HasArity.leaves_simplify (hg : g.Loaded) (ht : t.HasArity g) :
    (t.simplify g).tree.leaves = t.keptLeaves g := by
  induction ht with
  | leaf token => rw [simplify_leaf, Tree.leaves_leaf, keptLeaves_leaf]
  | @node i p children hp hlen hchildren ih =>
    rw [simplify_node hp, keptLeaves_node hp, ← leaves_operands p.rules ih]
    refine leaves_ofOperands ?_ ?_
    · intro o ho hempty
      obtain ⟨c, hc, rfl⟩ := exists_of_mem_operands ho
      exact (ih c hc).trans ((hchildren c hc).keptLeaves_eq_nil hempty)
    · intro o ho hproduction hlist
      obtain ⟨c, -, rfl⟩ := exists_of_mem_operands ho
      exact hg.simplify_of_isList hproduction hlist

/-! ### Contraction -/

theorem leaves_trimmedNode :
    (Tree.trimmedNode g i children).leaves = children.flatMap Tree.leaves := by
  unfold Tree.trimmedNode
  split
  · split
    · rw [List.flatMap_singleton]
    · rw [Tree.leaves_node]
  · rw [Tree.leaves_node]

/-- Without its renamings a tree has the same leaves. -/
theorem leaves_contract (t : Tree) : (t.contract g).leaves = t.leaves := by
  induction t with
  | leaf token => rw [contract_leaf]
  | node i children ih =>
    rw [contract_node, leaves_trimmedNode, List.flatMap_map, Tree.leaves_node]
    exact List.flatMap_congr ih

/-- Without its renamings a tree has as many children everywhere. -/
theorem Tree.HasArity.contract (ht : t.HasArity g) : (t.contract g).HasArity g := by
  induction ht with
  | leaf token =>
    rw [contract_leaf]
    exact .leaf token
  | @node i p children hp hlen _ ih =>
    rw [contract_node]
    have hnode : (Tree.node i (children.map (·.contract g))).HasArity g :=
      .node hp (by rw [List.length_map, hlen]) (List.forall_mem_map.2 ih)
    unfold Tree.trimmedNode
    split
    · rename_i child hchild
      split
      · rw [hchild] at hnode
        cases hnode with
        | node _ _ h => exact h child (List.mem_singleton_self child)
      · rwa [hchild] at hnode
    · exact hnode

end CompiledGrammar
