import CompiledGrammar.Proofs.Grammar.Loaded
import CompiledGrammar.Proofs.Tree.Derivation
import CompiledGrammar.Tree.Simplified
import Mathlib.Data.List.TakeWhile

/-!
# Simplification as a function of trees

What the rules of the productions make of a tree, by recursion on the tree (`Tree.simplify`): no
stack of open lists, and no list that grows in place.  That a list may still grow is part of what a
tree simplifies to (`Simplified.isList`).

* A child that is not left out is an `Operand` of its node: the production that made the child, and
  what the child simplifies to.
* `Simplified.ofOperands` makes a node of its operands: an only operand is forwarded, a list is
  continued or started (`listChildren`), and otherwise the operands become the children
  (`Operand.contribution`).
-/

namespace CompiledGrammar

/-- What a tree simplifies to. -/
structure Simplified where
  /-- The simplified tree. -/
  tree : Tree
  /-- It is a list that the production at the root of the tree made, so that it may still grow. -/
  isList : Bool
deriving Repr

/-- A child that is not left out. -/
structure Operand where
  /-- The production that made the child, unless it is a token. -/
  production : Option ProductionIdx
  /-- What the child simplifies to. -/
  result : Simplified
deriving Repr

/-- The children of a tree. -/
def Tree.children : Tree → List Tree
  | leaf _ => []
  | node _ children => children

/-- The tree is a token whose text says nothing. -/
def Tree.isFixed (g : Grammar) (t : Tree) : Bool :=
  t.origin.token?.any fun token => g.hasSingleLexeme token.symbol

/-- The simplified tree of an operand. -/
def Operand.tree (o : Operand) : Tree := o.result.tree

/-- The trees that an operand contributes to a node: its children if they are to be merged and its
own production made it, else itself. -/
def Operand.contribution (p : Production) (o : Operand) : List Tree :=
  match o.tree with
  | .node q children =>
    if p.rules.mergeChild ∧ o.production = some q then children else [o.tree]
  | .leaf _ => [o.tree]

/-- The members of a list.  The first operand of the production's own head is the list so far, if
the production made a list of it, and is dropped if it is empty. -/
def listChildren (g : Grammar) (p : Production) (os : List Operand) : List Tree :=
  let elsewhere (o : Operand) : Bool := !o.production.any (g.derives · p.head)
  let before := os.takeWhile elsewhere
  match os.dropWhile elsewhere with
  | [] => os.map Operand.tree
  | list :: after =>
    if list.production = some p.index ∧ list.result.isList then
      before.map Operand.tree ++ list.tree.children ++ after.map Operand.tree
    else if list.production.any g.isEmptyProduction then (before ++ after).map Operand.tree
    else os.map Operand.tree

/-- A list is cut where something first holds. -/
theorem cut_append {α : Type} {q : α → Bool} {before : List α} {x : α} (after : List α)
    (hbefore : ∀ y ∈ before, q y = false) (hx : q x = true) :
    (before ++ x :: after).takeWhile (!q ·) = before ∧
      (before ++ x :: after).dropWhile (!q ·) = x :: after := by
  have hpos : ∀ y ∈ before, (!q y) = true := fun y hy => by rw [hbefore y hy]; rfl
  have hneg : ¬ (!q x) = true := by rw [hx]; exact Bool.false_ne_true
  rw [List.takeWhile_append_of_pos hpos, List.dropWhile_append_of_pos hpos,
    List.takeWhile_cons_of_neg (p := (!q ·)) hneg,
    List.dropWhile_cons_of_neg (p := (!q ·)) hneg, List.append_nil]
  exact ⟨rfl, rfl⟩

/-- A list is cut where something first holds, if anything ever does. -/
theorem exists_cut {α : Type} {q : α → Bool} {xs : List α} (h : ¬ ∀ y ∈ xs, q y = false) :
    ∃ before x after, xs = before ++ x :: after ∧ (∀ y ∈ before, q y = false) ∧ q x = true := by
  induction xs with
  | nil => exact absurd nofun h
  | cons x xs ih =>
    cases hx : q x with
    | true => exact ⟨[], x, xs, rfl, nofun, hx⟩
    | false =>
      have hxs : ¬ ∀ y ∈ xs, q y = false := by
        intro hxs
        refine h fun y hy => ?_
        rcases List.mem_cons.1 hy with rfl | hy
        · exact hx
        · exact hxs y hy
      obtain ⟨before, y, after, rfl, hbefore, hy⟩ := ih hxs
      refine ⟨x :: before, y, after, rfl, ?_, hy⟩
      intro z hz
      rcases List.mem_cons.1 hz with rfl | hz
      · exact hx
      · exact hbefore z hz

/-- It is not cut if nothing ever does. -/
theorem cut_of_forall {α : Type} {q : α → Bool} {xs : List α} (h : ∀ y ∈ xs, q y = false) :
    xs.dropWhile (!q ·) = [] :=
  List.dropWhile_eq_nil_iff.2 fun y hy => by rw [h y hy]; rfl

section

variable {g : Grammar} {p : Production}

/-- Without an operand of the production's head, a list starts. -/
theorem listChildren_of_forall {os : List Operand}
    (h : ∀ o ∈ os, o.production.any (g.derives · p.head) = false) :
    listChildren g p os = os.map Operand.tree := by
  simp only [listChildren, cut_of_forall h]

/-- What the first operand of the production's head is a list for. -/
theorem listChildren_append {before after : List Operand} {list : Operand}
    (hbefore : ∀ o ∈ before, o.production.any (g.derives · p.head) = false)
    (hlist : list.production.any (g.derives · p.head) = true) :
    listChildren g p (before ++ list :: after) =
      if list.production = some p.index ∧ list.result.isList then
        before.map Operand.tree ++ list.tree.children ++ after.map Operand.tree
      else if list.production.any g.isEmptyProduction then (before ++ after).map Operand.tree
      else (before ++ list :: after).map Operand.tree := by
  have hcut := cut_append (q := fun o : Operand => o.production.any (g.derives · p.head)) after
    hbefore hlist
  simp only [listChildren, hcut.1, hcut.2]

end

/-- What the operands of a production become. -/
def Simplified.ofOperands (g : Grammar) (p : Production) (os : List Operand) : Simplified :=
  match p.rules.forwardChild, os with
  | true, [o] => ⟨o.tree, false⟩
  | _, _ =>
    if p.rules.listifyRecursion then ⟨.node p.index (listChildren g p os), true⟩
    else ⟨.node p.index (os.flatMap (Operand.contribution p)), false⟩

mutual

/-- The tree without what the rules of its productions leave out. -/
def Tree.simplify (g : Grammar) : Tree → Simplified
  | .leaf token => ⟨.leaf token, false⟩
  | .node i children =>
    match g.productions[i]? with
    | some p => .ofOperands g p (operands g p.rules children)
    | none => ⟨.node i [], false⟩

/-- The operands among the children of a node. -/
def operands (g : Grammar) (rules : TreeRules) : List Tree → List Operand
  | [] => []
  | c :: cs =>
    if rules.removeSingleLexeme && c.isFixed g then operands g rules cs
    else ⟨c.origin.production?, c.simplify g⟩ :: operands g rules cs

end

section

variable {g : Grammar} {p : Production} {i : ProductionIdx} {children : List Tree}

@[simp] theorem simplify_leaf (token : Token) :
    (Tree.leaf token).simplify g = ⟨.leaf token, false⟩ := by
  simp only [Tree.simplify]

theorem simplify_node (hp : g.productions[i]? = some p) :
    (Tree.node i children).simplify g = .ofOperands g p (operands g p.rules children) := by
  simp only [Tree.simplify, hp]

/-- A list is a node of the production that made the tree. -/
theorem Grammar.Loaded.simplify_of_isList (hg : g.Loaded) {t : Tree}
    (hproduction : t.origin.production? = some i) (hlist : (t.simplify g).isList = true) :
    (t.simplify g).tree = .node i (t.simplify g).tree.children := by
  cases t with
  | leaf token => cases hproduction
  | node q children =>
    cases hproduction
    cases hp : g.productions[i]? with
    | none => simp only [Tree.simplify, hp] at hlist; cases hlist
    | some p =>
      rw [simplify_node hp] at hlist ⊢
      unfold Simplified.ofOperands at hlist ⊢
      split at hlist
      · cases hlist
      · split at hlist
        · rename_i hrule
          rw [if_pos hrule, hg.index_eq hp]
          rfl
        · cases hlist

/-- An empty production makes no list. -/
theorem Grammar.Loaded.isList_of_isEmptyProduction (hg : g.Loaded) {t : Tree}
    (h : t.origin.production?.any g.isEmptyProduction = true) : (t.simplify g).isList = false := by
  cases t with
  | leaf token => cases h
  | node q children =>
    simp only [Tree.origin, Origin.production?, Option.any_some, isEmptyProduction,
      Option.any_eq_true] at h
    obtain ⟨p, hp, hempty⟩ := h
    rw [simplify_node hp]
    unfold Simplified.ofOperands
    split
    · rfl
    · split
      · rename_i hrule
        exact absurd (List.isEmpty_iff.1 hempty) (hg.handles_ne_nil hp hrule)
      · rfl

end

end CompiledGrammar
