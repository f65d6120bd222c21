import CompiledGrammar.Proofs.Tree.Simplify
import Mathlib.Data.List.Count
import Mathlib.Logic.Relation

/-!
# Trees without renamings

A production whose only handle is a non-terminal only renames it.  `Tree.contract` takes the nodes
of such productions out of a tree.  With the rules that are inferred for them they leave no trace in
a simplified tree themselves, but they do tell a list that may still grow from one that has become a
child: what a tree simplifies to can change when they are gone.

* `Operand.Contracts` compares an operand of a node before and after: it is the same, or it was
  made by a renaming and is now made by what was renamed.
* `Grammar.KeepsLists` is a condition on grammars: among the handles of a production that makes
  lists its head is the only one that can be the list so far, and it is there only once.
* Under that condition a derivation tree simplifies to the same tree without its renamings
  (`tree_simplify_contract`).
-/

namespace CompiledGrammar

namespace Grammar

variable {g : Grammar} {i : ProductionIdx} {p : Production}

/-! ### Inferred rules -/

/-- The rules of all productions are the inferred ones. -/
def RulesInferred (g : Grammar) : Prop :=
  ∀ p ∈ g.productions, p.rules = inferRules g.symbols.toList p.toProductionRow

theorem rulesInferred_of_ofBytes {bytes : List UInt8} (h : ofBytes bytes = .ok g) :
    g.RulesInferred := by
  intro p hp
  simp only [ofBytes, bind_eq_ok] at h
  obtain ⟨t, -, hlink⟩ := h
  obtain ⟨rows, rfl, eofSymbol, -, errorSymbol, -, -, rfl⟩ :=
    Table.link_eq_ok.1 (mapError_eq_ok.1 hlink)
  obtain ⟨row, -, rfl⟩ := List.mem_map.1 (List.mem_toArray.1 hp)
  rfl

theorem RulesInferred.mergeChild (hg : g.RulesInferred) (hp : g.productions[i]? = some p) :
    p.rules.mergeChild = false := by
  rw [hg p (Array.mem_of_getElem? hp)]
  rfl

theorem exists_handle_of_isUnit (hunit : g.isUnit p = true) :
    ∃ h, p.handles = [h] ∧ g.hasKind h .nonTerminal = true := by
  unfold isUnit at hunit
  split at hunit
  · rename_i h hhandles
    exact ⟨h, hhandles, hunit⟩
  · cases hunit

/-- What is renamed takes the place of the renaming. -/
theorem RulesInferred.of_isUnit (hg : g.RulesInferred) (hp : g.productions[i]? = some p)
    (hunit : g.isUnit p = true) :
    p.rules.forwardChild = true ∧ p.rules.removeSingleLexeme = false := by
  obtain ⟨h, hhandles, hkind⟩ := exists_handle_of_isUnit hunit
  obtain ⟨s, hs, hnonTerminal⟩ := (Option.any_eq_true _ _).1 hkind
  have hsymbols : [h].filterMap (fun h => g.symbols.toList[h]?) = [s] :=
    List.filterMap_cons_some (by rw [Array.getElem?_toList, hs])
  rw [hg p (Array.mem_of_getElem? hp), inferRules, hhandles, hsymbols]
  simp [eq_of_beq hnonTerminal]

/-! ### Renaming -/

/-- The grammar has a production that only renames `b` as `a`. -/
def Renames (g : Grammar) (a b : SymbolIdx) : Prop :=
  ∃ p ∈ g.productions, g.isUnit p = true ∧ p.head = a ∧ p.handles = [b]

/-- Only in one place can a handle of a production be the list that the production goes on with. -/
structure KeepsLists (g : Grammar) : Prop where
  /-- The head is a handle once. -/
  once : ∀ p ∈ g.productions, p.rules.listifyRecursion = true → p.handles.count p.head ≤ 1
  /-- No handle renames the head. -/
  apart : ∀ p ∈ g.productions, p.rules.listifyRecursion = true → ∀ h ∈ p.handles,
    ¬ Relation.TransGen g.Renames h p.head

/-- Symbols are ranked so that renaming leads upwards and the handles of a production that makes
lists are no lower than its head, which is there once. -/
def checkKeepsLists (g : Grammar) (rank : SymbolIdx → Nat) : Bool :=
  g.productions.all fun p =>
    (!g.isUnit p || p.handles.all (rank p.head < rank ·)) &&
      (!p.rules.listifyRecursion ||
        (p.handles.count p.head ≤ 1 && p.handles.all (rank p.head ≤ rank ·)))

theorem keepsLists_of_check {rank : SymbolIdx → Nat} (h : g.checkKeepsLists rank = true) :
    g.KeepsLists := by
  simp only [checkKeepsLists, Array.all_eq_true', Bool.and_eq_true, Bool.or_eq_true,
    Bool.not_eq_true', List.all_eq_true, decide_eq_true_eq] at h
  have hlists (p : Production) (hp : p ∈ g.productions) (hlist : p.rules.listifyRecursion = true) :
      p.handles.count p.head ≤ 1 ∧ ∀ h ∈ p.handles, rank p.head ≤ rank h := by
    refine (h p hp).2.resolve_left ?_
    rw [hlist]
    exact Bool.noConfusion
  have hrank {a b : SymbolIdx} (hab : Relation.TransGen g.Renames a b) : rank a < rank b := by
    have hstep {a b : SymbolIdx} (hab : g.Renames a b) : rank a < rank b := by
      obtain ⟨p, hp, hunit, rfl, hhandles⟩ := hab
      refine (h p hp).1.resolve_left ?_ b (hhandles ▸ List.mem_singleton_self b)
      rw [hunit]
      exact Bool.noConfusion
    induction hab with
    | single hab => exact hstep hab
    | tail _ hbc ih => exact Nat.lt_trans ih (hstep hbc)
  refine ⟨fun p hp hlist => (hlists p hp hlist).1, fun p hp hlist s hs hrenames => ?_⟩
  exact absurd (hrank hrenames) (Nat.not_lt_of_le ((hlists p hp hlist).2 s hs))

end Grammar

/-! ### Contraction -/

/-- The node of a production, or its only child if the production only renames it. -/
def Tree.trimmedNode (g : Grammar) (i : ProductionIdx) : List Tree → Tree
  | [child] => if g.productions[i]?.any g.isUnit then child else .node i [child]
  | children => .node i children

mutual

/-- The tree without the nodes of productions that only rename. -/
def Tree.contract (g : Grammar) : Tree → Tree
  | .leaf token => .leaf token
  | .node i children => .trimmedNode g i (contractAll g children)

/-- The trees without such nodes. -/
def contractAll (g : Grammar) : List Tree → List Tree
  | [] => []
  | c :: cs => c.contract g :: contractAll g cs

end

section

variable {g : Grammar} {p : Production} {i : ProductionIdx} {children : List Tree}

@[simp] theorem contract_leaf (token : Token) : (Tree.leaf token).contract g = .leaf token := by
  simp only [Tree.contract]

@[simp] theorem contract_node :
    (Tree.node i children).contract g = .trimmedNode g i (children.map (·.contract g)) := by
  simp only [Tree.contract]
  congr 1
  induction children with
  | nil => rfl
  | cons c cs ih => rw [contractAll, ih, List.map_cons]

theorem trimmedNode_of_isUnit (hp : g.productions[i]? = some p) (hunit : g.isUnit p = true)
    (child : Tree) : Tree.trimmedNode g i [child] = child := by
  rw [Tree.trimmedNode, hp, Option.any_some, hunit, if_pos rfl]

theorem trimmedNode_of_not_isUnit (hp : g.productions[i]? = some p) (hunit : g.isUnit p = false)
    (children : List Tree) : Tree.trimmedNode g i children = .node i children := by
  unfold Tree.trimmedNode
  split
  · rw [hp, Option.any_some, hunit, if_neg Bool.false_ne_true]
  · rfl

end

/-! ### Derivation trees -/

section

variable {g : Grammar} {p : Production} {i : ProductionIdx} {children : List Tree} {t : Tree}

/-- A node that only renames has one child, of the symbol that is renamed. -/
theorem exists_child_of_isUnit (hp : g.productions[i]? = some p) (hunit : g.isUnit p = true)
    (hchildren : children.map (Tree.symbol? g) = p.handles.map some) :
    ∃ c h, children = [c] ∧ c.symbol? g = some h ∧ g.hasKind h .nonTerminal = true ∧
      g.Renames p.head h := by
  obtain ⟨h, hhandles, hkind⟩ := Grammar.exists_handle_of_isUnit hunit
  rw [hhandles, List.map_singleton, List.map_eq_singleton_iff] at hchildren
  obtain ⟨c, rfl, hsymbol⟩ := hchildren
  exact ⟨c, h, rfl, hsymbol, hkind, p, Array.mem_of_getElem? hp, hunit, rfl, hhandles⟩

/-- The symbol of a tree renames the one that it has without its renamings. -/
theorem exists_symbol?_contract (ht : t.IsDerivation g) {a : SymbolIdx}
    (ha : t.symbol? g = some a) :
    ∃ b, (t.contract g).symbol? g = some b ∧ Relation.ReflTransGen g.Renames a b := by
  induction ht generalizing a with
  | leaf token =>
    rw [contract_leaf]
    exact ⟨a, ha, .refl⟩
  | @node i p children hp hchildren _ ih =>
    rw [contract_node]
    cases hunit : g.isUnit p with
    | false =>
      rw [trimmedNode_of_not_isUnit hp hunit]
      exact ⟨a, ha, .refl⟩
    | true =>
      obtain ⟨c, h, rfl, hsymbol, -, hrenames⟩ := exists_child_of_isUnit hp hunit hchildren
      rw [Tree.symbol?_node hp, Option.some_inj] at ha
      obtain ⟨b, hb, hreaches⟩ := ih c (List.mem_singleton_self c) hsymbol
      rw [List.map_singleton, trimmedNode_of_isUnit hp hunit]
      exact ⟨b, hb, .head (ha ▸ hrenames) hreaches⟩

theorem isFixed_of_nonTerminal {h : SymbolIdx} (hsymbol : t.symbol? g = some h)
    (hkind : g.hasKind h .nonTerminal = true) : t.isFixed g = false := by
  cases t with
  | leaf token =>
    rw [Tree.symbol?_leaf, Option.some_inj] at hsymbol
    obtain ⟨s, hs, hnonTerminal⟩ := (Option.any_eq_true _ _).1 hkind
    simp [Tree.isFixed, Tree.origin, Origin.token?, Grammar.hasSingleLexeme, hsymbol, hs,
      eq_of_beq hnonTerminal]
  | node i children => rfl

/-- What is renamed is not left out, and neither is the renaming. -/
theorem isFixed_contract (ht : t.IsDerivation g) : (t.contract g).isFixed g = t.isFixed g := by
  induction ht with
  | leaf token => rw [contract_leaf]
  | @node i p children hp hchildren _ ih =>
    rw [contract_node]
    cases hunit : g.isUnit p with
    | false =>
      rw [trimmedNode_of_not_isUnit hp hunit]
      rfl
    | true =>
      obtain ⟨c, h, rfl, hsymbol, hkind, -⟩ := exists_child_of_isUnit hp hunit hchildren
      rw [List.map_singleton, trimmedNode_of_isUnit hp hunit, ih c (List.mem_singleton_self c),
        isFixed_of_nonTerminal hsymbol hkind]
      rfl

/-! ### Operands -/

/-- The tree as an operand of a node. -/
def Tree.operand (g : Grammar) (t : Tree) : Operand := ⟨t.origin.production?, t.simplify g⟩

/-- What becomes of an operand when the renamings are gone. -/
inductive Operand.Contracts (g : Grammar) (o : Operand) : Operand → Prop where
  /-- It was no renaming, and is the same. -/
  | same : Contracts g o o
  /-- It was a renaming, and is now what was renamed. -/
  | renamed {o' : Operand} {i : ProductionIdx} {p : Production} {b : SymbolIdx} :
      o.production = some i → g.productions[i]? = some p → g.isUnit p = true →
      o.result.isList = false → o'.tree = o.tree →
      Relation.TransGen g.Renames p.head b →
      (∀ s, o'.production.any (g.derives · s) = true → s = b) → Contracts g o o'

theorem Operand.Contracts.tree_eq {o o' : Operand} (h : o.Contracts g o') : o'.tree = o.tree := by
  cases h with
  | same => rfl
  | renamed _ _ _ _ htree _ _ => exact htree

theorem map_tree_contracts {os os' : List Operand} (h : List.Forall₂ (Operand.Contracts g) os os') :
    os'.map Operand.tree = os.map Operand.tree := by
  induction h with
  | nil => rfl
  | cons ho _ ih => rw [List.map_cons, List.map_cons, ho.tree_eq, ih]

theorem symbol?_of_derives {s : SymbolIdx} (h : t.origin.production?.any (g.derives · s) = true) :
    t.symbol? g = some s := by
  cases t with
  | leaf token => cases h
  | node i children =>
    obtain ⟨p, hp, hhead⟩ := (Option.any_eq_true _ _).1 (show g.derives i s = true from h)
    rw [Tree.symbol?_node hp, eq_of_beq hhead]

/-- The head of an operand's production is what the operand derives. -/
theorem Operand.any_derives_head {o : Operand} (ho : o.production = some i)
    (hp : g.productions[i]? = some p) : o.production.any (g.derives · p.head) = true := by
  rw [ho, Option.any_some, Grammar.derives, hp, Option.any_some, beq_self_eq_true]

/-- An operand that can be the list so far once the renamings are gone has been able to before. -/
theorem Operand.Contracts.eq_of_derives {o o' : Operand} {s : SymbolIdx} (h : o.Contracts g o')
    (hapart : ∀ a, o.production.any (g.derives · a) = true → ¬ Relation.TransGen g.Renames a s)
    (hderives : o'.production.any (g.derives · s) = true) : o' = o := by
  cases h with
  | same => rfl
  | @renamed _ i p b hi hp _ _ _ hrenames hb =>
    rw [← hb s hderives] at hrenames
    exact absurd hrenames (hapart p.head (Operand.any_derives_head hi hp))

/-- Nothing that comes after renamings can be the list so far if nothing before them can. -/
theorem not_derives_of_contracts {os os' : List Operand} {s : SymbolIdx}
    (h : List.Forall₂ (Operand.Contracts g) os os')
    (hapart : ∀ o ∈ os, ∀ a, o.production.any (g.derives · a) = true →
      ¬ Relation.TransGen g.Renames a s)
    (hnone : ∀ o ∈ os, o.production.any (g.derives · s) = false) :
    ∀ o' ∈ os', o'.production.any (g.derives · s) = false := by
  induction h with
  | nil => exact nofun
  | cons ho _ ih =>
    rw [List.forall_mem_cons] at hapart hnone ⊢
    refine ⟨?_, ih hapart.2 hnone.2⟩
    by_contra hderives
    rw [Bool.not_eq_false] at hderives
    rw [ho.eq_of_derives hapart.1 hderives, hnone.1] at hderives
    cases hderives

/-- A list has the same members without the renamings. -/
theorem listChildren_contracts {os os' : List Operand}
    (h : List.Forall₂ (Operand.Contracts g) os os')
    (honce : os.countP (fun o => o.production.any (g.derives · p.head)) ≤ 1)
    (hapart : ∀ o ∈ os, ∀ a, o.production.any (g.derives · a) = true →
      ¬ Relation.TransGen g.Renames a p.head) :
    listChildren g p os' = listChildren g p os := by
  by_cases hnone : ∀ o ∈ os, o.production.any (g.derives · p.head) = false
  · rw [listChildren_of_forall hnone,
      listChildren_of_forall (not_derives_of_contracts h hapart hnone), map_tree_contracts h]
  · obtain ⟨before, list, after, rfl, hbefore, hlist⟩ := exists_cut hnone
    have hafter : ∀ o ∈ after, o.production.any (g.derives · p.head) = false := by
      rw [List.countP_append, List.countP_cons_of_pos (by exact hlist)] at honce
      have hzero : after.countP (fun o => o.production.any (g.derives · p.head)) = 0 := by omega
      have hzero := List.countP_eq_zero.1 hzero
      exact fun o ho => Bool.eq_false_iff.2 (hzero o ho)
    have hbefores := List.forall₂_take before.length h
    have hrest := List.forall₂_drop before.length h
    rw [List.take_left] at hbefores
    rw [List.drop_left] at hrest
    obtain ⟨list', after', hlists, hafters, hsplit⟩ := List.forall₂_cons_left_iff.1 hrest
    rw [← List.take_append_drop before.length os', hsplit]
    generalize os'.take before.length = before' at hbefores
    rw [List.forall_mem_append, List.forall_mem_cons] at hapart
    have hbefore' := not_derives_of_contracts hbefores hapart.1 hbefore
    have hafter' := not_derives_of_contracts hafters hapart.2.2 hafter
    have htrees := map_tree_contracts hbefores
    have htrees' := map_tree_contracts hafters
    rw [listChildren_append hbefore hlist]
    cases hlists with
    | same =>
      -- the list so far is the same
      rw [listChildren_append hbefore' hlist]
      simp only [List.map_append, List.map_cons, htrees, htrees']
    | @renamed _ i q b hi hq hunit hopen htree hrenames hb =>
      -- a renaming is no list that can grow, and what it renames is not of the head
      have hlist' : list'.production.any (g.derives · p.head) = false := by
        by_contra hderives
        rw [← hb _ (by simpa using hderives)] at hrenames
        exact hapart.2.1 q.head (Operand.any_derives_head hi hq) hrenames
      obtain ⟨h, hhandles, -⟩ := Grammar.exists_handle_of_isUnit hunit
      have hempty : list.production.any g.isEmptyProduction = false := by
        rw [hi, Option.any_some, Grammar.isEmptyProduction, hq, Option.any_some, hhandles]
        rfl
      rw [listChildren_of_forall, if_neg (by simp [hopen]), if_neg (by simp [hempty])]
      · simp only [List.map_append, List.map_cons, htrees, htrees', htree]
      · exact List.forall_mem_append.2 ⟨hbefore', List.forall_mem_cons.2 ⟨hlist', hafter'⟩⟩

/-- A node that merges nothing is the same without the renamings if its list is. -/
theorem ofOperands_contracts {os os' : List Operand}
    (h : List.Forall₂ (Operand.Contracts g) os os') (hmerge : p.rules.mergeChild = false)
    (hlists : p.rules.listifyRecursion = true → listChildren g p os' = listChildren g p os) :
    Simplified.ofOperands g p os' = .ofOperands g p os := by
  have hcontribution : Operand.contribution p = fun o => [o.tree] := by
    funext o
    unfold Operand.contribution
    rw [hmerge]
    cases o.tree <;> rfl
  have hplain : os'.flatMap (Operand.contribution p) = os.flatMap (Operand.contribution p) := by
    rw [hcontribution, ← List.map_eq_flatMap, ← List.map_eq_flatMap, map_tree_contracts h]
  have hnode : (if p.rules.listifyRecursion then
        (⟨.node p.index (listChildren g p os'), true⟩ : Simplified)
      else ⟨.node p.index (os'.flatMap (Operand.contribution p)), false⟩) =
      if p.rules.listifyRecursion then ⟨.node p.index (listChildren g p os), true⟩
      else ⟨.node p.index (os.flatMap (Operand.contribution p)), false⟩ := by
    cases hlist : p.rules.listifyRecursion with
    | true => rw [if_pos rfl, if_pos rfl, hlists hlist]
    | false => rw [if_neg Bool.false_ne_true, if_neg Bool.false_ne_true, hplain]
  unfold Simplified.ofOperands
  cases p.rules.forwardChild with
  | false => exact hnode
  | true =>
    cases h with
    | nil => exact hnode
    | cons ho hrest =>
      cases hrest with
      | nil => exact congrArg (Simplified.mk · false) ho.tree_eq
      | cons _ _ => exact hnode

theorem operands_contracts (rules : TreeRules) (hchildren : ∀ c ∈ children, c.IsDerivation g)
    (h : ∀ c ∈ children, (c.operand g).Contracts g ((c.contract g).operand g)) :
    List.Forall₂ (Operand.Contracts g) (operands g rules children)
      (operands g rules (children.map (·.contract g))) := by
  induction children with
  | nil => simp only [List.map_nil, operands, List.Forall₂.nil]
  | cons c cs ih =>
    rw [List.forall_mem_cons] at hchildren h
    rw [List.map_cons, operands, operands, isFixed_contract hchildren.1]
    split
    · exact ih hchildren.2 h.2
    · exact .cons h.1 (ih hchildren.2 h.2)

/-- An operand is of a child. -/
theorem exists_of_mem_operands {rules : TreeRules} {o : Operand}
    (h : o ∈ operands g rules children) : ∃ c ∈ children, o = c.operand g := by
  induction children with
  | nil =>
    rw [operands] at h
    cases h
  | cons c cs ih =>
    rw [operands] at h
    split at h
    · obtain ⟨d, hd, ho⟩ := ih h
      exact ⟨d, List.mem_cons_of_mem _ hd, ho⟩
    · rcases List.mem_cons.1 h with rfl | h
      · exact ⟨c, List.mem_cons_self, rfl⟩
      · obtain ⟨d, hd, ho⟩ := ih h
        exact ⟨d, List.mem_cons_of_mem _ hd, ho⟩

/-- No more operands derive a symbol than there are children of the symbol. -/
theorem countP_operands_le (rules : TreeRules) (s : SymbolIdx) :
    (operands g rules children).countP (fun o => o.production.any (g.derives · s)) ≤
      (children.map (Tree.symbol? g)).count (some s) := by
  induction children with
  | nil => simp only [operands, List.countP_nil, Nat.zero_le]
  | cons c cs ih =>
    have hcount : (cs.map (Tree.symbol? g)).count (some s) ≤
        ((c :: cs).map (Tree.symbol? g)).count (some s) :=
      List.count_le_count_cons ..
    rw [operands]
    split
    · exact Nat.le_trans ih hcount
    · rw [List.countP_cons]
      split
      · rename_i hderives
        rw [List.map_cons, symbol?_of_derives hderives, List.count_cons_self]
        exact Nat.succ_le_succ ih
      · exact Nat.le_trans ih hcount

/-- **Renamings can be taken out of a derivation before it is simplified**, if the rules are the
inferred ones and keep lists. -/
theorem operand_contracts (hg : g.RulesInferred) (hkeeps : g.KeepsLists) (ht : t.IsDerivation g) :
    (t.operand g).Contracts g ((t.contract g).operand g) := by
  induction ht with
  | leaf token =>
    rw [contract_leaf]
    exact .same
  | @node i p children hp hchildren hderivations ih =>
    have hmem := Array.mem_of_getElem? hp
    rw [contract_node]
    cases hunit : g.isUnit p with
    | false =>
      have hoperands := operands_contracts p.rules hderivations ih
      have hsimplify : (Tree.node i (children.map (·.contract g))).simplify g =
          (Tree.node i children).simplify g := by
        rw [simplify_node hp, simplify_node hp]
        refine ofOperands_contracts hoperands (hg.mergeChild hp) fun hlist => ?_
        refine listChildren_contracts hoperands ?_ ?_
        · -- the head is one handle, so one child is of the head
          refine Nat.le_trans (countP_operands_le p.rules p.head) ?_
          rw [hchildren, List.count_map_of_injective _ _ fun _ _ => Option.some_inj.1]
          exact hkeeps.once p hmem hlist
        · intro o ho a hderives
          obtain ⟨c, hc, rfl⟩ := exists_of_mem_operands ho
          refine hkeeps.apart p hmem hlist a ?_
          have hsymbol : some a ∈ children.map (Tree.symbol? g) :=
            List.mem_map.2 ⟨c, hc, symbol?_of_derives hderives⟩
          rw [hchildren] at hsymbol
          obtain ⟨b, hb, heq⟩ := List.mem_map.1 hsymbol
          rwa [← Option.some_inj.1 heq]
      have hoperand : (Tree.node i (children.map (·.contract g))).operand g =
          (Tree.node i children).operand g := congrArg (Operand.mk (some i)) hsimplify
      rw [trimmedNode_of_not_isUnit hp hunit, hoperand]
      exact .same
    | true =>
      obtain ⟨c, h, rfl, hsymbol, -, hrenames⟩ := exists_child_of_isUnit hp hunit hchildren
      have hc := List.mem_singleton_self c
      obtain ⟨b, hb, hreaches⟩ := exists_symbol?_contract (hderivations c hc) hsymbol
      obtain ⟨hforward, hremove⟩ := hg.of_isUnit hp hunit
      -- the child takes the place of the node, and is no list any more
      have hsimplify : (Tree.node i [c]).simplify g = ⟨(c.simplify g).tree, false⟩ := by
        rw [simplify_node hp, operands, operands, hremove, Bool.false_and,
          if_neg Bool.false_ne_true]
        unfold Simplified.ofOperands
        rw [hforward]
        rfl
      rw [List.map_singleton, trimmedNode_of_isUnit hp hunit]
      refine .renamed rfl hp hunit ?_ ?_ (.head' hrenames hreaches) fun s hs => ?_
      · rw [Tree.operand, hsimplify]
      · rw [(ih c hc).tree_eq]
        exact (congrArg Simplified.tree hsimplify).symm
      · rw [symbol?_of_derives hs] at hb
        exact Option.some_inj.1 hb

/-- **A derivation simplifies to the same tree without its renamings**, if the rules are the
inferred ones and keep lists. -/
theorem tree_simplify_contract (hg : g.RulesInferred) (hkeeps : g.KeepsLists)
    (ht : t.IsDerivation g) : ((t.contract g).simplify g).tree = (t.simplify g).tree :=
  (operand_contracts hg hkeeps ht).tree_eq

end

end CompiledGrammar
