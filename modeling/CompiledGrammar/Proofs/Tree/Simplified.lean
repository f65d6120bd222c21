import CompiledGrammar.Proofs.Tree.Concrete
import CompiledGrammar.Proofs.Tree.Simplify
import CompiledGrammar.Table.Sample
import Mathlib.Data.List.Nodup

/-!
# Simplified trees are simplifications

The simplified builder follows the parsing automaton as the concrete one does, but what it holds for
an item is what the tree of the item simplifies to.

* An `Entry` is an item as the builder sees it: its node, and the tree it stands for.
* `SimplifiedBuilder.Holds` is the invariant.  Besides the trees it says that the open lists are
  the entries that are lists, innermost first, and that no open list is below any node: a list that
  grows in place changes no other tree.
-/

namespace CompiledGrammar

/-- An item of the stack as the simplified builder sees it. -/
structure Entry where
  /-- Its node. -/
  node : NodeId
  /-- The tree it stands for, as the grammar derives it. -/
  tree : Tree

namespace Entry

variable (g : Grammar) (e : Entry)

/-- The item has the node of the entry, and came from the root of its tree. -/
structure Of (item : Item NodeId) : Prop where
  payload : item.payload = some e.node
  origin : item.origin = e.tree.origin

/-- The entry as a candidate of a reduction. -/
def candidate : Candidate := ⟨e.tree.origin.production?, e.node⟩

/-- The entry as an operand of a simplification. -/
def operand : Operand := ⟨e.tree.origin.production?, e.tree.simplify g⟩

/-- The entry is a list that may still grow. -/
def isList : Bool := (e.tree.simplify g).isList

/-- The entry is not left out by the rules of a production. -/
def isKept (rules : TreeRules) : Bool := !(rules.removeSingleLexeme && e.tree.isFixed g)

end Entry

/-- The lists among some entries. -/
def listsOf (g : Grammar) (es : List Entry) : List NodeId :=
  (es.filter (·.isList g)).map Entry.node

namespace SimplifiedBuilder

variable {g : Grammar} {b : SimplifiedBuilder} {es below : List Entry}

/-- The builder holds what the trees of the entries, topmost first, simplify to. -/
structure Holds (g : Grammar) (b : SimplifiedBuilder) (es : List Entry) : Prop where
  /-- Each simplified tree is at the node of its entry. -/
  represents : ∀ e ∈ es, b.arena.Represents e.node (e.operand g).tree
  /-- Entries have nodes of their own. -/
  nodup : (es.map Entry.node).Nodup
  /-- The open lists are the entries that are lists. -/
  openLists : b.openLists = listsOf g es
  /-- What is below a node is there and is not an open list. -/
  children : ∀ id n, b.arena.node? id = some n →
    ∀ c ∈ n.children, c < b.arena.size ∧ c ∉ b.openLists

theorem listNode_of_forall {p : Production} {cs : List Candidate}
    (h : ∀ c ∈ cs, c.production.any (g.derives · p.head) = false) :
    b.listNode g p cs = b.openList p cs := by
  simp only [listNode, cut_of_forall h]

theorem listNode_cut {p : Production} {before after : List Candidate} {list : Candidate}
    (hbefore : ∀ c ∈ before, c.production.any (g.derives · p.head) = false)
    (hlist : list.production.any (g.derives · p.head) = true) :
    b.listNode g p (before ++ list :: after) =
      if list.production = some p.index ∧
          (b.closeAll (before ++ after)).openLists.head? = some list.node then
        (b.closeAll (before ++ after)).growList list.node before after
      else if list.production.any g.isEmptyProduction then
        (b.closeAll (before ++ after)).openList p (before ++ after)
      else (b.closeAll (before ++ after)).openList p (before ++ list :: after) := by
  have hcut := cut_append (q := fun c : Candidate => c.production.any (g.derives · p.head)) after
    hbefore hlist
  simp only [listNode, hcut.1, hcut.2]

theorem mem_listsOf {id : NodeId} (h : id ∈ listsOf g es) : id ∈ es.map Entry.node :=
  ((List.filter_sublist).map Entry.node).subset h

namespace Holds

/-- An entry that is left out does not have to be remembered if it is not a list. -/
theorem sublist {es' : List Entry} (h : Holds g b es) (hsub : es'.Sublist es)
    (hlists : listsOf g es' = listsOf g es) : Holds g b es' :=
  ⟨fun e he => h.represents e (hsub.subset he), h.nodup.sublist (hsub.map _),
    h.openLists.trans hlists.symm, h.children⟩

/-! ### Closing lists -/

theorem arena_closeAll (b : SimplifiedBuilder) (cs : List Candidate) :
    (b.closeAll cs).arena = b.arena := by
  unfold closeAll
  induction cs generalizing b with
  | nil => rfl
  | cons c cs ih => rw [List.foldl_cons, ih]; rfl

theorem openLists_closeAll (b : SimplifiedBuilder) (cs : List Candidate) :
    (b.closeAll cs).openLists = b.openLists.diff (cs.map Candidate.node) := by
  unfold closeAll
  induction cs generalizing b with
  | nil => rfl
  | cons c cs ih => rw [List.foldl_cons, ih, List.map_cons, List.diff_cons]; rfl

theorem listsOf_filter (ns : List NodeId) :
    listsOf g (es.filter (·.node ∉ ns)) = (listsOf g es).filter (· ∉ ns) := by
  unfold listsOf
  rw [List.filter_map, List.filter_filter, List.filter_filter]
  congr 2
  funext e
  exact Bool.and_comm _ _

/-- Closing lists is forgetting their entries. -/
theorem closeAll (h : Holds g b es) (ps : List Entry) :
    Holds g (b.closeAll (ps.map Entry.candidate)) (es.filter (·.node ∉ ps.map Entry.node)) := by
  have hlists : (b.closeAll (ps.map Entry.candidate)).openLists =
      listsOf g (es.filter (·.node ∉ ps.map Entry.node)) := by
    have hnodup : (listsOf g es).Nodup := h.nodup.sublist (List.filter_sublist.map _)
    rw [openLists_closeAll, h.openLists, hnodup.sdiff_eq_filter, listsOf_filter, List.map_map]
    rfl
  refine ⟨?_, ?_, hlists, ?_⟩
  · intro e he
    rw [arena_closeAll]
    exact h.represents e (List.mem_of_mem_filter he)
  · exact h.nodup.sublist (List.filter_sublist.map _)
  · intro id n hn c hc
    rw [arena_closeAll] at hn ⊢
    obtain ⟨hlt, hclosed⟩ := h.children id n hn c hc
    refine ⟨hlt, fun hmem => hclosed ?_⟩
    rw [hlists, listsOf_filter] at hmem
    rw [h.openLists]
    exact List.mem_of_mem_filter hmem

/-! ### New nodes -/

/-- A new node goes on top.  What is below it must not grow any more. -/
theorem push {b' : SimplifiedBuilder} {n : Node} {t : Tree} (h : Holds g b es)
    (harena : b'.arena = (b.arena.alloc n).2)
    (hopen : b'.openLists =
      if (t.simplify g).isList then b.arena.size :: b.openLists else b.openLists)
    (hnode : (b.arena.alloc n).2.Represents b.arena.size (t.simplify g).tree)
    (hbelow : ∀ c ∈ n.children, c < b.arena.size ∧ c ∉ b.openLists) :
    Holds g b' (⟨b.arena.size, t⟩ :: es) := by
  refine ⟨?_, ?_, ?_, ?_⟩
  · -- the new node changes no tree
    rw [harena]
    intro e he
    rcases List.mem_cons.1 he with rfl | he
    · exact hnode
    · exact (h.represents e he).alloc n
  · -- its number has not been in use
    refine List.nodup_cons.2 ⟨?_, h.nodup⟩
    intro hmem
    obtain ⟨e, he, hsize⟩ := List.mem_map.1 hmem
    exact absurd (h.represents e he).lt_size (by rw [hsize]; exact Nat.lt_irrefl _)
  · rw [hopen, h.openLists]
    unfold listsOf
    cases hlist : (t.simplify g).isList with
    | true => rw [List.filter_cons_of_pos (by exact hlist)]; rfl
    | false => rw [List.filter_cons_of_neg (by simp [Entry.isList, hlist])]; rfl
  · -- no node has been above it, and what it is above is not open
    intro id m hm c hc
    have hlt : c < b.arena.size ∧ c ∉ b.openLists := by
      rw [harena] at hm
      rcases Arena.node?_alloc hm with hold | ⟨-, rfl⟩
      · exact h.children id m hold c hc
      · exact hbelow c hc
    rw [harena, hopen]
    refine ⟨Nat.lt_of_lt_of_le hlt.1 (Arena.size_le_alloc _ _), ?_⟩
    split
    · exact List.not_mem_cons_of_ne_of_not_mem (Nat.ne_of_lt hlt.1) hlt.2
    · exact hlt.2

/-- A list grows in place.  No other tree changes, for the list is below no node. -/
theorem grow {b' : SimplifiedBuilder} {list : NodeId} {i : ProductionIdx} {t u : Tree}
    {before after : List NodeId} {befores afters : List Tree}
    (h : Holds g b (⟨list, u⟩ :: es)) (hlist : (u.simplify g).isList = true)
    (hu : (u.simplify g).tree = .node i (u.simplify g).tree.children)
    (harena : b'.arena = b.arena.modifyChildren list fun cs => before ++ cs ++ after)
    (hopen : b'.openLists = b.openLists)
    (hbefore : List.Forall₂ b.arena.Represents before befores)
    (hafter : List.Forall₂ b.arena.Represents after afters)
    (hclosed : ∀ c ∈ before ++ after, c ∉ b.openLists)
    (ht : t.simplify g = ⟨.node i (befores ++ (u.simplify g).tree.children ++ afters), true⟩) :
    Holds g b' (⟨list, t⟩ :: es) := by
  have hopened : list ∈ b.openLists := by
    rw [h.openLists, listsOf, List.filter_cons_of_pos (by exact hlist)]
    exact List.mem_cons_self
  -- a tree elsewhere does not reach the list, which is open
  have hframe : ∀ {id v}, id ≠ list → b.arena.Represents id v → b'.arena.Represents id v := by
    intro id v hid hv
    refine hv.congr (S := (· ≠ list)) (fun j n hj hn => ⟨?_, ?_⟩) hid
    · rw [harena, Arena.node?_modifyChildren_of_ne hj, hn]
    · rintro c hc rfl
      exact (h.children j n hn c hc).2 hopened
  have hframes : ∀ {ids vs}, (∀ c ∈ ids, c ∉ b.openLists) →
      List.Forall₂ b.arena.Represents ids vs → List.Forall₂ b'.arena.Represents ids vs := by
    intro ids vs hids hvs
    refine ((List.forall₂_and_left _ _).2 ⟨hids, hvs⟩).imp fun c v ⟨hc, hv⟩ => hframe ?_ hv
    rintro rfl
    exact hc hopened
  have hold := h.represents _ List.mem_cons_self
  simp only [Entry.operand, Operand.tree] at hold
  rw [hu, Arena.represents_node] at hold
  obtain ⟨ids, hnode, hids⟩ := hold
  have hclosed' : ∀ c ∈ ids, c ∉ b.openLists := fun c hc => (h.children _ _ hnode c hc).2
  have hnode' : b'.arena.node? list = some (.nonterm i (before ++ ids ++ after)) := by
    rw [harena, Arena.node?_modifyChildren_self, hnode]
    rfl
  refine ⟨?_, h.nodup, ?_, ?_⟩
  · intro e he
    rcases List.mem_cons.1 he with rfl | he'
    · simp only [Entry.operand, Operand.tree, ht, Arena.represents_node]
      refine ⟨_, hnode', List.rel_append (List.rel_append ?_ (hframes hclosed' hids)) ?_⟩
      · exact hframes (fun c hc => hclosed c (List.mem_append_left _ hc)) hbefore
      · exact hframes (fun c hc => hclosed c (List.mem_append_right _ hc)) hafter
    · refine hframe ?_ (h.represents e (List.mem_cons_of_mem _ he'))
      rintro rfl
      exact (List.nodup_cons.1 h.nodup).1 (List.mem_map.2 ⟨e, he', rfl⟩)
  · rw [hopen, h.openLists, listsOf, listsOf, List.filter_cons_of_pos (by exact hlist),
      List.filter_cons_of_pos (by simp only [Entry.isList, ht])]
    rfl
  · intro id n hn c hc
    rw [harena, Arena.size_modifyChildren, hopen]
    by_cases hid : id = list
    · rw [hid, hnode'] at hn
      cases hn
      rcases List.mem_append.1 hc with hc | hc
      · rcases List.mem_append.1 hc with hc | hc
        · exact ⟨Arena.lt_size_of_mem hbefore hc, hclosed c (List.mem_append_left _ hc)⟩
        · exact h.children _ _ hnode c hc
      · exact ⟨Arena.lt_size_of_mem hafter hc, hclosed c (List.mem_append_right _ hc)⟩
    · rw [harena, Arena.node?_modifyChildren_of_ne hid] at hn
      exact h.children id n hn c hc

/-! ### Reductions -/

variable {p : Production} {t : Tree} {ps : List Entry}

theorem filter_closed {xs : List Entry} {ns : List NodeId} (hxs : ∀ e ∈ xs, e.node ∈ ns)
    (hes : ∀ e ∈ es, e.node ∉ ns) : (xs ++ es).filter (·.node ∉ ns) = es := by
  rw [List.filter_append, List.filter_eq_nil_iff.2 fun e he => by simpa using hxs e he,
    List.filter_eq_self.2 fun e he => by simpa using hes e he, List.nil_append]

theorem not_mem_closeAll (h : Holds g b es) {c : NodeId} (hc : c ∈ ps.map Entry.node) :
    c ∉ (b.closeAll (ps.map Entry.candidate)).openLists := by
  rw [(h.closeAll ps).openLists, listsOf_filter]
  intro hmem
  have := (List.mem_filter.1 hmem).2
  simp only [decide_eq_true_eq] at this
  exact this hc

theorem representsAll {a : Arena} (h : ∀ e ∈ ps, a.Represents e.node (e.operand g).tree) :
    List.Forall₂ a.Represents ((ps.map Entry.candidate).map Candidate.node)
      ((ps.map (Entry.operand g)).map Operand.tree) := by
  rw [List.map_map, List.map_map, List.forall₂_map_left_iff, List.forall₂_map_right_iff,
    List.forall₂_same]
  exact h

/-- A new list closes its members. -/
theorem openList (h : Holds g b es) (hclosed : es.filter (·.node ∉ ps.map Entry.node) = below)
    (hps : ∀ e ∈ ps, b.arena.Represents e.node (e.operand g).tree)
    (ht : t.simplify g = ⟨.node p.index ((ps.map (Entry.operand g)).map Operand.tree), true⟩) :
    Holds g (b.openList p (ps.map Entry.candidate)).2
      (⟨(b.openList p (ps.map Entry.candidate)).1, t⟩ :: below) := by
  have hnodes := representsAll hps
  rw [← arena_closeAll b (ps.map Entry.candidate)] at hnodes
  have hbelow := h.closeAll ps
  rw [hclosed] at hbelow
  refine hbelow.push rfl ?_ ?_ ?_ (n := .nonterm p.index _)
  · rw [ht]
    rfl
  · rw [ht]
    exact Arena.represents_allocNonterm hnodes
  · intro c hc
    refine ⟨Arena.lt_size_of_mem hnodes hc, h.not_mem_closeAll ?_⟩
    rwa [List.map_map] at hc

theorem represents_contribution {a : Arena} {e : Entry}
    (h : a.Represents e.node (e.operand g).tree) :
    List.Forall₂ a.Represents (contribution a p e.candidate) ((e.operand g).contribution p) := by
  have hself : List.Forall₂ a.Represents [e.node] [(e.operand g).tree] := .cons h .nil
  unfold contribution Operand.contribution
  generalize (e.operand g).tree = tree at h hself
  cases tree with
  | leaf token =>
    have hnode : a.node? e.candidate.node = some (.term token) := Arena.represents_leaf.1 h
    simp only [hnode]
    exact hself
  | node q children =>
    obtain ⟨ids, hnode, hids⟩ := Arena.represents_node.1 h
    replace hnode : a.node? e.candidate.node = some (.nonterm q ids) := hnode
    simp only [hnode]
    by_cases hmerge : p.rules.mergeChild ∧ e.candidate.production = some q
    · have hmerge' : p.rules.mergeChild ∧ (e.operand g).production = some q := hmerge
      rw [if_pos hmerge, if_pos hmerge']
      exact hids
    · have hmerge' : ¬ (p.rules.mergeChild ∧ (e.operand g).production = some q) := hmerge
      rw [if_neg hmerge, if_neg hmerge']
      exact hself

theorem mem_contribution {a : Arena} {c : Candidate} {id : NodeId} (h : id ∈ contribution a p c) :
    id = c.node ∨ ∃ n, a.node? c.node = some n ∧ id ∈ n.children := by
  unfold contribution at h
  split at h
  · rename_i hnode
    split at h
    · exact Or.inr ⟨_, hnode, h⟩
    · exact Or.inl (List.mem_singleton.1 h)
  · exact Or.inl (List.mem_singleton.1 h)

/-- A new node that is not a list closes the candidates it is made of. -/
theorem plainNode (h : Holds g b es) (hclosed : es.filter (·.node ∉ ps.map Entry.node) = below)
    (hps : ∀ e ∈ ps, b.arena.Represents e.node (e.operand g).tree)
    (ht : t.simplify g =
      ⟨.node p.index ((ps.map (Entry.operand g)).flatMap (Operand.contribution p)), false⟩) :
    Holds g (b.plainNode p (ps.map Entry.candidate)).2
      (⟨(b.plainNode p (ps.map Entry.candidate)).1, t⟩ :: below) := by
  have hnodes : List.Forall₂ b.arena.Represents
      ((ps.map Entry.candidate).flatMap (contribution b.arena p))
      ((ps.map (Entry.operand g)).flatMap (Operand.contribution p)) := by
    rw [List.flatMap_map, List.flatMap_map]
    refine List.rel_flatMap (R := fun e e' => e = e' ∧ b.arena.Represents e.node (e.operand g).tree)
      (List.forall₂_same.2 fun e he => ⟨rfl, hps e he⟩) ?_
    rintro e _ ⟨rfl, he⟩
    exact represents_contribution he
  have harena := arena_closeAll b (ps.map Entry.candidate)
  have hbelow := h.closeAll ps
  rw [hclosed] at hbelow
  refine hbelow.push rfl ?_ ?_ ?_ (n := .nonterm p.index _)
  · rw [ht]
    rfl
  · rw [ht]
    exact Arena.represents_allocNonterm (by rw [harena]; exact hnodes)
  · intro c hc
    refine ⟨by rw [harena]; exact Arena.lt_size_of_mem hnodes hc, ?_⟩
    obtain ⟨candidate, hmem, hc⟩ := List.mem_flatMap.1 hc
    obtain ⟨e, he, rfl⟩ := List.mem_map.1 hmem
    rcases mem_contribution hc with rfl | ⟨n, hn, hc⟩
    · exact h.not_mem_closeAll (List.mem_map_of_mem he)
    · exact ((h.closeAll ps).children _ n (by rw [harena]; exact hn) c hc).2

theorem represents_parts (h : Holds g b (ps.reverse ++ below)) :
    ∀ e ∈ ps, b.arena.Represents e.node (e.operand g).tree := fun e he =>
  h.represents e (List.mem_append_left _ (List.mem_reverse.2 he))

theorem not_mem_parts (h : Holds g b (ps.reverse ++ below)) :
    ∀ e ∈ below, e.node ∉ ps.map Entry.node := by
  intro e he hmem
  obtain ⟨e', he', hnode⟩ := List.mem_map.1 hmem
  have hnodup := h.nodup
  rw [List.map_append, List.nodup_append] at hnodup
  exact hnodup.2.2 _ (List.mem_map_of_mem (List.mem_reverse.2 he')) _ (List.mem_map_of_mem he) hnode

/-- The candidates of a reduction are the topmost entries, and closing all leaves the others. -/
theorem filter_parts (h : Holds g b (ps.reverse ++ below)) :
    (ps.reverse ++ below).filter (·.node ∉ ps.map Entry.node) = below :=
  filter_closed (fun _ he => List.mem_map_of_mem (List.mem_reverse.1 he)) h.not_mem_parts

/-- The same, if all but one of them are closed. -/
theorem filter_others {before after : List Entry} {list : Entry}
    (h : Holds g b ((before ++ list :: after).reverse ++ below)) :
    ((before ++ list :: after).reverse ++ below).filter
      (·.node ∉ (before ++ after).map Entry.node) = list :: below := by
  have hlist : list.node ∉ (before ++ after).map Entry.node := by
    have hnodup := h.nodup
    rw [List.map_append, List.nodup_append, List.map_reverse, List.nodup_reverse, List.map_append,
      List.map_cons, List.nodup_middle, List.nodup_cons, ← List.map_append] at hnodup
    exact hnodup.1.1
  have hbelow : ∀ e ∈ below, e.node ∉ (before ++ after).map Entry.node := by
    intro e he hmem
    refine h.not_mem_parts e he (List.map_subset _ ?_ hmem)
    exact List.append_subset.2 ⟨List.subset_append_left _ _,
      fun x hx => List.mem_append_right _ (List.mem_cons_of_mem _ hx)⟩
  have hclosed : ∀ {es : List Entry}, es ⊆ before ++ after →
      ∀ e ∈ es.reverse, e.node ∈ (before ++ after).map Entry.node := fun hes _ he =>
    List.mem_map_of_mem (hes (List.mem_reverse.1 he))
  have horder : (before ++ list :: after).reverse ++ below =
      after.reverse ++ list :: (before.reverse ++ below) := by simp
  -- from the top: those after the list, the list, those before it, and what lies below
  rw [horder, List.filter_append, List.filter_cons_of_pos (by simpa using hlist),
    filter_closed (hclosed (List.subset_append_left _ _)) hbelow,
    List.filter_eq_nil_iff.2 fun e he hkept => ?_, List.nil_append]
  exact of_decide_eq_true hkept (hclosed (List.subset_append_right _ _) e he)

/-- The topmost entry is the innermost open list exactly if it is a list. -/
theorem head?_openLists {e : Entry} (h : Holds g b (e :: es)) :
    b.openLists.head? = some e.node ↔ (e.operand g).result.isList = true := by
  rw [h.openLists, listsOf]
  cases hlist : (e.operand g).result.isList with
  | true =>
    rw [List.filter_cons_of_pos (by exact hlist)]
    exact iff_of_true rfl rfl
  | false =>
    rw [List.filter_cons_of_neg (by rw [Entry.isList]; exact Bool.eq_false_iff.1 hlist)]
    refine iff_of_false ?_ Bool.false_ne_true
    intro hhead
    exact (List.nodup_cons.1 h.nodup).1 (mem_listsOf (List.mem_of_head? hhead))

/-! ### Lists among the candidates -/

section

variable {before after : List Entry} {list : Entry}

/-- The list so far grows by the other candidates. -/
theorem growList (hg : g.Loaded) (h : Holds g b ((before ++ list :: after).reverse ++ below))
    (hproduction : (list.operand g).production = some p.index)
    (hlist : (list.operand g).result.isList = true)
    (ht : t.simplify g = ⟨.node p.index ((before.map (Entry.operand g)).map Operand.tree ++
      (list.operand g).tree.children ++ (after.map (Entry.operand g)).map Operand.tree), true⟩) :
    Holds g ((b.closeAll ((before ++ after).map Entry.candidate)).growList list.node
        (before.map Entry.candidate) (after.map Entry.candidate)).2
      (⟨list.node, t⟩ :: below) := by
  have hrest := h.closeAll (before ++ after)
  rw [h.filter_others] at hrest
  have hparts := h.represents_parts
  rw [← arena_closeAll b ((before ++ after).map Entry.candidate)] at hparts
  refine hrest.grow hlist (hg.simplify_of_isList hproduction hlist) rfl rfl ?_ ?_ ?_ ht
  · exact representsAll fun e he => hparts e (List.mem_append_left _ he)
  · exact representsAll fun e he => hparts e (List.mem_append_right _ (List.mem_cons_of_mem _ he))
  · intro c hc
    rw [← List.map_append, ← List.map_append, List.map_map] at hc
    exact h.not_mem_closeAll hc

/-- The list so far is empty: it is dropped, and the other candidates make a new list. -/
theorem dropList (hg : g.Loaded) (h : Holds g b ((before ++ list :: after).reverse ++ below))
    (hempty : (list.operand g).production.any g.isEmptyProduction = true)
    (ht : t.simplify g =
      ⟨.node p.index (((before ++ after).map (Entry.operand g)).map Operand.tree), true⟩) :
    Holds g ((b.closeAll ((before ++ after).map Entry.candidate)).openList p
        ((before ++ after).map Entry.candidate)).2
      (⟨((b.closeAll ((before ++ after).map Entry.candidate)).openList p
        ((before ++ after).map Entry.candidate)).1, t⟩ :: below) := by
  have hrest := h.closeAll (before ++ after)
  rw [h.filter_others] at hrest
  -- the other candidates are closed already
  have hclosed : (list :: below).filter (·.node ∉ (before ++ after).map Entry.node) =
      list :: below := by
    rw [← h.filter_others, List.filter_filter]
    simp only [Bool.and_self]
  have hothers : ∀ e ∈ before ++ after,
      (b.closeAll ((before ++ after).map Entry.candidate)).arena.Represents e.node
        (e.operand g).tree := by
    intro e he
    rw [arena_closeAll]
    rcases List.mem_append.1 he with he | he
    · exact h.represents_parts e (List.mem_append_left _ he)
    · exact h.represents_parts e (List.mem_append_right _ (List.mem_cons_of_mem _ he))
  -- the list that is dropped is not an open one, so it can be forgotten
  have hnot : list.isList g = false := hg.isList_of_isEmptyProduction hempty
  refine (hrest.openList hclosed hothers ht).sublist
    (.cons_cons _ (List.sublist_cons_self _ _)) ?_
  simp only [listsOf, List.filter_cons, hnot, Bool.false_eq_true, ↓reduceIte]

/-- The candidate of the production's head is no list of it: all candidates make a new list. -/
theorem nestList (h : Holds g b ((before ++ list :: after).reverse ++ below))
    (ht : t.simplify g =
      ⟨.node p.index (((before ++ list :: after).map (Entry.operand g)).map Operand.tree), true⟩) :
    Holds g ((b.closeAll ((before ++ after).map Entry.candidate)).openList p
        ((before ++ list :: after).map Entry.candidate)).2
      (⟨((b.closeAll ((before ++ after).map Entry.candidate)).openList p
        ((before ++ list :: after).map Entry.candidate)).1, t⟩ :: below) := by
  have hrest := h.closeAll (before ++ after)
  rw [h.filter_others] at hrest
  have hclosed : ([list] ++ below).filter (·.node ∉ (before ++ list :: after).map Entry.node) =
      below := by
    refine filter_closed ?_ h.not_mem_parts
    intro e he
    rw [List.mem_singleton.1 he]
    exact List.mem_map_of_mem (List.mem_append_right _ List.mem_cons_self)
  refine hrest.openList hclosed ?_ ht
  intro e he
  rw [arena_closeAll]
  exact h.represents_parts e he

/-- The list so far, with other candidates before and after it, grows, is dropped if it is empty, or
becomes a member of a new list. -/
theorem listNode_append (hg : g.Loaded)
    (h : Holds g b ((before ++ list :: after).reverse ++ below))
    (hbefore : ∀ e ∈ before, e.candidate.production.any (g.derives · p.head) = false)
    (hlist : list.candidate.production.any (g.derives · p.head) = true)
    (ht : t.simplify g =
      ⟨.node p.index (listChildren g p ((before ++ list :: after).map (Entry.operand g))), true⟩) :
    Holds g (b.listNode g p ((before ++ list :: after).map Entry.candidate)).2
      (⟨(b.listNode g p ((before ++ list :: after).map Entry.candidate)).1, t⟩ :: below) := by
  have hcs : ∀ c ∈ before.map Entry.candidate, c.production.any (g.derives · p.head) = false :=
    List.forall_mem_map.2 hbefore
  have hos : ∀ o ∈ before.map (Entry.operand g), o.production.any (g.derives · p.head) = false :=
    List.forall_mem_map.2 hbefore
  have hcandidates : (before ++ list :: after).map Entry.candidate =
      before.map Entry.candidate ++ list.candidate :: after.map Entry.candidate := by
    rw [List.map_append, List.map_cons]
  have hoperands : (before ++ list :: after).map (Entry.operand g) =
      before.map (Entry.operand g) ++ list.operand g :: after.map (Entry.operand g) := by
    rw [List.map_append, List.map_cons]
  rw [hoperands, listChildren_append hos hlist, ← hoperands, ← List.map_append] at ht
  rw [hcandidates, listNode_cut hcs hlist, ← hcandidates, ← List.map_append]
  -- the innermost open list is the first candidate of the head exactly if that is a list
  have hrest := h.closeAll (before ++ after)
  rw [h.filter_others] at hrest
  have hhead := hrest.head?_openLists
  by_cases hgrow : (list.operand g).production = some p.index ∧ (list.operand g).result.isList
  · rw [if_pos hgrow] at ht
    rw [if_pos ⟨hgrow.1, hhead.2 hgrow.2⟩]
    exact h.growList hg hgrow.1 hgrow.2 ht
  · rw [if_neg hgrow] at ht
    rw [if_neg fun hopen => hgrow ⟨hopen.1, hhead.1 hopen.2⟩]
    by_cases hempty : (list.operand g).production.any g.isEmptyProduction = true
    · have hempty' : list.candidate.production.any g.isEmptyProduction = true := hempty
      rw [if_pos hempty] at ht
      rw [if_pos hempty']
      exact h.dropList hg hempty ht
    · have hempty' : ¬ list.candidate.production.any g.isEmptyProduction = true := hempty
      rw [if_neg hempty] at ht
      rw [if_neg hempty']
      exact h.nestList ht

end

/-- A list starts or goes on. -/
theorem listNode (hg : g.Loaded) (h : Holds g b (ps.reverse ++ below))
    (ht : t.simplify g = ⟨.node p.index (listChildren g p (ps.map (Entry.operand g))), true⟩) :
    Holds g (b.listNode g p (ps.map Entry.candidate)).2
      (⟨(b.listNode g p (ps.map Entry.candidate)).1, t⟩ :: below) := by
  by_cases hnone : ∀ e ∈ ps, e.candidate.production.any (g.derives · p.head) = false
  · have hcs : ∀ c ∈ ps.map Entry.candidate, c.production.any (g.derives · p.head) = false :=
      List.forall_mem_map.2 hnone
    have hos : ∀ o ∈ ps.map (Entry.operand g), o.production.any (g.derives · p.head) = false :=
      List.forall_mem_map.2 hnone
    rw [listChildren_of_forall hos] at ht
    rw [SimplifiedBuilder.listNode_of_forall hcs]
    exact h.openList h.filter_parts h.represents_parts ht
  · obtain ⟨before, list, after, rfl, hbefore, hlist⟩ := exists_cut hnone
    exact h.listNode_append hg hbefore hlist ht

/-- Unless the only candidate is forwarded, there is a list or a plain node. -/
theorem listOrPlainNode (hg : g.Loaded) (h : Holds g b (ps.reverse ++ below))
    {r : NodeId × SimplifiedBuilder}
    (hr : r = if p.rules.listifyRecursion then b.listNode g p (ps.map Entry.candidate)
      else b.plainNode p (ps.map Entry.candidate))
    (ht : t.simplify g = if p.rules.listifyRecursion then
        ⟨.node p.index (listChildren g p (ps.map (Entry.operand g))), true⟩
      else ⟨.node p.index ((ps.map (Entry.operand g)).flatMap (Operand.contribution p)), false⟩) :
    Holds g r.2 (⟨r.1, t⟩ :: below) := by
  cases hlist : p.rules.listifyRecursion with
  | true =>
    rw [hlist, if_pos rfl] at hr ht
    rw [hr]
    exact h.listNode hg ht
  | false =>
    rw [hlist, if_neg Bool.false_ne_true] at hr ht
    rw [hr]
    exact h.plainNode h.filter_parts h.represents_parts ht

/-- **A reduction makes a node of what the tree of the production simplifies to.** -/
theorem reduce (hg : g.Loaded) (h : Holds g b (ps.reverse ++ below))
    (ht : t.simplify g = .ofOperands g p (ps.map (Entry.operand g))) :
    Holds g (b.reduce g p (ps.map Entry.candidate)).2
      (⟨(b.reduce g p (ps.map Entry.candidate)).1, t⟩ :: below) := by
  unfold Simplified.ofOperands at ht
  unfold SimplifiedBuilder.reduce
  cases hforward : p.rules.forwardChild with
  | false =>
    rw [hforward] at ht
    exact h.listOrPlainNode hg rfl ht
  | true =>
    rw [hforward] at ht
    match ps, h, ht with
    | [], h, ht => exact h.listOrPlainNode hg rfl ht
    | e :: e' :: ps, h, ht => exact h.listOrPlainNode hg rfl ht
    | [e], h, ht =>
      -- the only candidate is closed, and takes the place of the node
      have hbelow := h.closeAll [e]
      rw [h.filter_parts] at hbelow
      refine ⟨?_, h.nodup, ?_, hbelow.children⟩
      · intro e' he'
        rcases List.mem_cons.1 he' with rfl | he'
        · have he := h.represents e List.mem_cons_self
          simp only [Entry.operand, Operand.tree, ht] at he ⊢
          exact he
        · exact hbelow.represents e' he'
      · refine hbelow.openLists.trans ?_
        unfold listsOf
        rw [List.filter_cons_of_neg (by simp [Entry.isList, ht])]

end Holds

/-! ### Following the automaton -/

section

variable {items : List (Item NodeId)}

theorem isKept_of_isList {e : Entry} (h : e.isList g = true) : e.isKept g rules = true := by
  obtain ⟨node, tree⟩ := e
  cases tree with
  | leaf token => simp [Entry.isList] at h
  | node i children =>
    simp only [Entry.isKept, Tree.isFixed, Tree.origin, Origin.token?, Option.any_none,
      Bool.and_false, Bool.not_false]

/-- Tokens that are left out can be forgotten. -/
theorem Holds.filter_isKept {handles : List Entry} (h : Holds g b (handles ++ below))
    (rules : TreeRules) :
    Holds g b ((handles.reverse.filter (·.isKept g rules)).reverse ++ below) := by
  rw [List.filter_reverse, List.reverse_reverse]
  refine h.sublist (List.filter_sublist.append (List.Sublist.refl _)) ?_
  simp only [listsOf, List.filter_append, List.filter_filter]
  congr 3
  funext e
  cases hlist : e.isList g with
  | true => rw [isKept_of_isList hlist, Bool.and_self]
  | false => rfl

theorem candidates_eq (h : List.Forall₂ (fun item e => e.Of item) items es) (rules : TreeRules)
    (a : Arena) :
    candidates g rules items a = ((es.filter (·.isKept g rules)).map Entry.candidate, a) := by
  induction h with
  | nil => rfl
  | @cons item e items es hof _ ih =>
    have hfixed : isFixed g item = e.tree.isFixed g := by
      rw [isFixed, hof.origin]
      rfl
    rw [candidates, hfixed]
    cases hleft : rules.removeSingleLexeme && e.tree.isFixed g with
    | true =>
      rw [if_pos rfl, ih, List.filter_cons_of_neg (by simp only [Entry.isKept, hleft]; decide)]
    | false =>
      rw [List.filter_cons_of_pos (by simp only [Entry.isKept, hleft]; decide)]
      simp only [Bool.false_eq_true, ↓reduceIte, hof.payload, hof.origin, ih]
      rfl

theorem operands_eq (rules : TreeRules) (es : List Entry) :
    operands g rules (es.map Entry.tree) =
      (es.filter (·.isKept g rules)).map (Entry.operand g) := by
  induction es with
  | nil => simp only [List.map_nil, operands, List.filter_nil]
  | cons e es ih =>
    rw [List.map_cons, operands, ih]
    cases hleft : rules.removeSingleLexeme && e.tree.isFixed g with
    | true =>
      rw [if_pos rfl, List.filter_cons_of_neg (by simp only [Entry.isKept, hleft]; decide)]
    | false =>
      rw [if_neg Bool.false_ne_true,
        List.filter_cons_of_pos (by simp only [Entry.isKept, hleft]; decide)]
      rfl

end

/-- The builder holds the simplified trees of all items. -/
def Builds (g : Grammar) (b : SimplifiedBuilder) (items : List (Item NodeId))
    (trees : List Tree) : Prop :=
  ∃ es, List.Forall₂ (fun item e => e.Of item) items es ∧ es.map Entry.tree = trees ∧ Holds g b es

theorem tracks (hg : g.Loaded) : Tracks g (onEvent g) (Builds g) where
  shift {b p state token items trees} hbuilds hitems hlookahead := by
    obtain ⟨es, hof, rfl, hholds⟩ := hbuilds
    refine ⟨{ b with arena := (b.arena.allocTerm token).2 }, some (b.arena.allocTerm token).1, ?_,
      ⟨b.arena.size, .leaf token⟩ :: es, .cons ⟨rfl, rfl⟩ hof, rfl, ?_⟩
    · simp only [onEvent, Arena.allocShifted_eq hlookahead]
    · refine hholds.push (n := .term token) rfl ?_ ?_ nofun
      · rw [simplify_leaf]
        rfl
      · rw [simplify_leaf]
        exact Arena.represents_allocTerm token
  reduce {b p state i production handles below hs ts} hbuilds hi hlen _ hitems hreduction := by
    obtain ⟨es, hof, htrees, hholds⟩ := hbuilds
    obtain ⟨fs, rest, rfl, rfl, rfl⟩ := List.map_eq_append_iff.1 htrees
    rw [List.length_map] at hlen
    obtain ⟨hhandles, hbelow⟩ := forall₂_of_append hlen hof
    -- the builder takes the handles from the bottom up, as the children of the node are
    have hindex := hg.getElem?_index hi
    have hcandidates := candidates_eq (g := g) (List.forall₂_reverse_iff.2 hhandles)
      production.rules b.arena
    have hsimplify : (Tree.node production.index (fs.map Entry.tree).reverse).simplify g =
        .ofOperands g production
          ((fs.reverse.filter (·.isKept g production.rules)).map (Entry.operand g)) := by
      rw [simplify_node hindex, ← List.map_reverse, operands_eq]
    have hreduced := (hholds.filter_isKept production.rules).reduce hg hsimplify
    refine ⟨_, _, ?_, _, .cons ⟨rfl, rfl⟩ hbelow, rfl, hreduced⟩
    simp only [onEvent, hreduction, hindex, hcandidates]

/-- **The simplified builder computes a function of the tree.**  When a parse with the concrete
builder is accepted, so is the same parse with the simplified builder, and the tree at the root of
the latter is what the tree at the root of the former simplifies to. -/
theorem simplify_of_accept (hg : g.Loaded) {l : Lexer} {n : Nat} {c : ConcreteBuilder}
    {p : Parser NodeId}
    (h : (Parser.start g l false).runWith g ConcreteBuilder.onEvent n {} = some (.accept, c, p)) :
    ∃ b q, (Parser.start g l false).runWith g (onEvent g) n {} = some (.accept, b, q) ∧
      (c.root = none ∧ b.root = none ∨
        ∃ root t root', c.root = some root ∧ c.arena.Represents root t ∧
          b.root = some root' ∧ b.arena.Represents root' (t.simplify g).tree) := by
  have hends := ConcreteBuilder.endsAs g l n
  rw [h] at hends
  obtain ⟨d, hrun⟩ := hends.exists_accept
  obtain ⟨c', p', hresult, -, -, hroot⟩ := ConcreteBuilder.root_of_accept hrun
  rw [h] at hresult
  cases hresult
  have hinitial : Builds g {} (Parser.start g l false).items [] :=
    ⟨[], .nil, rfl, nofun, List.nodup_nil, rfl, fun id n hn => by cases hn⟩
  have hends := (tracks hg).runWith n (Parser.at_start g l) hinitial
  rw [hrun] at hends
  obtain ⟨b, q, hresult, ⟨es, hof, htrees, hholds⟩, -, -⟩ := hends
  refine ⟨_, q, hresult, ?_⟩
  -- the roots are the payloads of the topmost items
  cases hframes : d.frames with
  | nil =>
    rw [hframes] at hroot htrees
    rw [List.map_eq_nil_iff.1 htrees, List.forall₂_nil_right_iff] at hof
    refine Or.inl ⟨hroot, ?_⟩
    simp only [Parser.topPayload?, Parser.top?, hof, List.head?_nil, Option.bind_none]
  | cons f frames =>
    rw [hframes] at hroot htrees
    obtain ⟨root, hroot, hrepresents⟩ := hroot
    obtain ⟨e, rest, rfl, htree, -⟩ := List.map_eq_cons_iff.1 htrees
    obtain ⟨item, items, hitem, -, hitems⟩ := List.forall₂_cons_right_iff.1 hof
    refine Or.inr ⟨root, f.tree, e.node, hroot, hrepresents, ?_, ?_⟩
    · simp only [Parser.topPayload?, Parser.top?, hitems, List.head?_cons,
        Option.bind_some, hitem.payload]
    · rw [← htree]
      exact hholds.represents e List.mem_cons_self

set_option maxRecDepth 10000 in
/-- The list `[a,b]` of the sample grammar of lists, whose tree is flat once it is simplified.  Both
builders have a root for it. -/
theorem simplify_of_accept_list :
    ∃ g, Grammar.ofBytes Sample.lists.toBytes = .ok g ∧ ∃ c p,
      (Parser.start g (({} : Lexer).load (.owned "[a,b]")) false).runWith g ConcreteBuilder.onEvent
        20 {} = some (.accept, c, p) ∧
      ∃ b q, (Parser.start g (({} : Lexer).load (.owned "[a,b]")) false).runWith g (onEvent g)
          20 {} = some (.accept, b, q) ∧
        ∃ root t root', c.root = some root ∧ c.arena.Represents root t ∧
          b.root = some root' ∧ b.arena.Represents root' (t.simplify g).tree := by
  have hcheck : Grammar.loadsWith Sample.lists.toBytes (fun g =>
      ((Parser.start g (({} : Lexer).load (.owned "[a,b]")) false).runWith g
        ConcreteBuilder.onEvent 20 {}).any fun (event, c, _) =>
          event == .accept && c.root.isSome) = true := by
    decide +kernel
  obtain ⟨g, hload, hg⟩ := Grammar.exists_of_loadsWith hcheck
  obtain ⟨⟨event, c, p⟩, hresult, hbuilt⟩ := (Option.any_eq_true _ _).1 hg
  simp only [Bool.and_eq_true, beq_iff_eq] at hbuilt
  obtain ⟨rfl, hroot⟩ := hbuilt
  obtain ⟨b, q, hrun, ⟨hnone, -⟩ | hroots⟩ := simplify_of_accept (.ofBytes hload) hresult
  · rw [hnone] at hroot
    cases hroot
  · exact ⟨g, hload, c, p, hresult, b, q, hrun, hroots⟩

end SimplifiedBuilder

end CompiledGrammar
