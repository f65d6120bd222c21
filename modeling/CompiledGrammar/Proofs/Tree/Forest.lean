import CompiledGrammar.Proofs.Tree.Walk
import Mathlib.Data.List.Nodup
import Mathlib.Data.List.Pairwise
import Mathlib.Data.List.Perm.Subperm
import Mathlib.Logic.Relation

/-!
# Forests in an arena

The nodes below some roots are a forest (`Arena.IsForest`) if none of them is below itself and each
is reached in one way only: as one of the roots, or as one child of one node.

Numbers of nodes say nothing about that, as a child may have a larger one than its parent.  What
says it is a walk.

* `Arena.Walk` is a walk from some nodes that comes to an end, with the nodes that it comes by;
* `Arena.Unshared` says that there is one that comes by no node twice.  This is what building keeps
  up: new nodes (`Arena.Unshared.alloc`), nodes that grow in place (`Arena.Unshared.grow`), roots in
  another order or fewer of them (`Arena.Unshared.subperm`), and nodes that make way for their
  children (`Arena.Unshared.children`);
* `Arena.Unshared.isForest` concludes that there is a forest;
* `Arena.walk?` is the walk of `Arena.preorder` with nothing cut off, and `Arena.Unshared.walk?_eq`
  says that it ends by itself, after no more steps than there are nodes.
-/

namespace CompiledGrammar

theorem nodup_of_subperm {α : Type} {xs ys : List α} (h : xs.Subperm ys) (hys : ys.Nodup) :
    xs.Nodup := by
  obtain ⟨kept, hperm, hsub⟩ := h
  exact hperm.nodup_iff.1 (hys.sublist hsub)

/-- If a list is mapped to lists without repetition, an element of those comes from one place. -/
theorem eq_of_nodup_flatMap {α β : Type} {f : α → List β} {xs : List α} {x y : α} {b : β}
    (h : (xs.flatMap f).Nodup) (hx : x ∈ xs) (hy : y ∈ xs) (hbx : b ∈ f x) (hby : b ∈ f y) :
    x = y := by
  by_contra hne
  have hsymm : Std.Symm (Function.onFun List.Disjoint f) := ⟨fun _ _ hdisjoint => hdisjoint.symm⟩
  exact (List.nodup_flatMap.1 h).2.forall hx hy hne hbx hby

theorem Tree.height_pos (t : Tree) : 0 < t.height := by
  cases t <;> rw [height] <;> omega

namespace Arena

variable (a : Arena)

/-! ### Ways down -/

/-- The second node is a child of the first. -/
def IsChild (parent child : NodeId) : Prop :=
  ∃ n, a.node? parent = some n ∧ child ∈ n.children

/-- The second node is reached from the first, which may be the same. -/
def Reaches : NodeId → NodeId → Prop := Relation.ReflTransGen a.IsChild

/-- The second node is below the first. -/
def IsBelow : NodeId → NodeId → Prop := Relation.TransGen a.IsChild

/-- A node is reached from one of the roots. -/
def Live (roots : List NodeId) (id : NodeId) : Prop :=
  ∃ root ∈ roots, a.Reaches root id

/-- What is reached from the roots is a forest. -/
structure IsForest (roots : List NodeId) : Prop where
  /-- All nodes exist. -/
  exists_node : ∀ id, a.Live roots id → ∃ n, a.node? id = some n
  /-- No node is below itself. -/
  acyclic : ∀ id, a.Live roots id → ¬ a.IsBelow id id
  /-- No node is two of the roots. -/
  roots_nodup : roots.Nodup
  /-- No root is a child. -/
  root_not_child : ∀ id, a.Live roots id → ∀ root ∈ roots, ¬ a.IsChild id root
  /-- No node is two of the children of another. -/
  children_nodup : ∀ id n, a.Live roots id → a.node? id = some n → n.children.Nodup
  /-- No node is a child of two others. -/
  parent_unique : ∀ id id' child, a.Live roots id → a.Live roots id' → a.IsChild id child →
    a.IsChild id' child → id = id'

/-! ### Walks that end -/

/-- A walk that is still to visit some nodes, with the nodes it is going to come by. -/
inductive Walk : List NodeId → List NodeId → Prop where
  /-- There is nothing to visit. -/
  | nil : Walk [] []
  /-- The first node is visited, and its children before all others. -/
  | cons {id : NodeId} {n : Node} {todo ids : List NodeId} :
      a.node? id = some n → Walk (n.children ++ todo) ids → Walk (id :: todo) (id :: ids)

/-- A walk from the roots ends, and comes by no node twice. -/
def Unshared (roots : List NodeId) : Prop :=
  ∃ ids, a.Walk roots ids ∧ ids.Nodup

variable {a}

namespace Walk

variable {b : Arena} {todo ids xs ys is js : List NodeId} {id : NodeId}

theorem append (hx : a.Walk xs is) (hy : a.Walk ys js) : a.Walk (xs ++ ys) (is ++ js) := by
  induction hx with
  | nil => exact hy
  | cons hn _ ih =>
    rw [List.append_assoc] at ih
    exact .cons hn ih

/-- What is visited first is done with before the rest is visited. -/
theorem exists_append (h : a.Walk (xs ++ ys) ids) :
    ∃ is js, ids = is ++ js ∧ a.Walk xs is ∧ a.Walk ys js := by
  induction ids generalizing xs with
  | nil =>
    cases xs with
    | nil => exact ⟨[], [], rfl, .nil, h⟩
    | cons x xs => cases h
  | cons id ids ih =>
    cases xs with
    | nil => exact ⟨[], id :: ids, rfl, .nil, h⟩
    | cons x xs =>
      cases h with
      | @cons _ n _ _ hn hrest =>
        replace hrest : a.Walk (n.children ++ (xs ++ ys)) ids := hrest
        rw [← List.append_assoc] at hrest
        obtain ⟨is, js, rfl, his, hjs⟩ := ih hrest
        exact ⟨id :: is, js, rfl, .cons hn his, hjs⟩

theorem exists_cons (h : a.Walk (id :: ys) ids) :
    ∃ is js, ids = is ++ js ∧ a.Walk [id] is ∧ a.Walk ys js := by
  rw [← List.singleton_append] at h
  exact h.exists_append

/-- In another order, the same nodes are visited. -/
theorem perm (h : a.Walk xs is) (hperm : xs.Perm ys) : ∃ js, a.Walk ys js ∧ is.Perm js := by
  induction hperm generalizing is with
  | nil => exact ⟨is, h, .refl is⟩
  | cons x _ ih =>
    obtain ⟨before, after, rfl, hbefore, hafter⟩ := h.exists_cons
    obtain ⟨js, hjs, hperm⟩ := ih hafter
    exact ⟨before ++ js, hbefore.append hjs, hperm.append_left before⟩
  | swap x y rest =>
    obtain ⟨first, after, rfl, hfirst, hafter⟩ := h.exists_cons
    obtain ⟨second, after, rfl, hsecond, hafter⟩ := hafter.exists_cons
    refine ⟨second ++ (first ++ after), hsecond.append (hfirst.append hafter), ?_⟩
    rw [← List.append_assoc, ← List.append_assoc]
    exact List.perm_append_comm.append_right after
  | trans _ _ ih ih' =>
    obtain ⟨js, hjs, hperm⟩ := ih h
    obtain ⟨ks, hks, hperm'⟩ := ih' hjs
    exact ⟨ks, hks, hperm.trans hperm'⟩

/-- From fewer nodes, fewer nodes are visited. -/
theorem subperm (h : a.Walk xs is) (hsub : ys.Subperm xs) :
    ∃ js, a.Walk ys js ∧ js.Subperm is := by
  obtain ⟨kept, hperm, hsub⟩ := hsub
  obtain ⟨dropped, hxs⟩ := hsub.exists_perm_append
  obtain ⟨ks, hks, hkperm⟩ := h.perm (hxs.trans (hperm.append_right dropped))
  obtain ⟨js, rest, rfl, hjs, -⟩ := hks.exists_append
  exact ⟨js, hjs, (List.sublist_append_left js rest).subperm.trans hkperm.symm.subperm⟩

/-- A walk stays the same as long as no node changes that it comes by. -/
theorem congr (h : a.Walk todo ids) (hsame : ∀ id ∈ ids, b.node? id = a.node? id) :
    b.Walk todo ids := by
  induction h with
  | nil => exact .nil
  | cons hn _ ih =>
    obtain ⟨hfirst, hrest⟩ := List.forall_mem_cons.1 hsame
    exact .cons (hfirst.trans hn) (ih hrest)

theorem exists_node (h : a.Walk todo ids) : ∀ id ∈ ids, ∃ n, a.node? id = some n := by
  induction h with
  | nil => exact nofun
  | cons hn _ ih => exact List.forall_mem_cons.2 ⟨⟨_, hn⟩, ih⟩

theorem lt_size (h : a.Walk todo ids) : ∀ id ∈ ids, id < a.size := by
  intro id hid
  obtain ⟨n, hn⟩ := h.exists_node id hid
  exact (Array.getElem?_eq_some_iff.1 hn).1

theorem subset (h : a.Walk todo ids) : todo ⊆ ids := by
  induction h with
  | nil => exact List.Subset.refl _
  | cons _ _ ih =>
    refine List.cons_subset_cons _ fun id hid => ih (List.mem_append_right _ hid)

theorem mem_of_isChild (h : a.Walk todo ids) {id child : NodeId} (hid : id ∈ ids)
    (hchild : a.IsChild id child) : child ∈ ids := by
  induction h with
  | nil => cases hid
  | cons hn hrest ih =>
    refine List.mem_cons_of_mem _ ?_
    rcases List.mem_cons.1 hid with rfl | hid
    · obtain ⟨m, hm, hchild⟩ := hchild
      cases hn.symm.trans hm
      exact hrest.subset (List.mem_append_left _ hchild)
    · exact ih hid

theorem mem_of_reaches (h : a.Walk todo ids) {id other : NodeId} (hid : id ∈ ids)
    (hreaches : a.Reaches id other) : other ∈ ids := by
  induction hreaches with
  | refl => exact hid
  | tail _ hchild ih => exact h.mem_of_isChild ih hchild

theorem mem_of_live (h : a.Walk todo ids) (hlive : a.Live todo id) : id ∈ ids := by
  obtain ⟨root, hroot, hreaches⟩ := hlive
  exact h.mem_of_reaches (h.subset hroot) hreaches

/-- What a walk comes by is where it starts, and the children of what it comes by. -/
theorem perm_append_children (h : a.Walk todo ids) :
    ids.Perm (todo ++ ids.flatMap fun id => ((a.node? id).map Node.children).getD []) := by
  induction h with
  | nil => exact .refl _
  | @cons id n todo ids hn _ ih =>
    rw [List.flatMap_cons, hn, Option.map_some, Option.getD_some, List.cons_append]
    refine .cons id (ih.trans ?_)
    rw [List.append_assoc, ← List.append_assoc, ← List.append_assoc]
    exact List.perm_append_comm.append_right _

/-- A child is visited after its parent. -/
theorem idxOf_lt (h : a.Walk todo ids) (hnodup : ids.Nodup) {id child : NodeId} (hid : id ∈ ids)
    (hchild : a.IsChild id child) : ids.idxOf id < ids.idxOf child := by
  induction h with
  | nil => cases hid
  | @cons first n todo ids hn hrest ih =>
    obtain ⟨hfresh, hnodup⟩ := List.nodup_cons.1 hnodup
    have hlater {other : NodeId} (hother : other ∈ ids) :
        (first :: ids).idxOf other = ids.idxOf other + 1 :=
      List.idxOf_cons_ne _ fun heq => hfresh (heq ▸ hother)
    rcases List.mem_cons.1 hid with rfl | hid
    · obtain ⟨m, hm, hmem⟩ := hchild
      cases hn.symm.trans hm
      rw [hlater (hrest.subset (List.mem_append_left _ hmem)), List.idxOf_cons_self]
      exact Nat.succ_pos _
    · rw [hlater hid, hlater (hrest.mem_of_isChild hid hchild)]
      exact Nat.succ_lt_succ (ih hnodup hid)

theorem idxOf_lt_of_below (h : a.Walk todo ids) (hnodup : ids.Nodup) {id other : NodeId}
    (hid : id ∈ ids) (hbelow : a.IsBelow id other) : ids.idxOf id < ids.idxOf other := by
  induction hbelow with
  | single hchild => exact h.idxOf_lt hnodup hid hchild
  | tail hbelow hchild ih =>
    exact ih.trans (h.idxOf_lt hnodup (h.mem_of_reaches hid hbelow.to_reflTransGen) hchild)

end Walk

/-! ### Without sharing -/

namespace Unshared

variable {roots roots' below : List NodeId}

theorem nil : a.Unshared [] := ⟨[], .nil, List.nodup_nil⟩

/-- Any of the roots will do, in any order. -/
theorem subperm (h : a.Unshared roots) (hsub : roots'.Subperm roots) : a.Unshared roots' := by
  obtain ⟨ids, hwalk, hnodup⟩ := h
  obtain ⟨js, hjs, hsub⟩ := hwalk.subperm hsub
  exact ⟨js, hjs, nodup_of_subperm hsub hnodup⟩

/-- A root can make way for its children. -/
theorem children {id : NodeId} {n : Node} (h : a.Unshared (id :: below))
    (hn : a.node? id = some n) : a.Unshared (n.children ++ below) := by
  obtain ⟨ids, hwalk, hnodup⟩ := h
  cases hwalk with
  | cons hm hrest =>
    cases hm.symm.trans hn
    exact ⟨_, hrest, (List.nodup_cons.1 hnodup).2⟩

/-- Roots become children of a new one. -/
theorem alloc {n : Node} (h : a.Unshared (n.children ++ below)) :
    (a.alloc n).2.Unshared ((a.alloc n).1 :: below) := by
  obtain ⟨ids, hwalk, hnodup⟩ := h
  have hwalk' : (a.alloc n).2.Walk (n.children ++ below) ids :=
    hwalk.congr fun id hid => node?_alloc_of_lt (hwalk.lt_size id hid)
  refine ⟨_, .cons node?_alloc_self hwalk', List.nodup_cons.2 ⟨fun hmem => ?_, hnodup⟩⟩
  exact Nat.lt_irrefl _ (hwalk.lt_size _ hmem)

/-- Roots become children of another one, before and after those that it has. -/
theorem grow {list : NodeId} {before after : List NodeId}
    (h : a.Unshared (before ++ list :: after ++ below)) :
    (a.modifyChildren list fun children => before ++ children ++ after).Unshared
      (list :: below) := by
  have hfirst : (before ++ list :: after ++ below).Perm (list :: (before ++ after ++ below)) :=
    List.perm_middle.append_right below
  obtain ⟨ids, hwalk, hnodup⟩ := h.subperm hfirst.symm.subperm
  cases hwalk with
  | @cons _ n _ ids hn hrest =>
    obtain ⟨hfresh, hnodup⟩ := List.nodup_cons.1 hnodup
    have hsub : ((n.mapChildren fun children => before ++ children ++ after).children ++
        below).Subperm (n.children ++ (before ++ after ++ below)) := by
      cases n with
      | term token => exact (List.sublist_append_right (before ++ after) below).subperm
      | nonterm i children =>
        simp only [Node.mapChildren, Node.children, List.append_assoc]
        exact (List.perm_append_comm_assoc _ _ _).subperm
    obtain ⟨js, hjs, hsub⟩ := hrest.subperm hsub
    -- the node itself is not visited below what it has, nor below what it gets
    replace hfresh : list ∉ js := fun hmem => hfresh (hsub.subset hmem)
    refine ⟨list :: js, .cons ?_ (hjs.congr fun id hid => ?_),
      List.nodup_cons.2 ⟨hfresh, nodup_of_subperm hsub hnodup⟩⟩
    · rw [node?_modifyChildren_self, hn, Option.map_some]
    · exact node?_modifyChildren_of_ne fun heq => hfresh (heq ▸ hid)

/-- **What a walk without repetition comes by is a forest.** -/
theorem isForest (h : a.Unshared roots) : a.IsForest roots := by
  obtain ⟨ids, hwalk, hnodup⟩ := h
  have hall := hwalk.perm_append_children.nodup_iff.1 hnodup
  obtain ⟨hroots, hchildren, hdisjoint⟩ := List.nodup_append.1 hall
  have hmem {id child : NodeId} (hid : id ∈ ids) (hchild : a.IsChild id child) :
      child ∈ ids.flatMap fun id => ((a.node? id).map Node.children).getD [] := by
    obtain ⟨n, hn, hchild⟩ := hchild
    refine List.mem_flatMap.2 ⟨id, hid, ?_⟩
    rwa [hn]
  refine ⟨fun id hlive => hwalk.exists_node id (hwalk.mem_of_live hlive), ?_, hroots, ?_, ?_, ?_⟩
  · intro id hlive hbelow
    exact Nat.lt_irrefl _ (hwalk.idxOf_lt_of_below hnodup (hwalk.mem_of_live hlive) hbelow)
  · intro id hlive root hroot hchild
    exact hdisjoint root hroot root (hmem (hwalk.mem_of_live hlive) hchild) rfl
  · intro id n hlive hn
    have hone := (List.nodup_flatMap.1 hchildren).1 id (hwalk.mem_of_live hlive)
    rwa [hn] at hone
  · intro id id' child hlive hlive' hchild hchild'
    obtain ⟨n, hn, hmem⟩ := hchild
    obtain ⟨n', hn', hmem'⟩ := hchild'
    exact eq_of_nodup_flatMap hchildren (hwalk.mem_of_live hlive) (hwalk.mem_of_live hlive')
      (by rwa [hn]) (by rwa [hn'])

end Unshared

/-! ### Walks that nothing cuts off -/

/-- Visit nodes and all nodes below them, each with its depth, in at most so many steps.  There is
no result if the steps do not suffice, or a node does not exist. -/
def walk? (a : Arena) : Nat → List (Nat × NodeId) → Option (List (Nat × Node))
  | _, [] => some []
  | 0, _ :: _ => none
  | fuel + 1, (depth, id) :: todo => do
    let n ← a.node? id
    let visits ← walk? a fuel (n.children.map (fun child => (depth + 1, child)) ++ todo)
    return (depth, n) :: visits

/-- The children of a node have trees, which are less high. -/
theorem Represents.exists_lt_height {id child : NodeId} {n : Node} {t : Tree}
    (h : a.Represents id t) (hn : a.node? id = some n) (hchild : child ∈ n.children) :
    ∃ u, a.Represents child u ∧ u.height < t.height := by
  cases t with
  | leaf token =>
    cases hn.symm.trans (represents_leaf.1 h)
    cases hchild
  | node p trees =>
    obtain ⟨ids, hnode, hids⟩ := represents_node.1 h
    cases hn.symm.trans hnode
    obtain ⟨hlen, hall⟩ := List.forall₂_iff_get.1 hids
    obtain ⟨i, hi, rfl⟩ := List.getElem_of_mem hchild
    rw [Tree.height]
    exact ⟨trees[i], hall i hi (hlen ▸ hi),
      Nat.lt_succ_of_le (Tree.height_le_heightAll (List.getElem_mem _))⟩

/-- Steps that are not needed do no harm, and no node that has a tree lies too deep for a walk. -/
theorem Walk.walk?_eq {todo : List (Nat × NodeId)} {ids : List NodeId}
    (h : a.Walk (todo.map Prod.snd) ids)
    (htrees : ∀ v ∈ todo, ∃ t, a.Represents v.2 t ∧ v.1 + t.height ≤ a.size) {fuel : Nat}
    (hfuel : ids.length ≤ fuel) : a.walk? fuel todo = some (a.preorder todo) := by
  induction ids generalizing todo fuel with
  | nil =>
    obtain rfl : todo = [] := List.map_eq_nil_iff.1 (List.subset_nil.1 h.subset)
    rw [walk?, preorder_nil]
  | cons first ids ih =>
    cases todo with
    | nil => cases h
    | cons v todo =>
      obtain ⟨depth, id⟩ := v
      obtain ⟨⟨t, ht, hdepth⟩, hothers⟩ := List.forall_mem_cons.1 htrees
      cases fuel with
      | zero => cases hfuel
      | succ fuel =>
        generalize hstart : ((depth, id) :: todo).map Prod.snd = start at h
        cases h with
        | @cons _ n _ _ hn hrest =>
          obtain ⟨rfl, rfl⟩ := List.cons.inj hstart
          have hbelow : a.below depth n = n.children.map fun child => (depth + 1, child) :=
            if_pos (by have := t.height_pos; omega)
          have hnext : a.Walk ((a.below depth n ++ todo).map Prod.snd) ids := by
            rw [hbelow, List.map_append, List.map_map]
            exact (List.map_id n.children).symm ▸ hrest
          have hvisits := ih hnext ?_ (Nat.le_of_succ_le_succ hfuel)
          · rw [hbelow] at hvisits
            simp only [walk?, Arena.preorder_cons hn, hbelow, hvisits, hn, Option.bind_eq_bind,
              Option.bind_some, Option.pure_def]
          · intro v hv
            rcases List.mem_append.1 hv with hv | hv
            · rw [hbelow] at hv
              obtain ⟨child, hchild, rfl⟩ := List.mem_map.1 hv
              obtain ⟨u, hu, hheight⟩ := ht.exists_lt_height hn hchild
              exact ⟨u, hu, by omega⟩
            · exact hothers v hv

/-- A walk from the root of a tree needs no limit on the depth, just enough steps. -/
theorem Walk.walk?_root_eq {root : NodeId} {ids : List NodeId} {t : Tree} (h : a.Walk [root] ids)
    (ht : a.Represents root t) {fuel : Nat} (hfuel : ids.length ≤ fuel) :
    a.walk? fuel [(0, root)] = some (a.preorder [(0, root)]) := by
  replace h : a.Walk ([(0, root)].map Prod.snd) ids := h
  refine h.walk?_eq (List.forall_mem_singleton.2 ⟨t, ht, ?_⟩) hfuel
  rw [Nat.zero_add]
  exact ht.height_le_size

/-- **A walk from the root of a tree ends by itself.**  If the nodes below the root are reached in
one way only, there are enough steps for all nodes that exist, and what the walk comes by is what
the walk to a limited depth does. -/
theorem Unshared.walk?_eq {roots : List NodeId} {root : NodeId} {t : Tree} (h : a.Unshared roots)
    (hroot : root ∈ roots) (ht : a.Represents root t) {fuel : Nat} (hfuel : a.size ≤ fuel) :
    a.walk? fuel [(0, root)] = some (a.preorder [(0, root)]) := by
  obtain ⟨ids, hwalk, hnodup⟩ := h.subperm (List.singleton_subperm_iff.2 hroot)
  have hlength : ids.length ≤ a.size := by
    have hsub : ids ⊆ List.range a.size := fun id hid => List.mem_range.2 (hwalk.lt_size id hid)
    simpa using (hnodup.subperm hsub).length_le
  exact hwalk.walk?_root_eq ht (hlength.trans hfuel)

end Arena

end CompiledGrammar
