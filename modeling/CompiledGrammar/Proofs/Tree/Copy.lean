import CompiledGrammar.Proofs.Parser.Payload
import CompiledGrammar.Proofs.Tree.Simplified

/-!
# Builders that go on in a used arena

A builder that has been used before goes on behind the nodes that it has already.  What it builds
from there on is a copy of what a new one builds, with all nodes further on by the number of nodes
that were there before.

* `Arena.CopiedAt` says that an arena has a copy of another one in it.  Both hold the same trees
  (`Arena.CopiedAt.represents_iff`).
* What a builder does on an event keeps a copy a copy (`ConcreteBuilder.CopiedAt.onEvent`,
  `SimplifiedBuilder.CopiedAt.onEvent`).  The lists that the simplified builder has left open are
  older than all nodes of the copy, so they are never taken for one of its nodes.
-/

namespace CompiledGrammar

/-! ### Copies of arenas -/

/-- The node with its children further on. -/
def Node.further (k : Nat) : Node → Node :=
  Node.mapChildren (List.map (k + ·))

/-- All that is in an arena from its `k`-th node on is a copy of another arena. -/
structure Arena.CopiedAt (k : Nat) (a b : Arena) : Prop where
  /-- There are `k` other nodes. -/
  size : b.size = k + a.size
  /-- The nodes of the copy. -/
  node? : ∀ id, b.node? (k + id) = (a.node? id).map (Node.further k)

namespace Arena

variable {k : Nat} {a b : Arena}

theorem copiedAt_empty (b : Arena) : CopiedAt b.size {} b where
  size := rfl
  node? _ := Array.getElem?_eq_none (Nat.le_add_right _ _)

namespace CopiedAt

/-- A new node is copied to the next place. -/
theorem alloc (h : CopiedAt k a b) (n : Node) :
    (b.alloc (n.further k)).1 = k + (a.alloc n).1 ∧
      CopiedAt k (a.alloc n).2 (b.alloc (n.further k)).2 := by
  refine ⟨h.size, ?_, fun id => ?_⟩
  · have hsize := h.size
    simp only [Arena.size, Arena.alloc, Array.size_push] at hsize ⊢
    omega
  · have hnode := h.node? id
    have hsize := h.size
    simp only [Arena.node?, Arena.alloc, Array.getElem?_push, Arena.size] at hnode hsize ⊢
    rw [hsize]
    simp only [Nat.add_left_cancel_iff]
    split
    · rfl
    · exact hnode

theorem allocTerm (h : CopiedAt k a b) (t : Token) :
    (b.allocTerm t).1 = k + (a.allocTerm t).1 ∧
      CopiedAt k (a.allocTerm t).2 (b.allocTerm t).2 :=
  h.alloc (.term t)

theorem allocNonterm (h : CopiedAt k a b) (p : ProductionIdx) (children : List NodeId) :
    (b.allocNonterm p (children.map (k + ·))).1 = k + (a.allocNonterm p children).1 ∧
      CopiedAt k (a.allocNonterm p children).2 (b.allocNonterm p (children.map (k + ·))).2 :=
  h.alloc (.nonterm p children)

/-- A change to a node is copied, if it does to the copy what it does to the node. -/
theorem modifyChildren (h : CopiedAt k a b) (id : NodeId) {f f' : List NodeId → List NodeId}
    (hf : ∀ children, f' (children.map (k + ·)) = (f children).map (k + ·)) :
    CopiedAt k (a.modifyChildren id f) (b.modifyChildren (k + id) f') := by
  refine ⟨by rw [size_modifyChildren, size_modifyChildren, h.size], fun other => ?_⟩
  by_cases hother : other = id
  · rw [hother, node?_modifyChildren_self, node?_modifyChildren_self, h.node?, Option.map_map,
      Option.map_map]
    congr 1
    funext n
    cases n with
    | term t => rfl
    | nonterm p children => exact congrArg (Node.nonterm p) (hf children)
  · have hne : k + other ≠ k + id := fun heq => hother (Nat.add_left_cancel heq)
    rw [node?_modifyChildren_of_ne hother, node?_modifyChildren_of_ne hne, h.node?]

/-- Both arenas hold the same trees. -/
theorem represents_iff (h : CopiedAt k a b) {id : NodeId} {t : Tree} :
    b.Represents (k + id) t ↔ a.Represents id t := by
  induction t generalizing id with
  | leaf token =>
    rw [represents_leaf, represents_leaf, h.node?, Option.map_eq_some_iff]
    constructor
    · rintro ⟨n, hn, hfurther⟩
      cases n with
      | term t => rw [hn]; exact congrArg some hfurther
      | nonterm p children => cases hfurther
    · exact fun hn => ⟨_, hn, rfl⟩
  | node p children ih =>
    have hchildren : ∀ ids, List.Forall₂ b.Represents (ids.map (k + ·)) children ↔
        List.Forall₂ a.Represents ids children := by
      intro ids
      rw [List.forall₂_map_left_iff]
      induction children generalizing ids with
      | nil => rw [List.forall₂_nil_right_iff, List.forall₂_nil_right_iff]
      | cons c cs ihcs =>
        have hcs := ihcs fun c hc => ih c (List.mem_cons_of_mem _ hc)
        simp only [List.forall₂_cons_right_iff, ih c List.mem_cons_self, hcs]
    rw [represents_node, represents_node, h.node?]
    constructor
    · rintro ⟨ids, hnode, hids⟩
      obtain ⟨n, hn, hfurther⟩ := Option.map_eq_some_iff.1 hnode
      cases n with
      | term t => cases hfurther
      | nonterm q ids' =>
        cases hfurther
        exact ⟨ids', hn, (hchildren ids').1 hids⟩
    · rintro ⟨ids, hnode, hids⟩
      exact ⟨ids.map (k + ·), by rw [hnode]; rfl, (hchildren ids).2 hids⟩

end CopiedAt

end Arena

/-- The parser with its nodes further on. -/
def Parser.further (k : Nat) (p : Parser NodeId) : Parser NodeId :=
  p.mapPayload (Option.map (k + ·))

section

variable {k : Nat}

theorem Parser.setPayload_further (p : Parser NodeId) (payload : Option NodeId) :
    (p.setPayload payload).further k = (p.further k).setPayload (payload.map (k + ·)) :=
  setPayload_mapPayload p payload

theorem Parser.topPayload?_further (p : Parser NodeId) :
    (p.further k).topPayload? = p.topPayload?.map (k + ·) := by
  unfold topPayload? top? further mapPayload
  dsimp only
  cases p.items <;> rfl

theorem Arena.CopiedAt.allocShifted {a b : Arena} (h : CopiedAt k a b) (p : Parser NodeId) :
    CopiedAt k (a.allocShifted p).1 (b.allocShifted (p.further k)).1 ∧
      (b.allocShifted (p.further k)).2 = (a.allocShifted p).2.further k := by
  unfold Arena.allocShifted
  rw [show (p.further k).lookahead = p.lookahead from rfl]
  cases p.lookahead.token? with
  | none => exact ⟨h, rfl⟩
  | some token =>
    obtain ⟨hid, hcopy⟩ := h.allocTerm token
    refine ⟨hcopy, ?_⟩
    rw [Parser.setPayload_further, Option.map_some, ← hid]

end

/-! ### Concrete trees -/

namespace ConcreteBuilder

variable {k : Nat} {b b' : ConcreteBuilder}

/-- The arena of one builder has a copy of that of the other in it. -/
def CopiedAt (k : Nat) (b b' : ConcreteBuilder) : Prop :=
  Arena.CopiedAt k b.arena b'.arena

theorem CopiedAt.onEvent (h : CopiedAt k b b') (event : Event) (p : Parser NodeId) :
    CopiedAt k (ConcreteBuilder.onEvent event b p).1
        (ConcreteBuilder.onEvent event b' (p.further k)).1 ∧
      (ConcreteBuilder.onEvent event b' (p.further k)).2 =
        (ConcreteBuilder.onEvent event b p).2.further k := by
  cases event with
  | shift => exact h.allocShifted p
  | reduce =>
    simp only [ConcreteBuilder.onEvent]
    rw [show (p.further k).reduction = p.reduction.map (·.mapPayload (Option.map (k + ·))) from rfl]
    cases p.reduction with
    | none => exact ⟨h, rfl⟩
    | some r =>
      have hpayloads : (r.handles.map (·.mapPayload (Option.map (k + ·)))).filterMap Item.payload =
          (r.handles.filterMap Item.payload).map (k + ·) := by
        rw [List.filterMap_map, List.map_filterMap]
        rfl
      obtain ⟨hid, hcopy⟩ := Arena.CopiedAt.allocNonterm h r.production
        (r.handles.filterMap Item.payload)
      simp only [Option.map_some, Reduction.mapPayload, hpayloads]
      refine ⟨hcopy, ?_⟩
      rw [Parser.setPayload_further, Option.map_some, ← hid]
  | accept => exact ⟨h, rfl⟩
  | reduceEliminated => exact ⟨h, rfl⟩
  | error => exact ⟨h, rfl⟩

end ConcreteBuilder

/-! ### Simplified trees -/

/-- The candidate with its node further on. -/
def Candidate.further (k : Nat) (c : Candidate) : Candidate :=
  ⟨c.production, k + c.node⟩

namespace SimplifiedBuilder

variable {k : Nat} {b b' : SimplifiedBuilder} {g : Grammar} (production : Production)

/-- The arena of one builder has a copy of that of the other in it, and so have its open lists.  The
others that it has are older than the copy. -/
structure CopiedAt (k : Nat) (b b' : SimplifiedBuilder) : Prop where
  arena : Arena.CopiedAt k b.arena b'.arena
  openLists : ∃ older, b'.openLists = b.openLists.map (k + ·) ++ older ∧ ∀ id ∈ older, id < k

/-- The same for builders that have made a node. -/
structure MakesCopy (k : Nat) (made made' : NodeId × SimplifiedBuilder) : Prop where
  node : made'.1 = k + made.1
  builder : CopiedAt k made.2 made'.2

theorem candidates_further (rules : TreeRules) (items : List (Item NodeId)) {a a' : Arena}
    (h : Arena.CopiedAt k a a') :
    (candidates g rules (items.map (·.mapPayload (Option.map (k + ·)))) a').1 =
        (candidates g rules items a).1.map (Candidate.further k) ∧
      Arena.CopiedAt k (candidates g rules items a).2
        (candidates g rules (items.map (·.mapPayload (Option.map (k + ·)))) a').2 := by
  induction items generalizing a a' with
  | nil => exact ⟨rfl, h⟩
  | cons item items ih =>
    obtain ⟨state, origin, payload⟩ := item
    rw [List.map_cons, candidates, candidates,
      show isFixed g (Item.mapPayload _ _) = isFixed g ⟨state, origin, payload⟩ from rfl]
    by_cases hfixed : (rules.removeSingleLexeme && isFixed g ⟨state, origin, payload⟩) = true
    · rw [if_pos hfixed, if_pos hfixed]
      exact ih h
    · rw [if_neg hfixed, if_neg hfixed]
      cases payload with
      | some node =>
        obtain ⟨hcandidates, hcopy⟩ := ih h
        exact ⟨congrArg (_ :: ·) hcandidates, hcopy⟩
      | none =>
        simp only [Item.mapPayload, Option.map_none]
        cases origin.token? with
        | none => exact ih h
        | some token =>
          -- the new node is copied first, and then what comes after it
          obtain ⟨hid, hcopy⟩ := h.allocTerm token
          obtain ⟨hcandidates, hcopy⟩ := ih hcopy
          refine ⟨?_, hcopy⟩
          simp only [List.map_cons, Candidate.further]
          rw [← hid]
          exact congrArg (_ :: ·) hcandidates

namespace CopiedAt

theorem close (h : CopiedAt k b b') (node : NodeId) :
    CopiedAt k (b.close node) (b'.close (k + node)) := by
  obtain ⟨older, hlists, holder⟩ := h.openLists
  have hinjective : Function.Injective (k + · : NodeId → NodeId) := fun _ _ => Nat.add_left_cancel
  have hnew : k + node ∉ older := fun hmem => Nat.not_lt.2 (Nat.le_add_right k node) (holder _ hmem)
  refine ⟨h.arena, older, ?_, holder⟩
  simp only [SimplifiedBuilder.close, hlists, List.map_erase hinjective]
  by_cases hopen : k + node ∈ b.openLists.map (k + ·)
  · exact List.erase_append_left _ hopen
  · rw [List.erase_append_right _ hopen, List.erase_of_not_mem hnew, List.erase_of_not_mem hopen]

theorem closeAll (h : CopiedAt k b b') (cs : List Candidate) :
    CopiedAt k (b.closeAll cs) (b'.closeAll (cs.map (Candidate.further k))) := by
  induction cs generalizing b b' with
  | nil => exact h
  | cons c cs ih => exact ih (h.close c.node)

theorem allocNode (h : CopiedAt k b b') (children : List NodeId) :
    MakesCopy k (b.allocNode production children)
      (b'.allocNode production (children.map (k + ·))) := by
  obtain ⟨hid, hcopy⟩ := h.arena.allocNonterm production.index children
  exact ⟨hid, hcopy, h.openLists⟩

theorem map_node_further (cs : List Candidate) :
    (cs.map (Candidate.further k)).map Candidate.node = (cs.map Candidate.node).map (k + ·) := by
  rw [List.map_map, List.map_map]
  rfl

theorem openList (h : CopiedAt k b b') (cs : List Candidate) :
    MakesCopy k (b.openList production cs)
      (b'.openList production (cs.map (Candidate.further k))) := by
  have hmade := (h.closeAll cs).allocNode production (cs.map Candidate.node)
  obtain ⟨older, hlists, holder⟩ := hmade.builder.openLists
  rw [← map_node_further] at hmade hlists
  exact ⟨hmade.node, hmade.builder.arena, older, congrArg₂ List.cons hmade.node hlists, holder⟩

theorem growList (h : CopiedAt k b b') (list : NodeId) (before after : List Candidate) :
    MakesCopy k (b.growList list before after)
      (b'.growList (k + list) (before.map (Candidate.further k))
        (after.map (Candidate.further k))) := by
  refine ⟨rfl, h.arena.modifyChildren list fun children => ?_, h.openLists⟩
  simp only [map_node_further, List.map_append]

theorem head?_openLists (h : CopiedAt k b b') (node : NodeId) :
    b'.openLists.head? = some (k + node) ↔ b.openLists.head? = some node := by
  obtain ⟨older, hlists, holder⟩ := h.openLists
  rw [hlists]
  cases b.openLists with
  | nil =>
    refine ⟨fun hhead => ?_, nofun⟩
    exact absurd (holder _ (List.mem_of_head? hhead)) (Nat.not_lt.2 (Nat.le_add_right k node))
  | cons list lists =>
    simp only [List.map_cons, List.cons_append, List.head?_cons, Option.some.injEq,
      Nat.add_left_cancel_iff]

/-- The list so far is copied, and what becomes of it depends on nothing else. -/
theorem listNode_append (h : CopiedAt k b b') {before after : List Candidate} {list : Candidate}
    (hbefore : ∀ c ∈ before, c.production.any (g.derives · production.head) = false)
    (hlist : list.production.any (g.derives · production.head) = true) :
    MakesCopy k (b.listNode g production (before ++ list :: after))
      (b'.listNode g production ((before ++ list :: after).map (Candidate.further k))) := by
  have hbefore' : ∀ c ∈ before.map (Candidate.further k),
      c.production.any (g.derives · production.head) = false :=
    List.forall_mem_map.2 hbefore
  have hlist' : (list.further k).production.any (g.derives · production.head) = true := hlist
  have hrest := h.closeAll (before ++ after)
  have hhead := hrest.head?_openLists list.node
  rw [List.map_append, List.map_cons, SimplifiedBuilder.listNode_cut hbefore hlist,
    SimplifiedBuilder.listNode_cut hbefore' hlist', ← List.map_append]
  by_cases hgrow : list.production = some production.index ∧
      (b.closeAll (before ++ after)).openLists.head? = some list.node
  · rw [if_pos hgrow, if_pos ⟨hgrow.1, hhead.2 hgrow.2⟩]
    exact hrest.growList list.node before after
  · have hgrow' : ¬ ((list.further k).production = some production.index ∧
        (b'.closeAll ((before ++ after).map (Candidate.further k))).openLists.head? =
          some (list.further k).node) :=
      fun hopen => hgrow ⟨hopen.1, hhead.1 hopen.2⟩
    rw [if_neg hgrow, if_neg hgrow', show (list.further k).production = list.production from rfl]
    split
    · exact hrest.openList production (before ++ after)
    · rw [← List.map_cons, ← List.map_append]
      exact hrest.openList production (before ++ list :: after)

theorem listNode (h : CopiedAt k b b') (cs : List Candidate) :
    MakesCopy k (b.listNode g production cs)
      (b'.listNode g production (cs.map (Candidate.further k))) := by
  by_cases hnone : ∀ c ∈ cs, c.production.any (g.derives · production.head) = false
  · have hnone' : ∀ c ∈ cs.map (Candidate.further k),
        c.production.any (g.derives · production.head) = false :=
      List.forall_mem_map.2 hnone
    rw [SimplifiedBuilder.listNode_of_forall hnone, SimplifiedBuilder.listNode_of_forall hnone']
    exact h.openList production cs
  · obtain ⟨before, list, after, rfl, hbefore, hlist⟩ := exists_cut hnone
    exact h.listNode_append production hbefore hlist

theorem contribution (h : CopiedAt k b b') (c : Candidate) :
    SimplifiedBuilder.contribution b'.arena production (c.further k) =
      (SimplifiedBuilder.contribution b.arena production c).map (k + ·) := by
  unfold SimplifiedBuilder.contribution
  rw [show (c.further k).node = k + c.node from rfl, h.arena.node?]
  cases b.arena.node? c.node with
  | none => rfl
  | some n =>
    cases n with
    | term t => rfl
    | nonterm q children =>
      rw [show (c.further k).production = c.production from rfl]
      simp only [Option.map_some, Node.further, Node.mapChildren]
      split <;> rfl

theorem plainNode (h : CopiedAt k b b') (cs : List Candidate) :
    MakesCopy k (b.plainNode production cs)
      (b'.plainNode production (cs.map (Candidate.further k))) := by
  have hmade := (h.closeAll cs).allocNode production
    (cs.flatMap (SimplifiedBuilder.contribution b.arena production))
  have hchildren : (cs.map (Candidate.further k)).flatMap
      (SimplifiedBuilder.contribution b'.arena production) =
        (cs.flatMap (SimplifiedBuilder.contribution b.arena production)).map (k + ·) := by
    rw [List.flatMap_map, List.map_flatMap]
    exact congrArg (cs.flatMap ·) (funext (h.contribution production))
  unfold SimplifiedBuilder.plainNode
  rw [hchildren]
  exact hmade

theorem reduce (h : CopiedAt k b b') (cs : List Candidate) :
    MakesCopy k (b.reduce g production cs)
      (b'.reduce g production (cs.map (Candidate.further k))) := by
  have hlistOrPlain : MakesCopy k
      (if production.rules.listifyRecursion then b.listNode g production cs
        else b.plainNode production cs)
      (if production.rules.listifyRecursion then
        b'.listNode g production (cs.map (Candidate.further k))
        else b'.plainNode production (cs.map (Candidate.further k))) := by
    split
    · exact h.listNode production cs
    · exact h.plainNode production cs
  unfold SimplifiedBuilder.reduce
  cases production.rules.forwardChild with
  | false => exact hlistOrPlain
  | true =>
    match cs, hlistOrPlain with
    | [], hlistOrPlain => exact hlistOrPlain
    | [c], _ => exact ⟨rfl, h.close c.node⟩
    | _ :: _ :: _, hlistOrPlain => exact hlistOrPlain

theorem onEvent (h : CopiedAt k b b') (event : Event) (p : Parser NodeId) :
    CopiedAt k (SimplifiedBuilder.onEvent g event b p).1
        (SimplifiedBuilder.onEvent g event b' (p.further k)).1 ∧
      (SimplifiedBuilder.onEvent g event b' (p.further k)).2 =
        (SimplifiedBuilder.onEvent g event b p).2.further k := by
  cases event with
  | shift =>
    obtain ⟨hcopy, hparser⟩ := h.arena.allocShifted p
    exact ⟨⟨hcopy, h.openLists⟩, hparser⟩
  | reduce =>
    simp only [SimplifiedBuilder.onEvent]
    rw [show (p.further k).reduction = p.reduction.map (·.mapPayload (Option.map (k + ·))) from rfl]
    cases p.reduction with
    | none => exact ⟨h, rfl⟩
    | some r =>
      simp only [Option.map_some, Reduction.mapPayload]
      cases g.productions[r.production]? with
      | none => exact ⟨h, rfl⟩
      | some production =>
        obtain ⟨hcandidates, hcopy⟩ :=
          candidates_further (g := g) production.rules r.handles h.arena
        have hnew : CopiedAt k
            { b with arena := (candidates g production.rules r.handles b.arena).2 }
            { b' with arena := (candidates g production.rules _ b'.arena).2 } :=
          ⟨hcopy, h.openLists⟩
        have hmade := hnew.reduce (g := g) production
          (candidates g production.rules r.handles b.arena).1
        rw [← hcandidates] at hmade
        refine ⟨hmade.builder, ?_⟩
        rw [Parser.setPayload_further, Option.map_some, ← hmade.node]
  | accept => exact ⟨⟨h.arena, [], rfl, List.forall_mem_nil _⟩, rfl⟩
  | reduceEliminated => exact ⟨h, rfl⟩
  | error => exact ⟨h, rfl⟩

end CopiedAt

/-! ### Open lists in an arena -/

/-- Open lists are nodes. -/
def ListsAreNodes (b : SimplifiedBuilder) : Prop :=
  ∀ id ∈ b.openLists, id < b.arena.size

namespace ListsAreNodes

/-- A builder that goes on has a copy of nothing in it. -/
theorem copiedAt (h : b.ListsAreNodes) : CopiedAt b.arena.size {} b :=
  ⟨Arena.copiedAt_empty b.arena, b.openLists, rfl, h⟩

theorem closeAll (h : b.ListsAreNodes) (cs : List Candidate) : (b.closeAll cs).ListsAreNodes := by
  intro id hid
  rw [Holds.openLists_closeAll] at hid
  rw [Holds.arena_closeAll]
  exact h id (List.diff_subset _ _ hid)

theorem allocNode (h : b.ListsAreNodes) (children : List NodeId) :
    (b.allocNode production children).2.ListsAreNodes :=
  fun id hid => Nat.lt_of_lt_of_le (h id hid) (Arena.size_le_alloc _ _)

theorem openList (h : b.ListsAreNodes) (cs : List Candidate) :
    (b.openList production cs).2.ListsAreNodes := by
  have hmade := (h.closeAll cs).allocNode production (cs.map Candidate.node)
  exact List.forall_mem_cons.2 ⟨Arena.fst_alloc_lt_size _ _, hmade⟩

theorem growList (h : b.ListsAreNodes) (list : NodeId) (before after : List Candidate) :
    (b.growList list before after).2.ListsAreNodes := by
  intro id hid
  rw [SimplifiedBuilder.growList, Arena.size_modifyChildren]
  exact h id hid

theorem listNode (h : b.ListsAreNodes) (cs : List Candidate) :
    (b.listNode g production cs).2.ListsAreNodes := by
  unfold SimplifiedBuilder.listNode
  dsimp only
  split
  · exact h.openList production cs
  · split
    · exact (h.closeAll _).growList _ _ _
    · split
      · exact (h.closeAll _).openList production _
      · exact (h.closeAll _).openList production cs

theorem reduce (h : b.ListsAreNodes) (cs : List Candidate) :
    (b.reduce g production cs).2.ListsAreNodes := by
  unfold SimplifiedBuilder.reduce
  split
  · exact h.closeAll [_]
  · split
    · exact h.listNode production _
    · exact (h.closeAll _).allocNode production _

theorem size_candidates_le (rules : TreeRules) (items : List (Item NodeId)) (a : Arena) :
    a.size ≤ (candidates g rules items a).2.size := by
  induction items generalizing a with
  | nil => exact Nat.le_refl _
  | cons item items ih =>
    unfold candidates
    split
    · exact ih a
    · split
      · exact ih a
      · exact Nat.le_trans (Arena.size_le_alloc a _) (ih _)
      · exact ih a

theorem onEvent (h : b.ListsAreNodes) (event : Event) (p : Parser NodeId) :
    (SimplifiedBuilder.onEvent g event b p).1.ListsAreNodes := by
  cases event with
  | shift =>
    simp only [SimplifiedBuilder.onEvent, Arena.allocShifted]
    split
    · exact fun id hid => Nat.lt_of_lt_of_le (h id hid) (Arena.size_le_alloc _ _)
    · exact h
  | reduce =>
    simp only [SimplifiedBuilder.onEvent]
    cases p.reduction with
    | none => exact h
    | some r =>
      dsimp only
      cases g.productions[r.production]? with
      | none => exact h
      | some production =>
        have hnew : ListsAreNodes
            { b with arena := (candidates g production.rules r.handles b.arena).2 } :=
          fun id hid => Nat.lt_of_lt_of_le (h id hid) (size_candidates_le _ _ _)
        exact hnew.reduce production _
  | accept => exact List.forall_mem_nil _
  | reduceEliminated => exact h
  | error => exact h

end ListsAreNodes

end SimplifiedBuilder

end CompiledGrammar
