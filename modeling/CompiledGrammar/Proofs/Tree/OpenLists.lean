import CompiledGrammar.Proofs.Lalr.Stack
import CompiledGrammar.Proofs.Parser.Prefix
import CompiledGrammar.Proofs.Tree.Forest
import CompiledGrammar.Proofs.Tree.Trimmed

/-!
# Open lists grow alone

The simplified builder lets nodes grow in place, and merging copies the children of a node into
another one, which leaves the first behind with the same children.  Still, nothing that is below the
stack is shared.

* `SimplifiedBuilder.Change` says once what a reduction does to the arena, and
  `SimplifiedBuilder.change_reduce` that it does nothing else.  From that follows that the payloads
  of the stack stay the roots of a forest (`SimplifiedBuilder.Change.unshared`), and that only an
  open list grows (`SimplifiedBuilder.Change.growsOneOf`);
* an open list is no child of any node, so no other tree grows along with it
  (`Arena.GrowsOneOf.below`);
* `SimplifiedBuilder.forest_after` sums up what holds at every point of a run.
-/

namespace CompiledGrammar

theorem Parser.payload_eq_of_setPayload_eq {τ : Type} {p : Parser τ} {item : Item τ}
    {items : List (Item τ)} {payload payload' : Option τ} (hitems : p.items = item :: items)
    (h : p.setPayload payload = p.setPayload payload') : payload = payload' := by
  have hsame := congrArg Parser.items h
  rw [items_setPayload hitems, items_setPayload hitems] at hsame
  exact congrArg Item.payload (List.cons.inj hsame).1

namespace Arena

variable {a a' : Arena} {lists : List NodeId}

theorem node?_alloc_of_eq_some {id : NodeId} {n : Node} (h : a.node? id = some n) (m : Node) :
    (a.alloc m).2.node? id = some n :=
  (node?_alloc_of_lt (Array.getElem?_eq_some_iff.1 h).1).trans h

/-- All nodes of the first arena are the same in the second, except for one of the given lists. -/
def GrowsOneOf (a : Arena) (lists : List NodeId) (a' : Arena) : Prop :=
  ∃ grown : Option NodeId, (∀ list ∈ grown, list ∈ lists) ∧
    ∀ id n, a.node? id = some n → grown ≠ some id → a'.node? id = some n

namespace GrowsOneOf

theorem refl : a.GrowsOneOf lists a := ⟨none, nofun, fun _ _ hn _ => hn⟩

theorem alloc (n : Node) : a.GrowsOneOf lists (a.alloc n).2 :=
  ⟨none, nofun, fun _ _ hm _ => node?_alloc_of_eq_some hm n⟩

/-- If the lists are not below any node, all that is reached from any other node stays the same. -/
theorem below (h : a.GrowsOneOf lists a')
    (hchildren : ∀ id n, a.node? id = some n → ∀ c ∈ n.children, c < a.size ∧ c ∉ lists) :
    ∃ grown : Option NodeId, (∀ list ∈ grown, list ∈ lists) ∧
      ∀ id other, id < a.size → grown ≠ some id → a.Reaches id other →
        ∃ n, a.node? other = some n ∧ a'.node? other = some n := by
  obtain ⟨grown, hlists, hkept⟩ := h
  refine ⟨grown, hlists, fun id other hid hne hreaches => ?_⟩
  have hother : other < a.size ∧ grown ≠ some other := by
    cases hreaches with
    | refl => exact ⟨hid, hne⟩
    | tail _ hchild =>
      obtain ⟨n, hn, hmem⟩ := hchild
      obtain ⟨hlt, hclosed⟩ := hchildren _ n hn _ hmem
      exact ⟨hlt, fun hgrown => hclosed (hlists _ hgrown)⟩
  have hn : a.node? other = some _ := Array.getElem?_eq_getElem hother.1
  exact ⟨_, hn, hkept other _ hn hother.2⟩

end GrowsOneOf

end Arena

namespace SimplifiedBuilder

variable {g : Grammar} {b : SimplifiedBuilder} {p : Production} {cs : List Candidate}

/-! ### What a reduction does to the arena -/

/-- What a reduction of candidates can do to the arena, with the node that it makes. -/
inductive Change (b : SimplifiedBuilder) (p : Production) (cs : List Candidate) :
    NodeId → Arena → Prop where
  /-- The only candidate is forwarded. -/
  | forward {c : Candidate} : cs = [c] → Change b p cs c.node b.arena
  /-- An open list among the candidates grows by the others. -/
  | grow {before after : List Candidate} {list : Candidate} :
      cs = before ++ list :: after → list.node ∈ b.openLists →
      Change b p cs list.node (b.arena.modifyChildren list.node fun children =>
        before.map Candidate.node ++ children ++ after.map Candidate.node)
  /-- There is a new list, of all candidates or all but one. -/
  | list {kept : List Candidate} :
      kept.Sublist cs →
      Change b p cs (b.arena.allocNonterm p.index (kept.map Candidate.node)).1
        (b.arena.allocNonterm p.index (kept.map Candidate.node)).2
  /-- There is a new node that is no list. -/
  | plain :
      Change b p cs (b.arena.allocNonterm p.index (cs.flatMap (contribution b.arena p))).1
        (b.arena.allocNonterm p.index (cs.flatMap (contribution b.arena p))).2

theorem change_openList (others : List Candidate) {kept : List Candidate}
    (hkept : kept.Sublist cs) :
    Change b p cs ((b.closeAll others).openList p kept).1
      ((b.closeAll others).openList p kept).2.arena := by
  simp only [openList, allocNode, Holds.arena_closeAll]
  exact .list hkept

theorem change_listNode : Change b p cs (b.listNode g p cs).1 (b.listNode g p cs).2.arena := by
  by_cases hnone : ∀ c ∈ cs, c.production.any (g.derives · p.head) = false
  · rw [listNode_of_forall hnone]
    exact change_openList [] (List.Sublist.refl cs)
  · obtain ⟨before, list, after, rfl, hbefore, hlist⟩ := exists_cut hnone
    rw [listNode_cut hbefore hlist]
    split
    · rename_i hgrow
      have hopen : list.node ∈ b.openLists := by
        have hmem := List.mem_of_head? hgrow.2
        rw [Holds.openLists_closeAll] at hmem
        exact List.diff_subset _ _ hmem
      simp only [growList, Holds.arena_closeAll]
      exact .grow rfl hopen
    · split
      · exact change_openList _ ((List.Sublist.refl before).append (List.sublist_cons_self _ _))
      · exact change_openList _ (List.Sublist.refl _)

/-- A reduction does nothing else. -/
theorem change_reduce : Change b p cs (b.reduce g p cs).1 (b.reduce g p cs).2.arena := by
  unfold reduce
  split
  · exact .forward rfl
  · split
    · exact change_listNode
    · simp only [plainNode, allocNode, Holds.arena_closeAll]
      exact .plain

/-! ### Nothing is shared -/

/-- What candidates contribute to a node is not shared. -/
theorem unshared_contributions {a : Arena} {below : List NodeId}
    (h : a.Unshared (cs.map Candidate.node ++ below)) :
    a.Unshared (cs.flatMap (contribution a p) ++ below) := by
  induction cs generalizing below with
  | nil => exact h
  | cons c cs ih =>
    have hfirst : a.Unshared (contribution a p c ++ (cs.map Candidate.node ++ below)) := by
      unfold contribution
      split
      · rename_i q children hnode
        split
        · exact h.children hnode
        · exact h
      · exact h
    -- the first one waits below while the others contribute
    have hothers := ih (hfirst.subperm (List.perm_append_comm_assoc _ _ _).subperm)
    refine hothers.subperm ?_
    rw [List.flatMap_cons, List.append_assoc]
    exact (List.perm_append_comm_assoc _ _ _).subperm

namespace Change

variable {node : NodeId} {a : Arena}

/-- The new node takes the place of the candidates among the roots of a forest. -/
theorem unshared {below : List NodeId} (hchange : Change b p cs node a)
    (h : b.arena.Unshared (cs.map Candidate.node ++ below)) : a.Unshared (node :: below) := by
  cases hchange with
  | forward hcs =>
    rw [hcs] at h
    exact h
  | grow hcs _ =>
    rw [hcs, List.map_append, List.map_cons] at h
    exact h.grow
  | list hkept =>
    exact (h.subperm ((hkept.map _).append_right below).subperm).alloc (n := .nonterm p.index _)
  | plain => exact (unshared_contributions h).alloc (n := .nonterm p.index _)

/-- Of the nodes that there are, at most one grows, and that is an open list. -/
theorem growsOneOf (hchange : Change b p cs node a) : b.arena.GrowsOneOf b.openLists a := by
  cases hchange with
  | forward _ => exact .refl
  | @grow _ _ list _ hopen =>
    refine ⟨some list.node, fun id hid => Option.mem_some.1 hid ▸ hopen, fun id n hn hne => ?_⟩
    rw [Arena.node?_modifyChildren_of_ne fun heq => hne (congrArg some heq.symm), hn]
  | list _ => exact .alloc _
  | plain => exact .alloc _

end Change

/-! ### What an event does -/

theorem growsOneOf_reduce (b : SimplifiedBuilder) (p : Production) (cs : List Candidate) :
    b.arena.GrowsOneOf b.openLists (b.reduce g p cs).2.arena :=
  change_reduce.growsOneOf

theorem node?_candidates {rules : TreeRules} {items : List (Item NodeId)} {a : Arena} {id : NodeId}
    {n : Node} (hn : a.node? id = some n) :
    (candidates g rules items a).2.node? id = some n := by
  induction items generalizing a with
  | nil => exact hn
  | cons item items ih =>
    rw [candidates]
    split
    · exact ih hn
    · split
      · exact ih hn
      · exact ih (Arena.node?_alloc_of_eq_some hn _)
      · exact ih hn

/-- Whatever the event, of the nodes that there are at most one grows, and that is an open list. -/
theorem growsOneOf_onEvent (event : Event) (b : SimplifiedBuilder) (p : Parser NodeId) :
    b.arena.GrowsOneOf b.openLists (onEvent g event b p).1.arena := by
  cases event with
  | shift =>
    dsimp only [onEvent, Arena.allocShifted]
    cases p.lookahead.token? with
    | none => exact .refl
    | some token => exact .alloc _
  | reduce =>
    dsimp only [onEvent]
    cases p.reduction with
    | none => exact .refl
    | some r =>
      dsimp only
      cases g.productions[r.production]? with
      | none => exact .refl
      | some production =>
        obtain ⟨grown, hopen, hkept⟩ := growsOneOf_reduce (g := g)
          { b with arena := (candidates g production.rules r.handles b.arena).2 } production
          (candidates g production.rules r.handles b.arena).1
        exact ⟨grown, hopen, fun id n hn hne => hkept id n (node?_candidates hn) hne⟩
  | accept => exact .refl
  | reduceEliminated => exact .refl
  | error => exact .refl

/-! ### Following a run -/

/-- What holds of the nodes at every point of a run. -/
structure Keeps (b : SimplifiedBuilder) (items : List (Item NodeId)) : Prop where
  /-- The payloads are the roots of a forest. -/
  unshared : b.arena.Unshared (items.filterMap Item.payload)
  /-- They have trees. -/
  represents : ∀ id ∈ items.filterMap Item.payload, ∃ t, b.arena.Represents id t
  /-- Open lists are among them, in the same order. -/
  openLists : b.openLists.Sublist (items.filterMap Item.payload)
  /-- What is below a node is there and is not an open list. -/
  children : ∀ id n, b.arena.node? id = some n →
    ∀ c ∈ n.children, c < b.arena.size ∧ c ∉ b.openLists

theorem filterMap_payload {items : List (Item NodeId)} {es : List Entry}
    (h : List.Forall₂ (fun item e => e.Of item) items es) :
    items.filterMap Item.payload = es.map Entry.node := by
  induction h with
  | nil => rfl
  | cons he _ ih => rw [List.filterMap_cons_some he.payload, ih, List.map_cons]

theorem Builds.keeps {items : List (Item NodeId)} {trees : List Tree} (h : Builds g b items trees)
    (hunshared : b.arena.Unshared (items.filterMap Item.payload)) : b.Keeps items := by
  obtain ⟨es, hof, -, hholds⟩ := h
  refine ⟨hunshared, ?_, ?_, hholds.children⟩
  · rw [filterMap_payload hof]
    exact List.forall_mem_map.2 fun e he => ⟨_, hholds.represents e he⟩
  · rw [filterMap_payload hof, hholds.openLists]
    exact List.filter_sublist.map _

/-- The builder builds, and its nodes are not shared. -/
def BuildsForest (g : Grammar) (b : SimplifiedBuilder) (items : List (Item NodeId))
    (trees : List Tree) : Prop :=
  Builds g b items trees ∧ b.arena.Unshared (items.filterMap Item.payload)

theorem watches_forest (hg : g.Loaded) :
    Watches g (onEvent g) (BuildsForest g) fun b items _ => b.Keeps items where
  tracks.shift {b p state token items trees} h hitems hlookahead := by
    obtain ⟨hbuilds, hunshared⟩ := h
    obtain ⟨b', payload, hevent, hbuilds'⟩ := (tracks hg).shift hbuilds hitems hlookahead
    refine ⟨b', payload, hevent, hbuilds', ?_⟩
    simp only [onEvent, Arena.allocShifted_eq hlookahead] at hevent
    obtain ⟨rfl, hpayload⟩ := Prod.mk.inj hevent
    obtain rfl := Parser.payload_eq_of_setPayload_eq hitems hpayload
    exact hunshared.alloc (n := .term token)
  tracks.reduce {b p state i production handles below hs ts} h hi hlen hn hitems hreduction := by
    obtain ⟨hbuilds, hunshared⟩ := h
    obtain ⟨b', payload, hevent, hbuilds'⟩ :=
      (tracks hg).reduce hbuilds hi hlen hn hitems hreduction
    refine ⟨b', payload, hevent, hbuilds', ?_⟩
    obtain ⟨es, hof, htrees, -⟩ := hbuilds
    obtain ⟨fs, rest, rfl, rfl, rfl⟩ := List.map_eq_append_iff.1 htrees
    rw [List.length_map] at hlen
    obtain ⟨hhandles, hbelow⟩ := forall₂_of_append hlen hof
    simp only [onEvent, hreduction, hg.getElem?_index hi,
      candidates_eq (List.forall₂_reverse_iff.2 hhandles) production.rules b.arena] at hevent
    obtain ⟨rfl, hpayload⟩ := Prod.mk.inj hevent
    obtain rfl := Parser.payload_eq_of_setPayload_eq hitems hpayload
    -- the candidates are among the handles, in the opposite order
    refine change_reduce.unshared (hunshared.subperm ?_)
    rw [List.filterMap_append, filterMap_payload hhandles, List.map_map]
    refine List.Subperm.append ?_ (List.Subperm.refl _)
    exact ((List.filter_sublist.map _).subperm).trans (fs.reverse_perm.map _).subperm
  ignoresStates state h := ⟨ignoresStates_builds state h.1, h.2⟩
  eliminated _ _ := rfl
  accept _ _ := rfl
  weaken h := h.1.keeps h.2
  accepted h := ⟨h.unshared, h.represents, List.nil_sublist _,
    fun id n hn c hc => ⟨(h.children id n hn c hc).1, nofun⟩⟩

theorem Keeps.walk?_eq {items : List (Item NodeId)} (h : b.Keeps items) {root : NodeId}
    (hroot : root ∈ items.filterMap Item.payload) :
    b.arena.walk? b.arena.size [(0, root)] = some (b.arena.preorder [(0, root)]) := by
  obtain ⟨t, ht⟩ := h.represents root hroot
  exact h.unshared.walk?_eq hroot ht (Nat.le_refl _)

/-- **Below the stack there is a forest, and open lists are not shared.**  After any number of
steps without an error, whether reductions are trimmed or not, no node that is reached from the
payloads of the stack is below itself or is reached in two ways.  The open lists are different
payloads, in the order of the stack, and no node has one as a child.  So a walk from a payload ends
although nothing limits its depth, and is the one that the terminals are read off and a tree is
rendered by.

Whatever the next step is, at most one node grows, which is an open list, and all that is reached
from any other node stays the same.  Once the input is accepted, no list is open, and a walk from
the root ends, too. -/
theorem forest_after (hg : g.Loaded) (l : Lexer) (trim : Bool) (n : Nat) {b : SimplifiedBuilder}
    {p : Parser NodeId}
    (h : (Parser.start g l trim).afterSteps? g (onEvent g) n {} = some (b, p)) :
    b.arena.IsForest ((p.stack g).filterMap Item.payload) ∧
      b.openLists.Nodup ∧
      b.openLists.reverse.Sublist ((p.stack g).filterMap Item.payload) ∧
      (∀ id child, b.arena.IsChild id child → child ∉ b.openLists) ∧
      (∀ root ∈ (p.stack g).filterMap Item.payload,
        b.arena.walk? b.arena.size [(0, root)] = some (b.arena.preorder [(0, root)])) ∧
      ∀ event b' p', p.stepWith g (onEvent g) b = (event, b', p') →
        (∃ grown : Option NodeId, (∀ list ∈ grown, list ∈ b.openLists) ∧
          ∀ id other, id < b.arena.size → grown ≠ some id → b.arena.Reaches id other →
            ∃ n, b.arena.node? other = some n ∧ b'.arena.node? other = some n) ∧
        (event = .accept → b'.openLists = [] ∧ b'.root = p'.topPayload? ∧
          ∀ root ∈ b'.root,
            b'.arena.walk? b'.arena.size [(0, root)] = some (b'.arena.preorder [(0, root)])) := by
  have hafter := (watches_forest hg).after hg n (Parser.Mirrors.start g l trim) (s := {})
    (by cases trim <;> exact ⟨builds_start, .nil⟩)
  have hkeeps : b.Keeps p.items := by
    cases hconfig : Config.afterSteps? g l n {} with
    | none =>
      rw [hconfig] at hafter
      cases h.symm.trans hafter
    | some d =>
      rw [hconfig] at hafter
      obtain ⟨b', p', hresult, -, hkeeps⟩ := hafter
      cases h.symm.trans hresult
      exact hkeeps
  have hpayloads : (p.stack g).filterMap Item.payload =
      (p.items.filterMap Item.payload).reverse := by
    rw [Parser.stack, List.filterMap_cons_none rfl, List.filterMap_reverse]
  rw [hpayloads]
  have hunshared := hkeeps.unshared.subperm (List.reverse_perm _).subperm
  have hforest := hunshared.isForest
  refine ⟨hforest, ?_, hkeeps.openLists.reverse, ?_, ?_, ?_⟩
  · exact (List.nodup_reverse.1 hforest.roots_nodup).sublist hkeeps.openLists
  · rintro id child ⟨n, hn, hchild⟩
    exact (hkeeps.children id n hn child hchild).2
  · exact fun root hroot => hkeeps.walk?_eq (List.mem_reverse.1 hroot)
  · intro event b' p' hstep
    have haccepted := Parser.items_of_accept (g := g) (p := p)
    unfold Parser.stepWith at hstep
    generalize p.step g = next at hstep haccepted
    obtain ⟨e, q⟩ := next
    obtain ⟨rfl, hevent⟩ := Prod.mk.inj hstep
    have hgrows := growsOneOf_onEvent (g := g) e b q
    rw [hevent] at hgrows
    refine ⟨hgrows.below hkeeps.children, ?_⟩
    rintro rfl
    obtain ⟨rfl, rfl⟩ := Prod.mk.inj hevent
    refine ⟨rfl, rfl, fun root hroot => hkeeps.walk?_eq ?_⟩
    -- the root is the payload of the topmost item, which is where it was
    replace hroot : q.items.head?.bind Item.payload = some root := hroot
    rw [haccepted rfl] at hroot
    obtain ⟨item, hitem, hpayload⟩ := Option.bind_eq_some_iff.1 hroot
    exact List.mem_filterMap.2 ⟨item, List.mem_of_head? hitem, hpayload⟩

set_option maxRecDepth 10000 in
/-- Nine steps into `[a,b,c]`, the list has grown by a node with a larger number. -/
theorem forest_after_letters :
    ∃ g, Grammar.ofBytes Sample.lists.toBytes = .ok g ∧ ∃ (b : SimplifiedBuilder) (p : _),
      (Parser.start g (({} : Lexer).load (.owned "[a,b,c]")) false).afterSteps? g (onEvent g) 9 {} =
        some (b, p) ∧
      b.openLists = [4] ∧ b.arena.IsChild 4 6 ∧
      b.arena.IsForest ((p.stack g).filterMap Item.payload) ∧
      b.openLists.reverse.Sublist ((p.stack g).filterMap Item.payload) ∧
      b.arena.walk? b.arena.size [(0, 4)] = some (b.arena.preorder [(0, 4)]) := by
  have hcheck : Grammar.loadsWith Sample.lists.toBytes (fun g =>
      ((Parser.start g (({} : Lexer).load (.owned "[a,b,c]")) false).afterSteps? g
        (onEvent g) 9 {}).any fun (b, _) => b.openLists == [4] &&
          b.arena.node? 4 == some (.nonterm 2 [1, 3, 6])) = true := by
    decide +kernel
  obtain ⟨g, hload, hg⟩ := Grammar.exists_of_loadsWith hcheck
  simp only [Option.any_eq_true, Bool.and_eq_true, beq_iff_eq] at hg
  obtain ⟨⟨b, p⟩, hafter, hopen, hnode⟩ := hg
  obtain ⟨hforest, -, hsublist, -, hwalk, -⟩ := forest_after (.ofBytes hload) _ _ _ hafter
  refine ⟨g, hload, b, p, hafter, hopen, ⟨_, hnode, by decide⟩, hforest, hsublist, hwalk 4 ?_⟩
  exact hsublist.subset (by rw [hopen]; exact List.mem_singleton_self 4)

end SimplifiedBuilder

end CompiledGrammar
