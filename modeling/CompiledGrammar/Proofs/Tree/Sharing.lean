import CompiledGrammar.Proofs.Grammar.Loaded
import CompiledGrammar.Proofs.Parser.Checked
import CompiledGrammar.Proofs.Tree.Forest
import CompiledGrammar.Table.Sample

/-!
# Trees with shared nodes

In an arena that has been filled by hand, a node may be a child of several others, or several times
a child of one.  The arena holds a tree at every node all the same.  A shared node comes up in it
once for each of its places, so that the tree can be much larger than the arena.

* `Arena.Allocated` says that an arena has been filled by adding nodes, each with children that had
  been added before.  It then holds a tree at each of them (`Arena.Allocated.exists_represents`).
* `Tree.render?` is the text of a tree, by recursion.  The lines of what a walk comes by make up the
  same text (`Arena.Represents.render?_eq`), and there is one if what the tree is made of fits the
  grammar and the input (`Arena.Represents.exists_render?`).
* `Arena.visitWithin?` is a walk as a loop, with a stack of what is still to visit and with what has
  been made so far.  No depth is too deep for it: all that stops it is the number of rounds it is
  given.  `Arena.terminalsWithin?` and `Arena.renderWithin?` are two of these loops.

A walk from a node that holds a tree takes one round for each node of the tree, and then ends
(`Arena.Represents.exists_walk`).  So both loops come to an end, and `Arena.walks_recursive` says
what with.
-/

namespace CompiledGrammar

/-! ### Texts of trees -/

/-- A text as a line of its own, indented by a depth. -/
def indentedLine (depth : Nat) (text : String) : String :=
  String.ofList (List.replicate depth ' ') ++ text ++ "\n"

mutual

/-- The text of a tree: the line of the root, and below it the texts of the children in order, one
deeper.  There is none if a symbol or a production is not of the grammar or a span not of the
input. -/
def Tree.render? (g : Grammar) (input : Buffer) (depth : Nat) : Tree → Option String
  | .leaf t => (t.render? g input).map (indentedLine depth)
  | .node p children => do
    let id ← g.productionId? p
    let below ← renderAll? g input (depth + 1) children
    return indentedLine depth id ++ below

/-- The texts of some trees, one after the other. -/
def renderAll? (g : Grammar) (input : Buffer) (depth : Nat) : List Tree → Option String
  | [] => some ""
  | c :: cs => do
    let first ← c.render? g input depth
    let rest ← renderAll? g input depth cs
    return first ++ rest

end

/-- What stands on the line of a node: its token, or the identifier of its production. -/
def Origin.text? (g : Grammar) (input : Buffer) : Origin → Option String
  | bottom => none
  | shifted t => t.render? g input
  | reduced p => g.productionId? p

/-- The line of what a walk comes by. -/
def lineOf? (g : Grammar) (input : Buffer) (v : Nat × Origin) : Option String :=
  (v.2.text? g input).map (indentedLine v.1)

/-- The lines of all that a walk comes by, as one text. -/
def linesOf? (g : Grammar) (input : Buffer) (visits : List (Nat × Origin)) : Option String :=
  (visits.mapM (lineOf? g input)).map String.join

variable {g : Grammar} {input : Buffer}

theorem linesOf?_nil : linesOf? g input [] = some "" := rfl

theorem linesOf?_cons (v : Nat × Origin) (visits : List (Nat × Origin)) :
    linesOf? g input (v :: visits) =
      (lineOf? g input v).bind fun line => (linesOf? g input visits).map (line ++ ·) := by
  unfold linesOf?
  rw [List.mapM_cons]
  cases lineOf? g input v <;> cases visits.mapM (lineOf? g input) <;> simp

theorem linesOf?_append (visits others : List (Nat × Origin)) :
    linesOf? g input (visits ++ others) =
      (linesOf? g input visits).bind fun text =>
        (linesOf? g input others).map (text ++ ·) := by
  unfold linesOf?
  rw [List.mapM_append]
  cases visits.mapM (lineOf? g input) <;> cases others.mapM (lineOf? g input) <;> simp

/-- The lines of the nodes of a tree, in the order of a walk, are its text. -/
theorem Tree.linesOf?_visits (t : Tree) (depth : Nat) :
    linesOf? g input (t.visits depth) = t.render? g input depth := by
  induction t generalizing depth with
  | leaf token =>
    rw [visits, linesOf?_cons, linesOf?_nil, render?, lineOf?, Origin.text?]
    cases token.render? g input <;> simp
  | node p children ih =>
    have hall : linesOf? g input (visitsAll (depth + 1) children) =
        renderAll? g input (depth + 1) children := by
      induction children with
      | nil => rw [visitsAll, renderAll?, linesOf?_nil]
      | cons c cs ihcs =>
        rw [visitsAll, renderAll?, linesOf?_append, ih c List.mem_cons_self,
          ihcs fun d hd => ih d (List.mem_cons_of_mem c hd)]
        cases c.render? g input (depth + 1) <;> cases renderAll? g input (depth + 1) cs <;> rfl
    rw [visits, linesOf?_cons, hall, render?, lineOf?, Origin.text?]
    cases g.productionId? p <;> cases renderAll? g input (depth + 1) children <;> rfl

namespace Arena

variable {a : Arena} {id root : NodeId} {t : Tree}

theorem renderNode?_eq (n : Node) : renderNode? g input n = n.origin.text? g input := by
  cases n <;> rfl

theorem render?_eq_linesOf? : a.render? root g input =
    linesOf? g input ((a.preorder [(0, root)]).map fun v => (v.1, v.2.origin)) := by
  have hline : (fun (v : Nat × Node) => (renderNode? g input v.2).map fun text =>
      String.ofList (List.replicate v.1 ' ') ++ text ++ "\n") =
      lineOf? g input ∘ fun v => (v.1, v.2.origin) := by
    funext v
    rw [renderNode?_eq]
    rfl
  rw [linesOf?, List.mapM_map, ← hline, Option.map_eq_bind]
  rfl

/-- **The text of a node is the text of its tree.** -/
theorem Represents.render?_eq (h : a.Represents root t) :
    a.render? root g input = t.render? g input 0 := by
  rw [render?_eq_linesOf?, h.preorder_eq, t.linesOf?_visits]

/-- If all below a node fits the grammar and the input, there is a text. -/
theorem Represents.exists_render? (h : a.Represents id t)
    (hfits : ∀ other n, a.Reaches id other → a.node? other = some n → n.origin.Fits g input)
    (depth : Nat) : ∃ text, t.render? g input depth = some text := by
  induction t generalizing id depth with
  | leaf token =>
    have htoken : token.Fits g input := hfits id _ .refl (represents_leaf.1 h)
    obtain ⟨text, htext⟩ := htoken.exists_render?
    exact ⟨indentedLine depth text, by rw [Tree.render?, htext, Option.map_some]⟩
  | node p children ih =>
    obtain ⟨ids, hnode, hids⟩ := represents_node.1 h
    have hproduction : p < g.productions.size := hfits id _ .refl hnode
    have hbelow (child : NodeId) (hchild : child ∈ ids) (other : NodeId) (n : Node)
        (hother : a.Reaches child other) : a.node? other = some n → n.origin.Fits g input :=
      hfits other n (.head ⟨_, hnode, hchild⟩ hother)
    -- the texts of the children exist one after the other
    have hall : ∃ below, renderAll? g input (depth + 1) children = some below := by
      clear hnode h hfits
      induction hids with
      | nil => exact ⟨"", by rw [renderAll?]⟩
      | @cons i c is cs hfirst _ ihcs =>
        obtain ⟨first, hfirst⟩ := ih c List.mem_cons_self hfirst (hbelow i List.mem_cons_self)
          (depth + 1)
        obtain ⟨rest, hrest⟩ := ihcs (fun d hd => ih d (List.mem_cons_of_mem _ hd))
          fun child hchild => hbelow child (List.mem_cons_of_mem _ hchild)
        exact ⟨first ++ rest, by rw [renderAll?, hfirst, hrest]; rfl⟩
    obtain ⟨below, hbelow⟩ := hall
    refine ⟨indentedLine depth g.productions[p].id ++ below, ?_⟩
    rw [Tree.render?, hbelow, Grammar.productionId?, Array.getElem?_eq_getElem hproduction]
    rfl

/-! ### Arenas filled by hand -/

/-- The arena has been filled by adding nodes, each with children that had been added before; the
list has the numbers that the nodes were given, the latest first. -/
inductive Allocated : Arena → List NodeId → Prop where
  /-- Nothing has been added. -/
  | new : Allocated {} []
  /-- A node has been added for a token. -/
  | term {a : Arena} {ids : List NodeId} (token : Token) :
      Allocated a ids → Allocated (a.allocTerm token).2 ((a.allocTerm token).1 :: ids)
  /-- A node has been added for a production. -/
  | nonterm {a : Arena} {ids : List NodeId} (p : ProductionIdx) (children : List NodeId) :
      Allocated a ids → children ⊆ ids →
      Allocated (a.allocNonterm p children).2 ((a.allocNonterm p children).1 :: ids)

theorem exists_forall₂_represents {ids : List NodeId} (h : ∀ id ∈ ids, ∃ t, a.Represents id t) :
    ∃ trees, List.Forall₂ a.Represents ids trees := by
  induction ids with
  | nil => exact ⟨[], .nil⟩
  | cons id ids ih =>
    obtain ⟨⟨t, ht⟩, hrest⟩ := List.forall_mem_cons.1 h
    obtain ⟨trees, htrees⟩ := ih hrest
    exact ⟨t :: trees, .cons ht htrees⟩

/-- There is a tree at every node, however its children are shared. -/
theorem Allocated.exists_represents {ids : List NodeId} (h : a.Allocated ids) :
    ∀ id ∈ ids, ∃ t, a.Represents id t := by
  induction h with
  | new => exact nofun
  | term token _ ih =>
    refine List.forall_mem_cons.2 ⟨⟨_, represents_allocTerm token⟩, fun id hid => ?_⟩
    obtain ⟨t, ht⟩ := ih id hid
    exact ⟨t, ht.alloc _⟩
  | nonterm p children _ hchildren ih =>
    obtain ⟨trees, htrees⟩ := exists_forall₂_represents fun id hid => ih id (hchildren hid)
    refine List.forall_mem_cons.2 ⟨⟨_, represents_allocNonterm htrees⟩, fun id hid => ?_⟩
    obtain ⟨t, ht⟩ := ih id hid
    exact ⟨t, ht.alloc _⟩

/-! ### Walks as loops -/

/-- Visit what is on a stack, its top first.  A round takes a node off the stack, makes something of
it, and puts its children onto the stack, the last one first.  There is no result if the rounds do
not suffice, a node does not exist, or nothing can be made of it. -/
def visitWithin? {σ : Type} (a : Arena) (visit : σ → Nat × Node → Option σ) :
    Nat → List (Nat × NodeId) → σ → Option σ
  | _, [], made => some made
  | 0, _ :: _, _ => none
  | rounds + 1, (depth, id) :: stack, made => do
    let n ← a.node? id
    let made ← visit made (depth, n)
    visitWithin? a visit rounds
      (n.children.reverse.foldl (fun stack child => (depth + 1, child) :: stack) stack) made

/-- A node adds its token, if it has one, to those that have been collected. -/
def collect? (tokens : List Token) : Nat × Node → Option (List Token)
  | (_, .term t) => some (tokens ++ [t])
  | (_, .nonterm _ _) => some tokens

/-- A node adds its line to the text that has been written. -/
def write? (g : Grammar) (input : Buffer) (text : String) (v : Nat × Node) : Option String :=
  (renderNode? g input v.2).map fun line => text ++ indentedLine v.1 line

/-- The tokens below a node, as a loop.  It takes no notice of depths. -/
def terminalsWithin? (a : Arena) (rounds : Nat) (root : NodeId) : Option (List Token) :=
  a.visitWithin? collect? rounds [(0, root)] []

/-- The text of a node and all below it, as a loop. -/
def renderWithin? (a : Arena) (rounds : Nat) (root : NodeId) (g : Grammar) (input : Buffer) :
    Option String :=
  a.visitWithin? (write? g input) rounds [(0, root)] ""

section

variable {σ : Type} {visit : σ → Nat × Node → Option σ}

/-- The loop makes one thing after the other of what the walk comes by. -/
theorem visitWithin?_eq_bind (rounds : Nat) (stack : List (Nat × NodeId)) (made : σ) :
    a.visitWithin? visit rounds stack made =
      (a.walk? rounds stack).bind fun visits => visits.foldlM visit made := by
  induction rounds generalizing stack made with
  | zero => cases stack <;> rfl
  | succ rounds ih =>
    cases stack with
    | nil => rfl
    | cons v stack =>
      obtain ⟨depth, id⟩ := v
      rw [visitWithin?, walk?]
      cases a.node? id with
      | none => rfl
      | some n =>
        simp only [Option.bind_eq_bind, Option.bind_some, List.foldl_reverse,
          List.foldr_cons_eq_append, ih]
        -- the loop can fail at this node already, the fold only once the walk has ended
        cases a.walk? rounds (n.children.map (fun child => (depth + 1, child)) ++ stack) <;> simp

/-- A walk through a tree ends, after one step for each node of the tree. -/
theorem Represents.exists_walk (h : a.Represents id t) (depth : Nat) :
    ∃ ids, a.Walk [id] ids ∧ ids.length = (t.visits depth).length := by
  induction t generalizing id depth with
  | leaf token =>
    refine ⟨[id], .cons (represents_leaf.1 h) .nil, ?_⟩
    rw [Tree.visits]
    rfl
  | node p children ih =>
    obtain ⟨places, hnode, hplaces⟩ := represents_node.1 h
    have hchildren : ∃ ids, a.Walk places ids ∧
        ids.length = (Tree.visitsAll (depth + 1) children).length := by
      clear hnode h
      induction hplaces with
      | nil => exact ⟨[], .nil, by rw [Tree.visitsAll]; rfl⟩
      | @cons i c is cs hfirst _ ihcs =>
        obtain ⟨first, hwalk, hlength⟩ := ih c List.mem_cons_self hfirst (depth + 1)
        obtain ⟨rest, hwalk', hlength'⟩ := ihcs fun d hd => ih d (List.mem_cons_of_mem _ hd)
        refine ⟨first ++ rest, hwalk.append hwalk', ?_⟩
        rw [Tree.visitsAll, List.length_append, List.length_append, hlength, hlength']
    obtain ⟨ids, hwalk, hlength⟩ := hchildren
    refine ⟨id :: ids, .cons hnode ?_, ?_⟩
    · rwa [List.append_nil]
    · rw [Tree.visits, List.length_cons, List.length_cons, hlength]

/-- As many rounds as the tree has nodes are enough, and what the loop comes by is what a walk to a
limited depth does. -/
theorem Represents.visitWithin?_eq (h : a.Represents id t) {rounds : Nat}
    (hrounds : (t.visits 0).length ≤ rounds) (made : σ) :
    a.visitWithin? visit rounds [(0, id)] made = (a.preorder [(0, id)]).foldlM visit made := by
  obtain ⟨ids, hwalk, hlength⟩ := h.exists_walk 0
  rw [visitWithin?_eq_bind, hwalk.walk?_root_eq h (hlength ▸ hrounds), Option.bind_some]

end

theorem foldlM_collect? (visits : List (Nat × Node)) (tokens : List Token) :
    visits.foldlM collect? tokens =
      some (tokens ++ visits.filterMap fun v => v.2.origin.token?) := by
  induction visits generalizing tokens with
  | nil => simp
  | cons v visits ih =>
    obtain ⟨depth, n⟩ := v
    cases n <;> simp [collect?, ih, Node.origin, Origin.token?]

theorem foldlM_write? (visits : List (Nat × Node)) (text : String) :
    visits.foldlM (write? g input) text =
      (linesOf? g input (visits.map fun v => (v.1, v.2.origin))).map (text ++ ·) := by
  induction visits generalizing text with
  | nil => simp [linesOf?_nil]
  | cons v visits ih =>
    rw [List.foldlM_cons, List.map_cons, linesOf?_cons, lineOf?, ← renderNode?_eq, write?]
    cases renderNode? g input v.2 with
    | none => rfl
    | some line =>
      rw [Option.map_some, Option.bind_eq_bind, Option.bind_some, ih]
      simp [Function.comp_def, String.append_assoc]

theorem Represents.terminalsWithin?_eq (h : a.Represents id t) {rounds : Nat}
    (hrounds : (t.visits 0).length ≤ rounds) :
    a.terminalsWithin? rounds id = some (a.terminals id) := by
  rw [terminalsWithin?, h.visitWithin?_eq hrounds, foldlM_collect?, List.nil_append,
    terminals_eq_filterMap]

theorem Represents.renderWithin?_eq (h : a.Represents id t) {rounds : Nat}
    (hrounds : (t.visits 0).length ≤ rounds) :
    a.renderWithin? rounds id g input = a.render? id g input := by
  rw [renderWithin?, h.visitWithin?_eq hrounds, foldlM_write?, render?_eq_linesOf?]
  simp

/-- **Walks and recursion agree, also where nodes are shared.**  At every node that has been added,
an arena holds a tree.  The tokens below the node are the leaves of the tree, and where all below
the node fits a grammar and an input, the text of the node is the text of the tree.  Both loops
come to an end with these results, after as many rounds as the tree has nodes. -/
theorem walks_recursive {ids : List NodeId} (h : a.Allocated ids) (hid : id ∈ ids) :
    ∃ t, a.Represents id t ∧ a.terminals id = t.leaves ∧
      (∀ rounds, (t.visits 0).length ≤ rounds → a.terminalsWithin? rounds id = some t.leaves) ∧
      ∀ (g : Grammar) (input : Buffer),
        (∀ other n, a.Reaches id other → a.node? other = some n → n.origin.Fits g input) →
        ∃ text, t.render? g input 0 = some text ∧ a.render? id g input = some text ∧
          ∀ rounds, (t.visits 0).length ≤ rounds →
            a.renderWithin? rounds id g input = some text := by
  obtain ⟨t, ht⟩ := h.exists_represents id hid
  refine ⟨t, ht, ht.terminals_eq, fun rounds hrounds => ?_, fun g input hfits => ?_⟩
  · rw [ht.terminalsWithin?_eq hrounds, ht.terminals_eq]
  · obtain ⟨text, htext⟩ := ht.exists_render? hfits 0
    have hrender : a.render? id g input = some text := ht.render?_eq.trans htext
    exact ⟨text, htext, hrender, fun rounds hrounds => (ht.renderWithin?_eq hrounds).trans hrender⟩

/-- The list `é,` as if its only word stood before and after the comma: four nodes, of which one is
a child of the last node twice. -/
def twice : Arena :=
  ⟨#[.term ⟨9, ⟨0, 2⟩, .first⟩, .nonterm 3 [0], .term ⟨3, ⟨2, 3⟩, ⟨1, 3⟩⟩, .nonterm 2 [1, 2, 1]]⟩

/-- The tree at the last node of `twice`. -/
def twiceTree : Tree :=
  .node 2 [.node 3 [.leaf ⟨9, ⟨0, 2⟩, .first⟩], .leaf ⟨3, ⟨2, 3⟩, ⟨1, 3⟩⟩,
    .node 3 [.leaf ⟨9, ⟨0, 2⟩, .first⟩]]

/-- Its text. -/
def twiceText : String :=
  "<List1> ::= <List1> , Id\n" ++ " <List1> ::= Id\n" ++ "  Id 'é'\n" ++ " , ','\n" ++
    " <List1> ::= Id\n" ++ "  Id 'é'\n"

theorem allocated_twice : twice.Allocated [3, 2, 1, 0] :=
  .nonterm 2 [1, 2, 1] (.term _ (.nonterm 3 [0] (.term _ .new) (by decide))) (by decide)

theorem represents_twice : twice.Represents 3 twiceTree := by
  have hword : twice.Represents 1 (.node 3 [.leaf ⟨9, ⟨0, 2⟩, .first⟩]) :=
    represents_node.2 ⟨_, rfl, .cons (represents_leaf.2 rfl) .nil⟩
  exact represents_node.2 ⟨_, rfl, .cons hword (.cons (represents_leaf.2 rfl) (.cons hword .nil))⟩

theorem fits_twice (hsymbols : g.symbols.size = 13) (hproductions : g.productions.size = 6)
    {id : NodeId} {n : Node} (hn : twice.node? id = some n) : n.origin.Fits g (.owned "é,") := by
  have hboundary (i : Nat) (hi : (Utf8.dropBytes? i ['é', ',']).isSome = true) :
      Utf8.IsBoundary (Buffer.owned "é,").chars i := Utf8.isBoundary_iff.2 hi
  have hmem : n ∈ twice.nodes.toList := by
    rw [← Array.mem_def]
    exact Array.mem_of_getElem? hn
  simp only [twice, List.mem_cons, List.not_mem_nil, or_false] at hmem
  rcases hmem with rfl | rfl | rfl | rfl
  · exact ⟨by simp [hsymbols], hboundary 0 (by decide), hboundary 2 (by decide), by decide⟩
  · exact Nat.lt_of_lt_of_eq (by decide) hproductions.symm
  · exact ⟨by simp [hsymbols], hboundary 2 (by decide), hboundary 3 (by decide), by decide⟩
  · exact Nat.lt_of_lt_of_eq (by decide) hproductions.symm

set_option maxRecDepth 10000 in
/-- The four nodes of `twice` make six lines, after six rounds. -/
theorem walks_recursive_twice : ∃ g, Grammar.ofBytes Sample.lists.toBytes = .ok g ∧
    twice.Allocated [3, 2, 1, 0] ∧ 3 ∈ [3, 2, 1, 0] ∧
    (∀ other n, twice.Reaches 3 other → twice.node? other = some n →
      n.origin.Fits g (.owned "é,")) ∧
    twice.terminals 3 = twiceTree.leaves ∧ twice.terminalsWithin? 6 3 = some twiceTree.leaves ∧
    twice.render? 3 g (.owned "é,") = some twiceText ∧
    twice.renderWithin? 6 3 g (.owned "é,") = some twiceText := by
  have hcheck : Grammar.loadsWith Sample.lists.toBytes (fun g =>
      g.symbols.size == 13 && (g.productions.size == 6 &&
        twiceTree.render? g (.owned "é,") 0 == some twiceText)) = true := by
    decide +kernel
  obtain ⟨g, hload, hg⟩ := Grammar.exists_of_loadsWith hcheck
  simp only [Bool.and_eq_true, beq_iff_eq] at hg
  obtain ⟨hsymbols, hproductions, htwice⟩ := hg
  have hmem : 3 ∈ [3, 2, 1, 0] := by decide
  have hfits (other : NodeId) (n : Node) (_ : twice.Reaches 3 other) :
      twice.node? other = some n → n.origin.Fits g (.owned "é,") :=
    fits_twice hsymbols hproductions
  obtain ⟨t, ht, hterminals, hcollected, hrender⟩ := walks_recursive allocated_twice hmem
  obtain rfl : t = twiceTree := ht.unique represents_twice
  obtain ⟨text, htext, hrendered, hwritten⟩ := hrender g _ hfits
  obtain rfl : text = twiceText := Option.some.inj (htext.symm.trans htwice)
  exact ⟨g, hload, allocated_twice, hmem, hfits, hterminals, hcollected 6 (by decide), hrendered,
    hwritten 6 (by decide)⟩

end Arena

end CompiledGrammar
