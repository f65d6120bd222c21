import CompiledGrammar.Proofs.Parser.Prefix
import CompiledGrammar.Proofs.Tree.Leaves
import CompiledGrammar.Proofs.Tree.Trimmed
import CompiledGrammar.Proofs.Tree.Walk

/-!
# Tokens of trees in the making

At every point of a parse all tokens that have been shifted are below the items of the stack, each
once and from left to right.  The concrete builder has them all; the simplified builder has those
that no reduction has left out.

Which tokens are left out is noted by an observer that builds no trees (`TokenLog`): it numbers the
tokens as they are shifted and writes down the numbers of those that a reduction leaves out.  For
each item it knows a stretch of the input (`TokenLog.Covers`), and what has not been left out of the
stretch are the leaves that the simplified tree keeps.

`Parser.terminals_after` is the law for both builders.  It holds for tables that are not consistent,
too.
-/

namespace CompiledGrammar

/-- The tokens below some items, from the first one on. -/
def Arena.terminalsOf (a : Arena) (items : List (Item NodeId)) : List Token :=
  items.flatMap fun item => (item.payload.map a.terminals).getD []

/-- The nodes of a production have as many children as the production has handles. -/
def Arena.HasArity (g : Grammar) (a : Arena) : Prop :=
  ∀ id i children, a.node? id = some (.nonterm i children) →
    ∃ p, g.productions[i]? = some p ∧ children.length = p.handles.length

/-! ### Observing tokens -/

/-- The tokens of a parse, and which of them have been left out. -/
structure TokenLog where
  /-- The tokens that have been shifted. -/
  shifted : List Token := []
  /-- The positions of those that a reduction has left out. -/
  removed : List Nat := []
deriving DecidableEq, Repr

/-- The tokens from a position on that have not been left out. -/
def keptFrom (removed : List Nat) (start : Nat) (tokens : List Token) : List Token :=
  ((tokens.zipIdx start).filter fun (_, i) => i ∉ removed).map Prod.fst

namespace TokenLog

/-- The tokens that have not been left out. -/
def left (log : TokenLog) : List Token := keptFrom log.removed 0 log.shifted

/-- The item is a token as it was shifted, and its symbol is not a non-terminal and has a single
lexeme. -/
def isRemovable (g : Grammar) (item : Item Nat) : Bool :=
  match item.origin with
  | .shifted token => g.symbols[token.symbol]?.any fun s => s.singleLexeme && s.kind != .nonTerminal
  | _ => false

/-- The positions of the tokens among some handles that are left out. -/
def removedAmong (g : Grammar) (remove : Bool) (handles : List (Item Nat)) : List Nat :=
  (handles.filter fun item => remove && isRemovable g item).filterMap Item.payload

/-- Note what a step has done.  The payload of a token is its position. -/
def onEvent (g : Grammar) : Handler TokenLog Nat := fun event log p =>
  match event with
  | .shift =>
    match p.lookahead.token? with
    | some token =>
      ({ log with shifted := log.shifted ++ [token] }, p.setPayload (some log.shifted.length))
    | none => (log, p)
  | .reduce =>
    match p.reduction with
    | some r =>
      let remove := g.productions[r.production]?.any (·.rules.removeSingleLexeme)
      ({ log with removed := log.removed ++ removedAmong g remove r.handles }, p)
    | none => (log, p)
  | _ => (log, p)

end TokenLog

variable {g : Grammar} {l : Lexer}

/-! ### What is left of a stretch of tokens -/

theorem keptFrom_append (removed : List Nat) (start : Nat) (xs ys : List Token) :
    keptFrom removed start (xs ++ ys) =
      keptFrom removed start xs ++ keptFrom removed (start + xs.length) ys := by
  rw [keptFrom, List.zipIdx_append, List.filter_append, List.map_append]
  rfl

theorem keptFrom_congr {removed removed' : List Nat} {start : Nat} {tokens : List Token}
    (h : ∀ i, start ≤ i → i < start + tokens.length → (i ∈ removed' ↔ i ∈ removed)) :
    keptFrom removed' start tokens = keptFrom removed start tokens := by
  unfold keptFrom
  congr 1
  refine List.filter_congr fun v hv => ?_
  obtain ⟨token, i⟩ := v
  obtain ⟨hle, hlt, -⟩ := List.mem_zipIdx hv
  simp only [h i hle (by omega)]

theorem keptFrom_singleton_of_not_mem {removed : List Nat} {i : Nat} (h : i ∉ removed)
    (token : Token) : keptFrom removed i [token] = [token] := by
  simp [keptFrom, h]

theorem keptFrom_singleton_of_mem {removed : List Nat} {i : Nat} (h : i ∈ removed)
    (token : Token) : keptFrom removed i [token] = [] := by
  simp [keptFrom, h]

namespace TokenLog

theorem isRemovable_eq {item : Item Nat} {t : Tree} (h : item.origin = t.origin) :
    isRemovable g item = t.isFixed g := by
  rw [isRemovable, h]
  cases t with
  | leaf token =>
    simp only [Tree.isFixed, Tree.origin, Origin.token?, Grammar.hasSingleLexeme, Option.any_some]
    congr 1
    funext s
    exact Bool.and_comm _ _
  | node i children => rfl

/-- The items, topmost first, stand for the tokens up to a position, one stretch for each.  What is
left of a stretch are the leaves that are kept of the tree of its item. -/
inductive Covers (g : Grammar) (removed : List Nat) : Nat → List (Item Nat) → List Tree → Prop where
  /-- There is nothing yet. -/
  | nil : Covers g removed 0 [] []
  /-- One more stretch. -/
  | cons {start : Nat} {item : Item Nat} {items : List (Item Nat)} {t : Tree} {trees : List Tree} :
      Covers g removed start items trees → item.origin = t.origin →
      keptFrom removed start t.leaves = t.keptLeaves g →
      (∀ token, t = .leaf token → item.payload = some start) →
      Covers g removed (start + t.leaves.length) (item :: items) (t :: trees)

namespace Covers

variable {removed removed' : List Nat} {start stop : Nat} {items handles below : List (Item Nat)}
  {trees hs ts : List Tree}

/-- All that is left are the leaves that are kept. -/
theorem keptFrom_eq (h : Covers g removed stop items trees) :
    (trees.reverse.flatMap Tree.leaves).length = stop ∧
      keptFrom removed 0 (trees.reverse.flatMap Tree.leaves) =
        trees.reverse.flatMap (·.keptLeaves g) := by
  induction h with
  | nil => exact ⟨rfl, rfl⟩
  | cons _ _ hkept _ ih =>
    obtain ⟨hlen, hrest⟩ := ih
    simp only [List.reverse_cons, List.flatMap_append, List.flatMap_singleton]
    refine ⟨by rw [List.length_append, hlen], ?_⟩
    rw [keptFrom_append, hrest, hlen, Nat.zero_add, hkept]

/-- Only positions before the last stretch ends matter. -/
theorem congr (h : Covers g removed stop items trees)
    (hsame : ∀ i, i < stop → (i ∈ removed' ↔ i ∈ removed)) :
    Covers g removed' stop items trees := by
  induction h with
  | nil => exact .nil
  | cons _ horigin hkept hposition ih =>
    refine .cons (ih fun i hi => hsame i (by omega)) horigin ?_ hposition
    rw [keptFrom_congr fun i _ hi => hsame i hi, hkept]

/-- What is left of the stretches of some handles, when those of them are gone that a reduction
leaves out. -/
theorem split (remove : Bool) (h : Covers g removed stop (handles ++ below) (hs ++ ts))
    (hlen : handles.length = hs.length) :
    ∃ start, Covers g removed start below ts ∧
      stop = start + (hs.reverse.flatMap Tree.leaves).length ∧
      (∀ i ∈ removedAmong g remove handles, start ≤ i ∧ i < stop) ∧
      ∀ removed' : List Nat, (∀ i, start ≤ i → i < stop →
          (i ∈ removed' ↔ i ∈ removed ∨ i ∈ removedAmong g remove handles)) →
        keptFrom removed' start (hs.reverse.flatMap Tree.leaves) =
          keptAmong g remove hs.reverse := by
  simp only [keptAmong_eq_flatMap]
  induction hs generalizing handles stop with
  | nil =>
    obtain rfl := List.length_eq_zero_iff.1 hlen
    exact ⟨stop, h, rfl, nofun, fun _ _ => rfl⟩
  | cons t hs ih =>
    cases handles with
    | nil => cases hlen
    | cons item handles =>
      cases h with
      | @cons middle _ _ _ _ hrest horigin hkept hposition =>
        obtain ⟨start, hbelow, rfl, hrange, hleft⟩ := ih hrest (Nat.succ.inj hlen)
        -- the stretch of the topmost handle is after those of the others
        simp only [List.reverse_cons, List.flatMap_append, List.flatMap_singleton,
          List.length_append, keptFrom_append]
        have hfixed := isRemovable_eq (g := g) horigin
        cases hout : remove && t.isFixed g with
        | false =>
          have hamong :
              removedAmong g remove (item :: handles) = removedAmong g remove handles := by
            simp only [removedAmong, List.filter_cons, hfixed, hout, Bool.false_eq_true, ↓reduceIte]
          simp only [hamong, Bool.false_eq_true, ↓reduceIte]
          refine ⟨start, hbelow, by omega, fun i hi => ?_, fun removed' hsame => ?_⟩
          · have := hrange i hi
            omega
          · rw [hleft removed' fun i hle hlt => hsame i hle (by omega), ← hkept]
            congr 1
            refine keptFrom_congr fun i hle hlt => (hsame i (by omega) hlt).trans ?_
            exact or_iff_left fun hi => by have := hrange i hi; omega
        | true =>
          have htree : ∃ token, t = .leaf token := by
            cases t with
            | leaf token => exact ⟨token, rfl⟩
            | node i children => simp [Tree.isFixed, Tree.origin, Origin.token?] at hout
          obtain ⟨token, rfl⟩ := htree
          have hamong : removedAmong g remove (item :: handles) =
              (start + (hs.reverse.flatMap Tree.leaves).length) ::
                removedAmong g remove handles := by
            simp only [removedAmong, List.filter_cons, hfixed, hout, ↓reduceIte]
            rw [List.filterMap_cons_some (hposition token rfl)]
          simp only [hamong, ↓reduceIte, Tree.leaves_leaf, List.length_singleton, List.mem_cons]
          refine ⟨start, hbelow, by omega, fun i hi => ?_, fun removed' hsame => ?_⟩
          · rcases hi with rfl | hi
            · omega
            · have := hrange i hi
              omega
          · rw [hleft removed' fun i hle hlt => ?_, keptFrom_singleton_of_mem]
            · exact (hsame _ (by omega) (by omega)).2 (Or.inr (Or.inl rfl))
            · rw [hsame i hle (by omega)]
              exact or_congr_right (or_iff_right (by omega))

end Covers

/-- The log has the leaves of all trees, and has left out what is not kept of them. -/
structure Records (g : Grammar) (log : TokenLog) (items : List (Item Nat)) (trees : List Tree) :
    Prop where
  /-- The leaves are the tokens. -/
  shifted : log.shifted = trees.reverse.flatMap Tree.leaves
  /-- Each item stands for a stretch of them. -/
  covers : Covers g log.removed log.shifted.length items trees
  /-- What has been left out has been shifted. -/
  removed : ∀ i ∈ log.removed, i < log.shifted.length

theorem Records.left_eq {log : TokenLog} {items : List (Item Nat)} {trees : List Tree}
    (h : Records g log items trees) : log.left = trees.reverse.flatMap (·.keptLeaves g) := by
  rw [left, h.shifted, h.covers.keptFrom_eq.2]

theorem tracks (hg : g.Loaded) : Tracks g (onEvent g) (Records g) where
  shift {log p state token items trees} hrecords hitems hlookahead := by
    obtain ⟨hshifted, hcovers, hremoved⟩ := hrecords
    refine ⟨{ log with shifted := log.shifted ++ [token] }, some log.shifted.length, ?_, ?_, ?_, ?_⟩
    · simp only [onEvent, hlookahead, Lookahead.token?]
    · simp only [hshifted, List.reverse_cons, List.flatMap_append, List.flatMap_singleton,
        Tree.leaves_leaf]
    · have hnot : log.shifted.length ∉ log.removed := fun hmem => (hremoved _ hmem).false
      have hitem : (⟨state, .shifted token, some log.shifted.length⟩ : Item Nat).origin =
        (Tree.leaf token).origin := rfl
      have hcons := hcovers.cons hitem
        (by rw [Tree.leaves_leaf, keptLeaves_leaf, keptFrom_singleton_of_not_mem hnot])
        (fun _ _ => rfl)
      simpa only [Tree.leaves_leaf, List.length_append] using hcons
    · intro i hi
      rw [List.length_append]
      exact Nat.lt_add_right _ (hremoved i hi)
  reduce {log p state i production handles below hs ts} hrecords hi hlen _ hitems hreduction := by
    obtain ⟨hshifted, hcovers, hremoved⟩ := hrecords
    have hindex := hg.getElem?_index hi
    obtain ⟨start, hbelow, hstop, hrange, hleft⟩ :=
      hcovers.split production.rules.removeSingleLexeme hlen
    obtain ⟨removed, hlog⟩ : ∃ removed, removed =
      log.removed ++ removedAmong g production.rules.removeSingleLexeme handles.reverse := ⟨_, rfl⟩
    have hmem (i : Nat) : i ∈ removed ↔ i ∈ log.removed ∨
        i ∈ removedAmong g production.rules.removeSingleLexeme handles := by
      rw [hlog, List.mem_append, removedAmong, List.filter_reverse, List.filterMap_reverse,
        List.mem_reverse]
      rfl
    refine ⟨{ log with removed }, none, ?_, ?_, ?_, ?_⟩
    · simp only [onEvent, hreduction, hindex, Option.any_some, ← hlog]
      rw [Parser.setPayload_self hitems]
    · simp only [hshifted, List.reverse_append, List.reverse_cons, List.flatMap_append,
        List.flatMap_singleton, Tree.leaves_node]
    · -- what is left out now is in the stretches of the handles
      have hsame (i : Nat) (hi : i < start) : i ∈ removed ↔ i ∈ log.removed :=
        (hmem i).trans (or_iff_left fun hi' => Nat.not_le_of_lt hi (hrange i hi').1)
      have hitem : (⟨state, .reduced production.index, none⟩ : Item Nat).origin =
        (Tree.node production.index hs.reverse).origin := rfl
      have hcons := (hbelow.congr hsame).cons hitem ?_ nofun
      · rw [Tree.leaves_node, ← hstop] at hcons
        exact hcons
      · rw [Tree.leaves_node, keptLeaves_node hindex]
        exact hleft removed fun i _ _ => hmem i
    · intro i hi
      rcases (hmem i).1 hi with hi | hi
      · exact hremoved i hi
      · exact (hrange i hi).2

theorem watches (hg : g.Loaded) : Watches g (onEvent g) (Records g) (Records g) where
  tracks := tracks hg
  ignoresStates {log item items trees} state h := by
    obtain ⟨hshifted, hcovers, hremoved⟩ := h
    refine ⟨hshifted, ?_, hremoved⟩
    generalize log.shifted.length = stop at hcovers
    cases hcovers with
    | cons hrest horigin hkept hposition => exact .cons hrest horigin hkept hposition
  eliminated _ _ := rfl
  accept _ _ := rfl
  weaken h := h
  accepted h := h

end TokenLog

/-! ### Builders -/

section

variable {a : Arena} {items : List (Item NodeId)} {trees : List Tree}

theorem Arena.HasArity.alloc (h : a.HasArity g) {n : Node}
    (hn : ∀ {i children}, n = .nonterm i children →
      ∃ p, g.productions[i]? = some p ∧ children.length = p.handles.length) :
    (a.alloc n).2.HasArity g := by
  intro id i children hnode
  rcases node?_alloc hnode with hnode | ⟨-, rfl⟩
  · exact h id i children hnode
  · exact hn rfl

/-- The tokens below a stack are the leaves of the trees that are held for its items. -/
theorem Arena.terminalsOf_stack {p : Parser NodeId} (h : List.Forall₂ a.Holds p.items trees) :
    a.terminalsOf (p.stack g) = trees.reverse.flatMap Tree.leaves := by
  rw [Parser.stack, terminalsOf, List.flatMap_cons]
  refine (List.nil_append _).trans ?_
  generalize p.items = items at h
  induction h with
  | nil => rfl
  | cons hfirst _ ih =>
    obtain ⟨id, hid, ht⟩ := hfirst
    rw [List.reverse_cons, List.reverse_cons, List.flatMap_append, List.flatMap_append, ih,
      List.flatMap_singleton, List.flatMap_singleton, hid, Option.map_some, Option.getD_some,
      ht.terminals_eq]

end

/-- The concrete builder holds the trees of all items, in nodes that are as the grammar has them. -/
def ConcreteBuilder.BuildsNodes (g : Grammar) (b : ConcreteBuilder) (items : List (Item NodeId))
    (trees : List Tree) : Prop :=
  Builds b items trees ∧ b.arena.HasArity g

theorem ConcreteBuilder.watches (hg : g.Loaded) :
    Watches g onEvent (BuildsNodes g) (BuildsNodes g) where
  tracks.shift {b p state token items trees} hbuilds hitems hlookahead := by
    obtain ⟨b', payload, hevent, hbuilds'⟩ := tracks.shift (g := g) hbuilds.1 hitems hlookahead
    refine ⟨b', payload, hevent, hbuilds', ?_⟩
    simp only [onEvent, Arena.allocShifted_eq hlookahead] at hevent
    obtain ⟨rfl, -⟩ := Prod.mk.inj hevent
    refine hbuilds.2.alloc fun hnode => ?_
    cases hnode
  tracks.reduce {b p state i production handles below hs ts} hbuilds hi hlen hn hitems
      hreduction := by
    obtain ⟨b', payload, hevent, hbuilds'⟩ := tracks.reduce hbuilds.1 hi hlen hn hitems hreduction
    refine ⟨b', payload, hevent, hbuilds', ?_⟩
    simp only [onEvent, hreduction] at hevent
    obtain ⟨rfl, -⟩ := Prod.mk.inj hevent
    refine hbuilds.2.alloc fun hnode => ?_
    cases hnode
    -- every handle has a node
    have hids := Arena.represents_payloads
      (List.forall₂_reverse_iff.2 (forall₂_of_append hlen hbuilds.1).1)
    exact ⟨production, hg.getElem?_index hi, by rw [hids.length_eq, List.length_reverse, hn]⟩
  ignoresStates state h := ⟨ignoresStates_builds state h.1, h.2⟩
  eliminated _ _ := rfl
  accept _ _ := rfl
  weaken h := h
  accepted h := h

/-- The simplified builder holds what the trees of all items simplify to. -/
def SimplifiedBuilder.Shows (g : Grammar) (b : SimplifiedBuilder) (items : List (Item NodeId))
    (trees : List Tree) : Prop :=
  List.Forall₂ b.arena.Holds items (trees.map fun t => (t.simplify g).tree)

theorem SimplifiedBuilder.watches (hg : g.Loaded) :
    Watches g (onEvent g) (Builds g) (Shows g) where
  tracks := tracks hg
  ignoresStates := ignoresStates_builds
  eliminated _ _ := rfl
  accept _ _ := rfl
  weaken {b items trees} h := by
    obtain ⟨es, hof, rfl, hholds⟩ := h
    rw [Shows, List.map_map, List.forall₂_map_right_iff]
    have hrepresents := hholds.represents
    clear hholds
    induction hof with
    | nil => exact .nil
    | cons he _ ih =>
      rw [List.forall_mem_cons] at hrepresents
      exact .cons ⟨_, he.payload, hrepresents.1⟩ (ih hrepresents.2)
  accepted h := h

/-! ### The automaton -/

namespace Config

variable {c d : Config} {trim : Bool}

/-- The tokens that have been shifted are the leaves of the trees that a parser shows. -/
theorem leaves_shown (trim : Bool) (h : Reaches g l {} d) :
    ((d.shown g trim).frames.map Frame.tree).reverse.flatMap Tree.leaves =
      l.tokens g d.shifted := by
  have hleaves : d.frames.reverse.flatMap (fun f => f.tree.leaves) = l.tokens g d.shifted := by
    induction h with
    | refl => rfl
    | tail _ hmove ih => exact leaves_of_move hmove ih
  rw [← hleaves, ← List.map_reverse, List.flatMap_map]
  cases trim with
  | false => rfl
  | true =>
    simp only [shown, contract, if_true, ← List.map_reverse, List.flatMap_map, leaves_contract]

/-- The trees that a parser shows have as many children everywhere as productions have handles. -/
theorem hasArity_shown (hg : g.Loaded) (h : Reaches g l {} d) :
    ∀ t ∈ (d.shown g trim).frames.map Frame.tree, t.HasArity g := by
  have harity : ∀ f ∈ d.frames, f.tree.HasArity g := by
    induction h with
    | refl => nofun
    | tail _ hmove ih =>
      cases hmove with
      | shift _ _ => exact List.forall_mem_cons.2 ⟨.leaf _, ih⟩
      | @reduce handles below m i p state _ _ hp hlen _ =>
        rw [List.forall_mem_append] at ih
        refine List.forall_mem_cons.2 ⟨.node (hg.getElem?_index hp) ?_ ?_, ih.2⟩
        · rw [List.length_map, List.length_reverse, hlen]
        · exact List.forall_mem_map.2 fun f hf => ih.1 f (List.mem_reverse.1 hf)
  cases trim with
  | false => exact List.forall_mem_map.2 harity
  | true =>
    simp only [shown, contract, if_true, List.map_map]
    exact List.forall_mem_map.2 fun f hf => (harity f hf).contract

end Config

/-! ### At every point of a run -/

namespace Parser

/-- **No token is lost, doubled or moved.**  At every point of a parse without errors, whether
reductions are trimmed or not, the tokens below the items of the stack, from the bottom up, are
those that have been shifted, and these are the tokens of the input before the one that is looked
at.  Concrete trees have a child for each handle.  With the simplified builder, the tokens below the
items are those that have been shifted and that no reduction has left out. -/
theorem terminals_after (hg : g.Loaded) (l : Lexer) (trim : Bool) (n : Nat) :
    match (start g l trim).afterSteps? g (TokenLog.onEvent g) n {} with
    | none =>
      (start g l trim).afterSteps? g ConcreteBuilder.onEvent n {} = none ∧
        (start g l trim).afterSteps? g (SimplifiedBuilder.onEvent g) n {} = none
    | some (log, _) => ∃ k b p b' p',
      (start g l trim).afterSteps? g ConcreteBuilder.onEvent n {} = some (b, p) ∧
        (start g l trim).afterSteps? g (SimplifiedBuilder.onEvent g) n {} = some (b', p') ∧
        log.shifted = l.tokens g k ∧
        (p.lookahead = .pending (l.tokenAt g k) ∧ p.lexer = l.skip g (k + 1) ∨
          (∀ token, p.lookahead ≠ .pending token) ∧ p.lexer = l.skip g k) ∧
        b.arena.terminalsOf (p.stack g) = log.shifted ∧ b.arena.HasArity g ∧
        b'.arena.terminalsOf (p'.stack g) = log.left := by
  have hlog := (TokenLog.watches hg).after hg n (Mirrors.start g l trim) (s := {})
    (by cases trim <;> exact ⟨rfl, .nil, nofun⟩)
  have hconcrete := (ConcreteBuilder.watches hg).after hg n (Mirrors.start g l trim) (s := {})
    (by cases trim <;> exact ⟨.nil, nofun⟩)
  have hsimplified := (SimplifiedBuilder.watches hg).after hg n (Mirrors.start g l trim) (s := {})
    (by cases trim <;> exact SimplifiedBuilder.builds_start)
  -- the three parsers are where the automaton is
  cases hafter : Config.afterSteps? g l n {} with
  | none =>
    rw [hafter] at hlog hconcrete hsimplified
    rw [hlog]
    exact ⟨hconcrete, hsimplified⟩
  | some d =>
    rw [hafter] at hlog hconcrete hsimplified
    obtain ⟨log, r, hlog, -, hrecords⟩ := hlog
    obtain ⟨b, p, hconcrete, hp, hbuilds, harity⟩ := hconcrete
    obtain ⟨b', p', hsimplified, -, hshows⟩ := hsimplified
    rw [hlog]
    have hreaches := Config.reaches_of_afterSteps? hafter
    have hleaves := Config.leaves_shown trim hreaches
    refine ⟨d.shifted, b, p, b', p', hconcrete, hsimplified, hrecords.shifted.trans hleaves,
      hp.input, ?_, harity, ?_⟩
    · rw [Arena.terminalsOf_stack hbuilds, hrecords.shifted]
    · rw [Arena.terminalsOf_stack hshows, hrecords.left_eq, ← List.map_reverse, List.flatMap_map]
      refine List.flatMap_congr fun t ht => ?_
      have htree := Config.hasArity_shown hg hreaches t (List.mem_reverse.1 ht)
      exact htree.leaves_simplify hg

set_option maxRecDepth 10000 in
/-- A parse of `[a,b]` that has come as far as to reduce `a,b`.  Four tokens have been shifted, and
the simplified tree is without the comma. -/
theorem terminals_after_comma :
    ∃ g, Grammar.ofBytes Sample.lists.toBytes = .ok g ∧ ∃ l : Lexer,
      l = ({} : Lexer).load (.owned "[a,b]") ∧ ∃ log r b p b' p',
      (start g l false).afterSteps? g (TokenLog.onEvent g) 6 {} = some (log, r) ∧
      (start g l false).afterSteps? g ConcreteBuilder.onEvent 6 {} = some (b, p) ∧
      (start g l false).afterSteps? g (SimplifiedBuilder.onEvent g) 6 {} = some (b', p') ∧
      log.shifted.length = 4 ∧ log.removed = [2] ∧
      b.arena.terminalsOf (p.stack g) = log.shifted ∧
      b'.arena.terminalsOf (p'.stack g) = log.left := by
  generalize hl : ({} : Lexer).load (.owned "[a,b]") = l
  have hcheck : Grammar.loadsWith Sample.lists.toBytes (fun g =>
      ((start g l false).afterSteps? g (TokenLog.onEvent g) 6 {}).any
        fun (log, _) => log.shifted.length == 4 && log.removed == [2]) = true := by
    rw [← hl]
    decide +kernel
  obtain ⟨g, hload, hg⟩ := Grammar.exists_of_loadsWith hcheck
  simp only [Option.any_eq_true, Bool.and_eq_true, beq_iff_eq] at hg
  obtain ⟨⟨log, r⟩, hlog, hlength, hremoved⟩ := hg
  have hafter := terminals_after (.ofBytes hload) l false 6
  rw [hlog] at hafter
  obtain ⟨_, b, p, b', p', hb, hb', -, -, hconcrete, -, hsimplified⟩ := hafter
  exact ⟨g, hload, l, rfl, log, r, b, p, b', p', hlog, hb, hb', hlength, hremoved, hconcrete,
    hsimplified⟩

end Parser

end CompiledGrammar
