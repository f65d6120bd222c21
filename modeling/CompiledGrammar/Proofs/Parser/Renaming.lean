import CompiledGrammar.Proofs.Parser.Tracking
import CompiledGrammar.Proofs.Tree.Contract

/-!
# Trimming parsers follow the automaton

A parser that trims reductions also takes the steps of the parsing automaton.  Where the automaton
puts the node of a renaming on its stack, the parser moves the topmost item on, so its items stand
for the trees of the automaton without their renamings (`Parser.TrimsAt`).

`Tracks.runWith_trimming` is for a trimming parser what `Tracks.runWith` is for one that does not: a
builder that has no use for the states of items (`IgnoresStates`) builds what the automaton has on
its stack without its renamings.
-/

namespace CompiledGrammar

/-- The trees on the stack without their renamings. -/
def Config.contract (g : Grammar) (c : Config) : Config :=
  { c with frames := c.frames.map fun f => { f with tree := f.tree.contract g } }

/-- A relation that the states of items do not matter for. -/
def IgnoresStates {σ τ : Type} (R : σ → List (Item τ) → List Tree → Prop) : Prop :=
  ∀ {s : σ} {item : Item τ} {items : List (Item τ)} {trees : List Tree} (state : LalrStateIdx),
    R s (item :: items) trees → R s ({ item with state } :: items) trees

namespace Parser

variable {σ τ : Type} {g : Grammar} {l : Lexer} {c d : Config} {q : Parser τ}

/-- The parser, were it not to trim. -/
def plain (q : Parser τ) : Parser τ := { q with trim := false }

theorem plain_setPayload (q : Parser τ) (payload : Option τ) :
    (q.setPayload payload).plain = q.plain.setPayload payload := by
  obtain ⟨lexer, trim, state, items, lookahead, reduction, error⟩ := q
  cases items <;> rfl

theorem plain_look (q : Parser τ) :
    q.plain.look g = ((q.look g).1, (q.look g).2.plain) := by
  obtain ⟨lexer, trim, state, items, lookahead, reduction, error⟩ := q
  cases lookahead <;> rfl

theorem trim_look (q : Parser τ) : (q.look g).2.trim = q.trim := by
  obtain ⟨lexer, trim, state, items, lookahead, reduction, error⟩ := q
  cases lookahead <;> rfl

/-- A trimming parser is at a configuration: were it not to trim, it would be at the one without the
renamings. -/
structure TrimsAt (g : Grammar) (l : Lexer) (c : Config) (q : Parser τ) : Prop where
  trimming : q.trim = true
  plain : At g l (c.contract g) q.plain

theorem trimsAt_start (g : Grammar) (l : Lexer) : TrimsAt g l {} (start g l true : Parser τ) :=
  ⟨rfl, at_start g l⟩

theorem topOf_contract (frames : List Frame) :
    g.topOf (frames.map fun f => { f with tree := f.tree.contract g }) = g.topOf frames := by
  cases frames <;> rfl

namespace TrimsAt

theorem setPayload (h : TrimsAt g l c q) (payload : Option τ) :
    TrimsAt g l c (q.setPayload payload) := by
  refine ⟨?_, ?_⟩
  · rw [← h.trimming, Parser.setPayload]
    cases q.items <;> rfl
  · rw [plain_setPayload]
    exact h.plain.setPayload payload

theorem state_eq (h : TrimsAt g l c q) : q.state = c.state g :=
  h.plain.state.trans (topOf_contract c.frames)

/-- Looking at the next token changes nothing else. -/
theorem look (h : TrimsAt g l c q) : ∃ r, q.look g = (c.lookahead g l, r) ∧ TrimsAt g l c r ∧
    r.items = q.items ∧ r.lookahead = .pending (c.lookahead g l) := by
  obtain ⟨p, hlook, hp, hitems, hpending⟩ := h.plain.look
  have htrim := trim_look (g := g) q
  rw [plain_look, Prod.mk.injEq] at hlook
  obtain ⟨htoken, rfl⟩ := hlook
  exact ⟨(q.look g).2, Prod.ext htoken rfl, ⟨htrim.trans h.trimming, hp⟩, hitems, hpending⟩

end TrimsAt

/-! ### Steps -/

theorem plain_replace (q : Parser τ) (production : Production) (token : Token) :
    q.plain.replace g production token =
      ((q.replace g production token).1, (q.replace g production token).2.plain) := by
  rcases lt_or_exists_append q.items production.handles.length with hlt | ⟨hs, below, hitems, hlen⟩
  · rw [replace_of_lt hlt, replace_of_lt (show q.plain.items.length < _ from hlt)]
    rfl
  · rw [replace_append hitems hlen, replace_append (show q.plain.items = _ from hitems) hlen]
    cases g.goto? (g.topState below) production.head <;> rfl

/-- The action on the token reduces a production that only renames. -/
def RenamesOn (g : Grammar) (c : Config) (token : Token) : Prop :=
  ∃ i p, g.action? (c.state g) token.symbol = some (.reduce i) ∧ g.productions[i]? = some p ∧
    g.isUnit p = true

/-- Apart from renamings, a trimming parser does what it would if it were not to trim. -/
theorem plain_act {token : Token} (hstate : q.state = c.state g)
    (hrenames : ¬ RenamesOn g c token) :
    q.plain.act g token = ((q.act g token).1, (q.act g token).2.plain) := by
  unfold act
  split
  · rfl
  rw [show q.plain.state = q.state from rfl]
  cases haction : g.action? q.state token.symbol with
  | none => rfl
  | some action =>
    cases action with
    | shift state => rfl
    | reduce i =>
      dsimp only
      unfold reduce
      cases hp : g.productions[i]? with
      | none => rfl
      | some p =>
        have hunit : g.isUnit p = false := by
          by_contra hunit
          exact hrenames ⟨i, p, hstate ▸ haction, hp, by simpa using hunit⟩
        dsimp only
        rw [hunit, Bool.and_false, Bool.and_false, if_neg Bool.false_ne_true,
          if_neg Bool.false_ne_true]
        exact plain_replace q p token
    | accept => rfl
    | goto state => rfl

theorem trim_act (q : Parser τ) (token : Token) : (q.act g token).2.trim = q.trim := by
  unfold act reduce rename replace
  dsimp only
  (repeat' split) <;> rfl

theorem plain_step (h : TrimsAt g l c q) (hrenames : ¬ RenamesOn g c (c.lookahead g l)) :
    q.plain.step g = ((q.step g).1, (q.step g).2.plain) ∧ (q.step g).2.trim = true := by
  obtain ⟨r, hlook, hr, -, -⟩ := h.look
  rw [step_eq, step_eq, plain_look, hlook]
  exact ⟨plain_act hr.state_eq hrenames, (trim_act r _).trans hr.trimming⟩

/-- A move that is no renaming is one without the renamings, too. -/
theorem move_contract (hg : g.Loaded) (h : Move g l c d)
    (hrenames : ¬ RenamesOn g c (c.lookahead g l)) : Move g l (c.contract g) (d.contract g) := by
  cases h with
  | @shift frames m state herror haction =>
    have hmove := Move.shift herror (topOf_contract (g := g) frames ▸ haction)
    rwa [← contract_leaf (g := g)] at hmove
  | @reduce handles below m i p state herror haction hp hlen hgoto =>
    have hunit : g.isUnit p = false := by
      by_contra hunit
      exact hrenames ⟨i, p, haction, hp, by simpa using hunit⟩
    rw [← topOf_contract, List.map_append] at haction
    rw [← topOf_contract] at hgoto
    have hmove := Move.reduce herror haction hp (by rw [List.length_map, hlen]) hgoto
    have htree : (Tree.node p.index (handles.reverse.map Frame.tree)).contract g = .node p.index
        ((handles.map fun f => { f with tree := f.tree.contract g }).reverse.map Frame.tree) := by
      rw [contract_node, trimmedNode_of_not_isUnit (hg.getElem?_index hp) hunit, ← List.map_reverse,
        List.map_map, List.map_map]
      rfl
    rwa [← htree, ← List.map_append] at hmove

/-- A renaming moves the topmost item on. -/
theorem step_of_renamesOn (hg : g.Loaded) (h : TrimsAt g l c q) (hmove : Move g l c d)
    (hrenames : RenamesOn g c (c.lookahead g l)) :
    ∃ item items state r, q.items = item :: items ∧ q.step g = (.reduceEliminated, r) ∧
      r.items = { item with state } :: items ∧ TrimsAt g l d r ∧
      (d.contract g).frames.map Frame.tree = (c.contract g).frames.map Frame.tree := by
  obtain ⟨i, p, haction, hp, hunit⟩ := hrenames
  obtain ⟨r, hlook, hr, hitems, hpending⟩ := h.look
  cases hmove with
  | shift _ hshift => cases haction.symm.trans hshift
  | @reduce handles below m i' p' state herror hreduce hp' hlen hgoto =>
    -- it is this production that is reduced, so there is one handle
    cases haction.symm.trans hreduce
    cases hp.symm.trans hp'
    obtain ⟨s, hhandles, -⟩ := Grammar.exists_handle_of_isUnit hunit
    rw [hhandles] at hlen
    obtain ⟨f, rfl⟩ := List.length_eq_one_iff.1 hlen
    obtain ⟨item, items, hfirst, hrest, hsplit⟩ := List.forall₂_cons_right_iff.1 hr.plain.items
    replace hsplit : r.items = item :: items := hsplit
    have htree : (Tree.node p.index [f.tree]).contract g = f.tree.contract g := by
      rw [contract_node, List.map_singleton, trimmedNode_of_isUnit (hg.getElem?_index hp) hunit]
    have htop : g.topState items = g.topOf below := (topState_eq hrest).trans (topOf_contract below)
    have hrename : r.rename g p (l.tokenAt g m) =
        (.reduceEliminated, { r with state, items := { item with state } :: items }) := by
      unfold rename
      simp only [hsplit, htop, hgoto]
    have hact : r.act g (l.tokenAt g m) = r.rename g p (l.tokenAt g m) := by
      have hstate : g.action? r.state (l.tokenAt g m).symbol = some (.reduce i) := by
        rw [hr.state_eq]
        exact haction
      simp only [act, herror, hstate, reduce, hp, hr.trimming, hunit, Bool.and_self,
        Bool.false_eq_true, ↓reduceIte]
    refine ⟨item, items, state, { r with state, items := { item with state } :: items },
      hitems ▸ hsplit, ?_, rfl, ⟨hr.trimming, rfl, rfl, .cons ⟨rfl, ?_⟩ hrest, hr.plain.input⟩, ?_⟩
    · rw [step_eq, hlook]
      exact hact.trans hrename
    · exact hfirst.origin.trans (congrArg Tree.origin htree.symm)
    · exact congrArg (· :: _) htree

/-- Any other step is the one that the parser would take if it were not to trim. -/
theorem TrimsAt.follows (hg : g.Loaded) (h : TrimsAt g l c q) (hmove : Move g l c d)
    (hrenames : ¬ RenamesOn g c (c.lookahead g l)) : (q.step g).2.trim = true ∧
      Follows g l (c.contract g) q.plain (.ok (d.contract g))
        ((q.step g).1, (q.step g).2.plain) := by
  obtain ⟨hplain, htrim⟩ := plain_step h hrenames
  have hfollows := h.plain.step
  rw [Config.step_of_move (move_contract hg hmove hrenames), hplain] at hfollows
  exact ⟨htrim, hfollows⟩

/-- A trimming parser accepts where the automaton does. -/
theorem TrimsAt.accept (h : TrimsAt g l c q) (hstep : c.step g l = .error .accept) :
    ∃ r, q.step g = (.accept, r) ∧ TrimsAt g l c r ∧ r.items = q.items := by
  obtain ⟨r, hlook, hr, hitems, -⟩ := h.look
  obtain ⟨herror, haction⟩ := Config.step_eq_accept.1 hstep
  refine ⟨r, ?_, hr, hitems⟩
  rw [step_eq, hlook]
  simp only [act, herror, hr.state_eq, haction, Bool.false_eq_true, ↓reduceIte]

end Parser

namespace Tracks

variable {σ τ : Type} {g : Grammar} {l : Lexer} {handler : Handler σ τ}
  {R : σ → List (Item τ) → List Tree → Prop}

/-- The relation goes on over a step of a trimming parser. -/
theorem stepWith_trimming (hg : g.Loaded) (htracks : Tracks g handler R)
    (hignores : IgnoresStates R) (hpassive : ∀ s p, handler .reduceEliminated s p = (s, p)) {s : σ}
    {q : Parser τ} {c d : Config} (hq : q.TrimsAt g l c)
    (hR : R s q.items ((c.contract g).frames.map Frame.tree)) (hmove : Move g l c d) :
    ∃ e s' q', q.stepWith g handler s = (e, s', q') ∧ e.isFinal = false ∧ q'.TrimsAt g l d ∧
      R s' q'.items ((d.contract g).frames.map Frame.tree) := by
  unfold Parser.stepWith
  by_cases hrenames : Parser.RenamesOn g c (c.lookahead g l)
  · -- the topmost item moves on, and stands for the same tree
    obtain ⟨item, items, state, r, hitems, hresult, hmoved, hr, htrees⟩ :=
      Parser.step_of_renamesOn hg hq hmove hrenames
    rw [hitems] at hR
    rw [hresult]
    refine ⟨.reduceEliminated, s, r, congrArg (Prod.mk _) (hpassive s r), rfl, hr, ?_⟩
    rw [hmoved, htrees]
    exact hignores state hR
  · obtain ⟨htrim, hfollows⟩ := hq.follows hg hmove hrenames
    obtain ⟨hfinal, hat, s', payload, hhandler, hR'⟩ := htracks.follows (r := (q.step g).2)
      hfollows hR rfl rfl rfl
    exact ⟨(q.step g).1, s', _, congrArg (Prod.mk _) hhandler, hfinal,
      Parser.TrimsAt.setPayload ⟨htrim, hat⟩ payload, hR'⟩

/-- **A builder follows the automaton without its renamings.**  When the automaton accepts, so does
a trimming parser that a handler watches, and the relation that the handler keeps up holds between
its items and the trees of the automaton without their renamings. -/
theorem runWith_trimming (hg : g.Loaded) (htracks : Tracks g handler R) (hignores : IgnoresStates R)
    (hpassive : ∀ s p, handler .reduceEliminated s p = (s, p)) (n : Nat) {s : σ} {q : Parser τ}
    {c d : Config} (hq : q.TrimsAt g l c)
    (hR : R s q.items ((c.contract g).frames.map Frame.tree))
    (hrun : c.run g l n = some (d, .accept)) :
    ∃ s' q', q.runWith g handler n s = some (.accept, handler .accept s' q') ∧
      R s' q'.items ((d.contract g).frames.map Frame.tree) := by
  induction n generalizing s q c with
  | zero => cases hrun
  | succ n ih =>
    unfold Parser.runWith
    cases hstep : c.step g l with
    | ok next =>
      have hmove := Config.step_eq_ok.1 hstep
      rw [Config.run_succ_of_move hmove] at hrun
      obtain ⟨e, s', q', hresult, hfinal, hq', hR'⟩ :=
        stepWith_trimming hg htracks hignores hpassive hq hR hmove
      simp only [hresult, hfinal, Bool.false_eq_true, ↓reduceIte]
      exact ih hq' hR' hrun
    | error verdict =>
      rw [Config.run_succ_of_verdict hstep, Option.some_inj, Prod.mk.injEq] at hrun
      obtain ⟨rfl, rfl⟩ := hrun
      obtain ⟨r, haccept, -, hitems⟩ := hq.accept hstep
      refine ⟨s, r, ?_, hitems ▸ hR⟩
      simp only [Parser.stepWith, haccept, Event.isFinal, ↓reduceIte]

end Tracks

end CompiledGrammar
