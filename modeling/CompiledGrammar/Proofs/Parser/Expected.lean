import CompiledGrammar.Proofs.Parser.Checked
import CompiledGrammar.Proofs.Parser.Failure
import CompiledGrammar.Proofs.Parser.Prefix
import CompiledGrammar.Table.Sample

/-!
# Expected symbols

A syntax error lists the symbols from the input for which the state that it is found in has an
action.  That state need not be the one in which the token was read: the parser may have made
reductions on the token before it rejects it.

* `Parser.Reductions` are reductions one after the other.  Which ones are made depends on the stack
  and on the actions for the token, and on nothing else (`Parser.Alike.reductions`).
* `Parser.Advances` says that the next token will be shifted or accepted, after reductions or at
  once, and `Parser.facing` puts another token in its place.
* `Parser.expected_of_error` relates both to the symbols of an error.  A symbol that would have been
  taken is listed if the same reductions are made on it, and a symbol that is listed would have been
  taken if no action for it is there in vain.
* `Parser.expected_inexact` has inputs where this is not so, in either direction.
-/

namespace CompiledGrammar

/-- The step was a reduction, trimmed or not. -/
def Event.isReduction : Event → Bool
  | .reduce => true
  | .reduceEliminated => true
  | _ => false

namespace Grammar

variable {g : Grammar}

/-- The symbols from the input that a state has an action for. -/
theorem mem_expectedIn (hg : g.WellFormed) {state : LalrStateIdx} {s : SymbolIdx} :
    s ∈ g.expectedIn state ↔ g.isExpectable s = true ∧ (g.action? state s).isSome = true := by
  rw [hg.action]
  unfold expectedIn
  cases g.lalrStates[state]? with
  | none => simp
  | some row =>
    have hlookup : (row.actions.lookup s).isSome = true ↔ s ∈ row.actions.map Prod.fst := by
      simp only [List.lookup_isSome_iff, beq_iff_eq, List.mem_map, @eq_comm _ s]
    simp only [Option.bind_some, List.mem_filter, hlookup, and_comm]

theorem hasKind_error_of_isExpectable {s : SymbolIdx} (h : g.isExpectable s = true) :
    g.hasKind s .error = false := by
  revert h
  unfold isExpectable hasKind
  cases g.symbols[s]? with
  | none => exact nofun
  | some symbol =>
    simp only [Option.any_some]
    cases symbol.kind <;> decide

end Grammar

namespace Parser

variable {τ : Type} {g : Grammar} {p p' q r : Parser τ} {t token : Token}
  {states : List LalrStateIdx}

/-! ### Reductions -/

/-- Reductions lead from one parser to another.  Each is made in one of the states. -/
inductive Reductions (g : Grammar) : List LalrStateIdx → Parser τ → Parser τ → Prop where
  /-- None at all. -/
  | nil {p : Parser τ} : Reductions g [] p p
  /-- One, and others after it. -/
  | cons {p q : Parser τ} {states : List LalrStateIdx} :
      (p.step g).1.isReduction = true → Reductions g states (p.step g).2 q →
      Reductions g (p.state :: states) p q

/-- After reductions or at once, the next token is shifted or accepted. -/
def Advances (g : Grammar) (p : Parser τ) : Prop :=
  ∃ states q, Reductions g states p q ∧ ((q.step g).1 = .shift ∨ (q.step g).1 = .accept)

/-- The parser with a token in place of the one that comes next. -/
def facing (p : Parser τ) (t : Token) : Parser τ := { p with lookahead := .pending t }

/-- The same has been put on both stacks. -/
structure Alike (p p' : Parser τ) : Prop where
  trim : p'.trim = p.trim
  state : p'.state = p.state
  items : p'.items = p.items

theorem alike_look (p : Parser τ) : Alike p (p.look g).2 := by
  rw [look_eq]
  exact ⟨rfl, rfl, rfl⟩

/-- All that can be done on a token. -/
inductive Outcome (g : Grammar) (p : Parser τ) (t : Token) : Event × Parser τ → Prop where
  /-- It is an error itself. -/
  | lexical : g.hasKind t.symbol .error = true → Outcome g p t (p.fail .lexical t)
  /-- There is no action for it. -/
  | syntactic :
      g.hasKind t.symbol .error = false → g.action? p.state t.symbol = none →
      Outcome g p t (p.fail (.syntactic (g.expectedIn p.state)) t)
  /-- The table leads nowhere. -/
  | internal (items : List (Item τ)) : Outcome g p t ({ p with items }.fail .internal t)
  /-- It is shifted. -/
  | shift (state : LalrStateIdx) : Outcome g p t (p.shift state t)
  /-- The input is accepted. -/
  | accept : Outcome g p t (.accept, p)
  /-- A reduction is made. -/
  | reduction {event : Event} (state : LalrStateIdx) (items : List (Item τ))
      (reduction : Option (Reduction τ)) :
      event.isReduction = true → Outcome g p t (event, { p with state, items, reduction })

theorem outcome_act (g : Grammar) (p : Parser τ) (t : Token) : Outcome g p t (p.act g t) := by
  unfold act reduce rename replace
  split
  · rename_i hkind
    exact .lexical hkind
  rename_i hkind
  cases haction : g.action? p.state t.symbol with
  | none => exact .syntactic (Bool.eq_false_iff.2 hkind) haction
  | some action =>
    cases action with
    | shift state => exact .shift state
    | accept => exact .accept
    | goto state => exact .internal p.items
    | reduce i =>
      dsimp only
      cases g.productions[i]? with
      | none => exact .internal p.items
      | some production =>
        dsimp only
        split
        · split
          · exact .internal p.items
          · split
            · exact .reduction _ _ p.reduction rfl
            · exact .internal p.items
        · split
          · exact .internal p.items
          · split
            · exact .reduction _ _ _ rfl
            · exact .internal _

theorem outcome_step (g : Grammar) (p : Parser τ) :
    Outcome g (p.look g).2 (p.look g).1 (p.step g) :=
  outcome_act g _ _

theorem fst_look_of_pending (h : p.lookahead = .pending t) : (p.look g).1 = t := by
  unfold look
  rw [h]

/-- What is done on a token depends on the stack and the action for it. -/
theorem Alike.act (h : Alike p p')
    (herror : g.hasKind t.symbol .error = g.hasKind token.symbol .error)
    (haction : g.action? p.state t.symbol = g.action? p.state token.symbol) :
    (p'.act g t).1 = (p.act g token).1 ∧
      ((p.act g token).1.isReduction = true → Alike (p.act g token).2 (p'.act g t).2) := by
  obtain ⟨lexer, _, _, _, lookahead, reduction, error⟩ := p
  obtain ⟨lexer', trim, state, items, lookahead', reduction', error'⟩ := p'
  obtain ⟨rfl, rfl, rfl⟩ := h
  dsimp only at haction
  unfold Parser.act Parser.reduce rename replace
  dsimp only
  rw [herror, haction]
  split
  · exact ⟨rfl, nofun⟩
  cases g.action? state token.symbol with
  | none => exact ⟨rfl, nofun⟩
  | some action =>
    cases action with
    | shift next => exact ⟨rfl, nofun⟩
    | accept => exact ⟨rfl, nofun⟩
    | goto next => exact ⟨rfl, nofun⟩
    | reduce i =>
      dsimp only
      cases g.productions[i]? with
      | none => exact ⟨rfl, nofun⟩
      | some production =>
        dsimp only
        split
        · cases items with
          | nil => exact ⟨rfl, nofun⟩
          | cons item items =>
            dsimp only
            cases g.goto? (g.topState items) production.head with
            | none => exact ⟨rfl, nofun⟩
            | some next => exact ⟨rfl, fun _ => ⟨rfl, rfl, rfl⟩⟩
        · split
          · exact ⟨rfl, nofun⟩
          · cases g.goto? (g.topState (items.drop production.handles.length)) production.head with
            | none => exact ⟨rfl, nofun⟩
            | some next => exact ⟨rfl, fun _ => ⟨rfl, rfl, rfl⟩⟩

theorem Alike.step (h : Alike p p')
    (herror : g.hasKind (p'.look g).1.symbol .error = g.hasKind (p.look g).1.symbol .error)
    (haction : g.action? p.state (p'.look g).1.symbol = g.action? p.state (p.look g).1.symbol) :
    (p'.step g).1 = (p.step g).1 ∧
      ((p.step g).1.isReduction = true → Alike (p.step g).2 (p'.step g).2) := by
  have hlook := alike_look (g := g) p
  have hlook' := alike_look (g := g) p'
  have hboth : Alike (p.look g).2 (p'.look g).2 :=
    ⟨by rw [hlook'.trim, h.trim, hlook.trim], by rw [hlook'.state, h.state, hlook.state],
      by rw [hlook'.items, h.items, hlook.items]⟩
  have haction' : g.action? (p.look g).2.state (p'.look g).1.symbol =
      g.action? (p.look g).2.state (p.look g).1.symbol := by rw [hlook.state, haction]
  exact hboth.act herror haction'

/-- The token that a reduction is made on is still the next one. -/
theorem look_of_reduction (h : (p.step g).1.isReduction = true) :
    ((p.step g).2.look g).1 = (p.look g).1 := by
  refine fst_look_of_pending ?_
  have houtcome := outcome_step g p
  generalize p.step g = result at h houtcome
  cases houtcome with
  | reduction => rw [look_eq]
  | _ => cases h

/-- A token that has been shifted is no longer the next one. -/
theorem unread_of_shift (h : (p.step g).1 = .shift) : ∀ t, (p.step g).2.lookahead ≠ .pending t := by
  have houtcome := outcome_step g p
  generalize p.step g = result at h houtcome
  cases houtcome with
  | shift => exact nofun
  | reduction _ _ _ hreduction =>
    cases h
    cases hreduction
  | _ => cases h

namespace Reductions

/-- Reductions are made on one token. -/
theorem look_eq (h : Reductions g states p q) : (q.look g).1 = (p.look g).1 := by
  induction h with
  | nil => rfl
  | cons hreduction _ ih => exact ih.trans (look_of_reduction hreduction)

theorem append {states' : List LalrStateIdx} (h : Reductions g states p q)
    (h' : Reductions g states' q r) : Reductions g (states ++ states') p r := by
  induction h with
  | nil => exact h'
  | cons hreduction _ ih => exact .cons hreduction (ih h')

/-- There is one way to reduce, so of two ways the one that ends where nothing is reduced goes on
from the other. -/
theorem exists_of_stop {states' : List LalrStateIdx} (h : Reductions g states p q)
    (h' : Reductions g states' p r) (hstop : (r.step g).1.isReduction = false) :
    ∃ rest, Reductions g rest q r := by
  induction h generalizing states' with
  | nil => exact ⟨states', h'⟩
  | cons hreduction _ ih =>
    cases h' with
    | nil =>
      rw [hstop] at hreduction
      cases hreduction
    | cons _ hrest => exact ih hrest

/-- Reducing first does not change whether the next token is shifted or accepted. -/
theorem advances_iff (h : Reductions g states p q) : p.Advances g ↔ q.Advances g := by
  constructor
  · rintro ⟨states', r, hr, hevent⟩
    have hstop : (r.step g).1.isReduction = false := by rcases hevent with h | h <;> rw [h] <;> rfl
    obtain ⟨rest, hrest⟩ := h.exists_of_stop hr hstop
    exact ⟨rest, r, hrest, hevent⟩
  · rintro ⟨rest, r, hr, hevent⟩
    exact ⟨states ++ rest, r, h.append hr, hevent⟩

end Reductions

/-- **On a token that has the same actions in all states where reductions are made, the same
reductions are made.** -/
theorem Alike.reductions (h : Alike p p') (hq : Reductions g states p q)
    (herror : g.hasKind (p'.look g).1.symbol .error = g.hasKind (p.look g).1.symbol .error)
    (haction : ∀ s ∈ states,
      g.action? s (p'.look g).1.symbol = g.action? s (p.look g).1.symbol) :
    ∃ q', Reductions g states p' q' ∧ Alike q q' := by
  induction hq generalizing p' with
  | nil => exact ⟨p', .nil, h⟩
  | @cons p q states hreduction _ ih =>
    obtain ⟨hfirst, hlater⟩ := List.forall_mem_cons.1 haction
    obtain ⟨hevent, hafter⟩ := h.step herror hfirst
    have hreduction' : (p'.step g).1.isReduction = true := hevent ▸ hreduction
    have hlook := look_of_reduction hreduction
    have hlook' := look_of_reduction hreduction'
    obtain ⟨q', hq', halike⟩ := ih (hafter hreduction) (by rw [hlook, hlook', herror])
      (by rwa [hlook, hlook'])
    exact ⟨q', h.state ▸ .cons hreduction' hq', halike⟩

theorem error_of_action?_eq_none (h : g.action? p.state (p.look g).1.symbol = none) :
    (p.step g).1 = .error := by
  have hnone : g.action? (p.look g).2.state (p.look g).1.symbol = none := by
    rw [(alike_look p).state, h]
  rw [step_eq, act, hnone]
  split <;> rfl

theorem Advances.ne_error (h : p.Advances g) : (p.step g).1 ≠ .error := by
  obtain ⟨states, q, hq, hevent⟩ := h
  intro herror
  cases hq with
  | nil => rw [herror] at hevent; rcases hevent with h | h <;> cases h
  | cons hreduction _ => rw [herror] at hreduction; cases hreduction

/-- What is shifted or accepted in the end has an action. -/
theorem Advances.isSome_action? (h : p.Advances g) :
    (g.action? p.state (p.look g).1.symbol).isSome = true :=
  Option.isSome_iff_ne_none.2 fun hnone => h.ne_error (error_of_action?_eq_none hnone)

theorem Alike.advances_of_advances (h : Alike p p') (hlook : (p'.look g).1 = (p.look g).1)
    (hp : p.Advances g) : p'.Advances g := by
  obtain ⟨states, q, hq, hevent⟩ := hp
  obtain ⟨q', hq', halike⟩ := h.reductions hq (by rw [hlook]) fun s _ => by rw [hlook]
  have hlook' : (q'.look g).1 = (q.look g).1 := by rw [hq'.look_eq, hq.look_eq, hlook]
  have hstep := (halike.step (by rw [hlook']) (by rw [hlook'])).1
  exact ⟨states, q', hq', by rwa [hstep]⟩

theorem Alike.advances_iff (h : Alike p p') (hlook : (p'.look g).1 = (p.look g).1) :
    p.Advances g ↔ p'.Advances g :=
  ⟨h.advances_of_advances hlook,
    Alike.advances_of_advances ⟨h.trim.symm, h.state.symm, h.items.symm⟩ hlook.symm⟩

theorem alike_facing (p : Parser τ) (t : Token) : Alike p (p.facing t) := ⟨rfl, rfl, rfl⟩

/-- Another token gets as far as before the reductions that are made on both. -/
theorem advances_facing_iff (h : Reductions g states p q)
    (herror : g.hasKind t.symbol .error = g.hasKind (p.look g).1.symbol .error)
    (haction : ∀ s ∈ states, g.action? s t.symbol = g.action? s (p.look g).1.symbol) :
    (p.facing t).Advances g ↔ (q.facing t).Advances g := by
  obtain ⟨q', hq', halike⟩ := (alike_facing p t).reductions h herror haction
  have hlook : (q'.look g).1 = ((q.facing t).look g).1 := hq'.look_eq
  have hfrom : Alike (q.facing t) q' := ⟨halike.trim, halike.state, halike.items⟩
  rw [hq'.advances_iff, hfrom.advances_iff hlook]

/-- The states in which reductions are made one after the other, of at most `n` of them. -/
def reducing (g : Grammar) : Nat → Parser τ → List LalrStateIdx
  | 0, _ => []
  | n + 1, p =>
    if (p.step g).1.isReduction then p.state :: reducing g n (p.step g).2 else []

theorem exists_reductions_of_runUntil {n : Nat} {event : Event}
    (h : p.runUntil g (!·.isReduction) n = some (event, q)) :
    event.isReduction = false ∧
      ∃ last, Reductions g (reducing g n p) p last ∧ last.step g = (event, q) := by
  induction n generalizing p with
  | zero => cases h
  | succ n ih =>
    unfold runUntil at h
    dsimp only at h
    split at h
    · rename_i hstop
      cases h
      rw [Bool.not_eq_true'] at hstop
      rw [reducing, if_neg (Bool.eq_false_iff.1 hstop)]
      exact ⟨hstop, p, .nil, rfl⟩
    · rename_i hreduction
      rw [Bool.not_eq_true', Bool.not_eq_false] at hreduction
      obtain ⟨hstop, last, hreductions, hlast⟩ := ih h
      rw [reducing, if_pos hreduction]
      exact ⟨hstop, last, .cons hreduction hreductions, hlast⟩

/-- Whether the next token is shifted or accepted can be found out by reducing. -/
theorem advances_iff_of_runUntil {n : Nat} {event : Event}
    (h : p.runUntil g (!·.isReduction) n = some (event, q)) :
    p.Advances g ↔ event = .shift ∨ event = .accept := by
  obtain ⟨hstop, last, hreductions, hlast⟩ := exists_reductions_of_runUntil h
  rw [hreductions.advances_iff]
  refine ⟨fun ⟨_, r, hr, hevent⟩ => ?_, fun hevent => ⟨[], last, .nil, by rwa [hlast]⟩⟩
  cases hr with
  | nil => rwa [hlast] at hevent
  | cons hreduction _ =>
    rw [hlast, hstop] at hreduction
    cases hreduction

/-! ### Errors -/

/-- A parser that has still to read the next token makes reductions on it, one after the other, and
then fails. -/
structure Rejects (g : Grammar) (p : Parser τ) (states : List LalrStateIdx) (last q : Parser τ) :
    Prop where
  /-- The token has not been read. -/
  unread : ∀ t, p.lookahead ≠ .pending t
  /-- There are reductions. -/
  reductions : Reductions g states p last
  /-- The step after them fails. -/
  fails : last.step g = (.error, q)

/-- What is on the stack when a run fails was there when the last token was read, up to the
reductions that were made on it. -/
theorem exists_rejects {n : Nat} (hrun : p.run g n = some (.error, q)) :
    (∃ states last, Reductions g states p last ∧ last.step g = (.error, q)) ∨
      ∃ m r states last, p.afterSteps? g passive m () = some ((), r) ∧
        Rejects g r states last q := by
  unfold run at hrun
  induction n generalizing p with
  | zero => cases hrun
  | succ n ih =>
    unfold runUntil at hrun
    generalize hstep : p.step g = result at hrun
    obtain ⟨event, next⟩ := result
    have hafter (m : Nat) (hne : event ≠ .error) :
        p.afterSteps? g passive (m + 1) () = next.afterSteps? g passive m () := by
      simp only [afterSteps?, stepWith, hstep, passive, if_neg hne]
    cases event with
    | accept => cases hrun
    | error =>
      cases hrun
      exact Or.inl ⟨[], p, .nil, hstep⟩
    | shift =>
      have hunread := unread_of_shift (g := g) (p := p) (by rw [hstep])
      rw [hstep] at hunread
      rcases ih hrun with ⟨states, last, hreductions, hfails⟩ | ⟨m, r, states, last, hm, hr⟩
      · exact Or.inr ⟨1, next, states, last, hafter 0 (by decide), hunread, hreductions, hfails⟩
      · exact Or.inr ⟨m + 1, r, states, last, (hafter m (by decide)).trans hm, hr⟩
    | reduce | reduceEliminated =>
      rcases ih hrun with ⟨states, last, hreductions, hfails⟩ | ⟨m, r, states, last, hm, hr⟩
      · refine Or.inl ⟨p.state :: states, last, .cons ?_ ?_, hfails⟩
        · rw [hstep]
          rfl
        · rwa [hstep]
      · exact Or.inr ⟨m + 1, r, states, last, (hafter m (by decide)).trans hm, hr⟩

/-- A step that fails with a syntax error has found no action. -/
theorem action?_of_syntactic (h : p.step g = (.error, q)) {expected : List SymbolIdx}
    {state : LalrStateIdx} (herror : q.error = some ⟨.syntactic expected, state, token⟩) :
    g.action? p.state token.symbol = none ∧ g.hasKind token.symbol .error = false ∧
      expected = g.expectedIn p.state ∧ state = p.state ∧ token = (p.look g).1 := by
  have hstate := (alike_look (g := g) p).state
  have houtcome := outcome_step g p
  rw [h] at houtcome
  cases houtcome with
  | syntactic hkind haction =>
    cases herror
    rw [hstate] at haction ⊢
    exact ⟨haction, hkind, rfl, rfl, rfl⟩
  | lexical | internal => cases herror
  | reduction _ _ _ hreduction => cases hreduction

theorem advances_of_shift {state : LalrStateIdx} (hkind : g.hasKind t.symbol .error = false)
    (haction : g.action? p.state t.symbol = some (.shift state)) : (p.facing t).Advances g := by
  refine ⟨[], p.facing t, .nil, Or.inl ?_⟩
  have hstep :
      (p.facing t).step g = ({ p.facing t with reduction := none } : Parser τ).act g t := rfl
  rw [hstep, act, hkind]
  simp only [facing, haction, Bool.false_eq_true, ↓reduceIte]
  rfl

/-- The text is rejected with a syntax error that lists the given symbols, `m` steps lead to where
the offending token is to be read, and a token of the symbol `s` would have come to `outcome`. -/
def checkRejected (g : Grammar) (text : String) (m : Nat) (expected : List SymbolIdx)
    (s : SymbolIdx) (outcome : Event) : Bool :=
  let first : Parser Unit := start g (({} : Lexer).load (.owned text)) false
  (first.afterSteps? g passive m ()).any fun after =>
    after.2.lookahead.token?.all (after.2.lookahead == .consumed ·) && g.isExpectable s &&
    (after.2.runUntil g (!·.isReduction) 20).any fun rejected =>
      rejected.1 == .error && first.run g 20 == some (.error, rejected.2) &&
      rejected.2.error.any fun e => e.fault == .syntactic expected &&
        ((after.2.facing { e.token with symbol := s }).runUntil g (!·.isReduction) 20).any
          (·.1 == outcome)

theorem exists_of_checkRejected {text : String} {m : Nat} {expected : List SymbolIdx}
    {s : SymbolIdx} {outcome : Event} (h : checkRejected g text m expected s outcome = true) :
    ∃ (p last q : Parser Unit) (e : ParseError),
      (start g (({} : Lexer).load (.owned text)) false).run g 20 = some (.error, q) ∧
      q.error = some e ∧ e.fault = .syntactic expected ∧
      (start g (({} : Lexer).load (.owned text)) false).afterSteps? g passive m () = some ((), p) ∧
      Rejects g p (reducing g 20 p) last q ∧ g.isExpectable s = true ∧
      ((p.facing { e.token with symbol := s }).Advances g ↔
        outcome = .shift ∨ outcome = .accept) := by
  simp only [checkRejected, Option.any_eq_true, Bool.and_eq_true, beq_iff_eq, Prod.exists] at h
  obtain ⟨_, p, hafter, ⟨hread, hs⟩, event, q, hreduces, ⟨rfl, hrun⟩, e, he, hfault, event', _,
    hother, rfl⟩ := h
  obtain ⟨-, last, hreductions, hlast⟩ := exists_reductions_of_runUntil hreduces
  refine ⟨p, last, q, e, hrun, he, hfault, hafter,
    ⟨fun t ht => ?_, hreductions, hlast⟩, hs, advances_iff_of_runUntil hother⟩
  simp [ht, Lookahead.token?] at hread

/-- What the symbols are that an error on a token lists, if `p` has still to read the token, makes
reductions on it in the given states, and then fails as `last`. -/
structure Lists (g : Grammar) (p : Parser τ) (states : List LalrStateIdx) (last : Parser τ)
    (token : Token) (expected : List SymbolIdx) : Prop where
  /-- They are the symbols from the input for which the last state has an action. -/
  mem_iff : ∀ s, s ∈ expected ↔
    g.isExpectable s = true ∧ (g.action? last.state s).isSome = true
  /-- If the same reductions are made on another token, it would have been shifted or accepted
  exactly if it is listed and would be so from the last state on. -/
  advances_iff : ∀ t : Token, g.isExpectable t.symbol = true →
    (∀ s ∈ states, g.action? s t.symbol = g.action? s token.symbol) →
    ((p.facing t).Advances g ↔ t.symbol ∈ expected ∧ (last.facing t).Advances g)
  /-- If no action for a token is there in vain, another token would have been shifted or accepted
  exactly if it is listed. -/
  advances_iff_mem :
    (∀ t : Token, g.isExpectable t.symbol = true ∨ t = token →
      (g.action? p.state t.symbol).isSome = true → (p.facing t).Advances g) →
    ∀ t : Token, g.isExpectable t.symbol = true →
      (t.symbol ∈ expected ↔ (p.facing t).Advances g)

theorem Rejects.lists (hg : g.WellFormed) {last : Parser τ} (h : Rejects g p states last q)
    {expected : List SymbolIdx} {state : LalrStateIdx}
    (herror : q.error = some ⟨.syntactic expected, state, token⟩) :
    Lists g p states last token expected := by
  obtain ⟨haction, hkind, rfl, -, htoken⟩ := action?_of_syntactic h.fails herror
  have hlook : (p.look g).1 = token := by rw [htoken, h.reductions.look_eq]
  have hmem : ∀ s, s ∈ g.expectedIn last.state ↔
      g.isExpectable s = true ∧ (g.action? last.state s).isSome = true :=
    fun s => Grammar.mem_expectedIn hg
  refine ⟨hmem, fun t ht hstates => ?_, fun hexact t ht => ?_⟩
  · have hkind' : g.hasKind t.symbol .error = g.hasKind (p.look g).1.symbol .error := by
      rw [hlook, hkind, Grammar.hasKind_error_of_isExpectable ht]
    rw [advances_facing_iff h.reductions hkind' (by rwa [hlook]), hmem]
    exact ⟨fun hadvances => ⟨⟨ht, hadvances.isSome_action?⟩, hadvances⟩, And.right⟩
  · -- the token itself has no action where it is read, so nothing is reduced on it
    have hstuck : ¬ p.Advances g := by
      rw [h.reductions.advances_iff]
      exact fun hadvances => hadvances.ne_error (by rw [h.fails])
    have hnone : g.action? p.state token.symbol = none := by
      by_contra hsome
      refine hstuck (((alike_facing p token).advances_iff ?_).2
        (hexact token (Or.inr rfl) (Option.isSome_iff_ne_none.2 hsome)))
      exact hlook.symm
    have hfirst := error_of_action?_eq_none (p := p) (hlook ▸ hnone)
    cases h.reductions with
    | cons hreduction _ => rw [hfirst] at hreduction; cases hreduction
    | nil =>
      rw [hmem]
      exact ⟨fun hlisted => hexact t (Or.inl ht) hlisted.2,
        fun hadvances => ⟨ht, hadvances.isSome_action?⟩⟩

/-- **The symbols that a syntax error lists.**  When a parse, trimmed or not, ends with a syntax
error, then nothing but reductions comes between the state in which the token was read and the one
in which it has no action.  Listed are the symbols from the input for which the latter has one.  As
for other tokens, the symbols of those that would have been shifted or accepted instead are listed
if the same reductions are made on them, and those that are listed would have been if that is so
from the latter state on; both hold of all tokens if the former state has no action in vain. -/
theorem expected_of_error (hg : g.Loaded) {l : Lexer} {trim : Bool} {n : Nat}
    {expected : List SymbolIdx} {state : LalrStateIdx}
    (hrun : (start g l trim : Parser τ).run g n = some (.error, q))
    (herror : q.error = some ⟨.syntactic expected, state, token⟩) :
    (∃ m p states last, (start g l trim : Parser τ).afterSteps? g passive m () = some ((), p) ∧
      Rejects g p states last q) ∧
    ∀ p states last, Rejects g p states last q →
      (p.look g).1 = token ∧ last.state = state ∧ Lists g p states last token expected := by
  refine ⟨?_, fun p states last h => ?_⟩
  · rcases exists_rejects hrun with ⟨states, last, hreductions, hfails⟩ | hlater
    · exact ⟨0, start g l trim, states, last, rfl, nofun, hreductions, hfails⟩
    · exact hlater
  · obtain ⟨-, -, -, hstate, htoken⟩ := action?_of_syntactic h.fails herror
    exact ⟨by rw [htoken, h.reductions.look_eq], hstate.symm, h.lists hg.wellFormed herror⟩

set_option maxRecDepth 10000 in
/-- The input ends too early.  The end of an empty text is rejected at once, and the first state has
no action in vain.  Behind `(1` there are four reductions first; the same are made on `-`, `)` and
`+`, which are listed and would have been shifted. -/
theorem expected_of_error_early :
    (∃ g, Grammar.ofBytes Sample.pairs.toBytes = .ok g ∧
      ∃ (p last q : Parser Unit) (states : List LalrStateIdx) (e : ParseError),
        (start g (({} : Lexer).load (.owned "")) false).run g 20 = some (.error, q) ∧
        q.error = some e ∧ Rejects g p states last q ∧
        Lists g p states last e.token [3, 5] ∧
        ∀ t : Token, g.isExpectable t.symbol = true →
          (t.symbol ∈ [3, 5] ↔ (p.facing t).Advances g)) ∧
    ∃ g, Grammar.ofBytes Sample.operators.toBytes = .ok g ∧
      ∃ (p last q : Parser Unit) (e : ParseError),
        (start g (({} : Lexer).load (.owned "(1")) false).run g 20 = some (.error, q) ∧
        q.error = some e ∧ Rejects g p [6, 5, 3, 2] last q ∧
        Lists g p [6, 5, 3, 2] last e.token [6, 8, 11] ∧
        ∀ t : Token, t.symbol ∈ [6, 8, 11] → (p.facing t).Advances g := by
  constructor
  · have hcheck : Grammar.loadsWith Sample.pairs.toBytes (fun g =>
        checkRejected g "" 0 [3, 5] 3 .shift &&
          (g.action? g.lalrInitial
            ((start g (({} : Lexer).load (.owned "")) false : Parser Unit).look
              g).1.symbol).isNone &&
          (List.range g.symbols.size).all fun s => !g.isExpectable s ||
            (g.action? g.lalrInitial s).all [Action.shift 2, .shift 3].contains) = true := by
      decide +kernel
    obtain ⟨g, hload, hg⟩ := Grammar.exists_of_loadsWith hcheck
    simp only [Bool.and_eq_true, List.all_eq_true, List.mem_range] at hg
    obtain ⟨⟨hrejected, hnone⟩, hshift⟩ := hg
    obtain ⟨p, last, q, ⟨fault, state, token⟩, hrun, he, rfl, hafter, hrejects, -, -⟩ :=
      exists_of_checkRejected hrejected
    cases hafter
    obtain ⟨htoken, -, hlists⟩ := (expected_of_error (.ofBytes hload) hrun he).2 _ _ _ hrejects
    refine ⟨g, hload, _, last, q, _, _, hrun, he, hrejects, hlists,
      hlists.advances_iff_mem fun t ht hsome => ?_⟩
    replace hsome : (g.action? g.lalrInitial t.symbol).isSome = true := hsome
    rcases ht with ht | rfl
    · have hall := hshift t.symbol (Grammar.WellFormed.lt_of_isExpectable ht)
      obtain ⟨action, haction⟩ := Option.isSome_iff_exists.1 hsome
      have hshifts : action = .shift 2 ∨ action = .shift 3 := by
        simpa [ht, haction] using hall
      rcases hshifts with rfl | rfl <;>
        exact advances_of_shift (Grammar.hasKind_error_of_isExpectable ht) haction
    · rw [htoken] at hnone
      exact absurd hsome (Option.not_isSome_iff_eq_none.2 (Option.isNone_iff_eq_none.1 hnone))
  · have hcheck : Grammar.loadsWith Sample.operators.toBytes (fun g =>
        let first : Parser Unit := start g (({} : Lexer).load (.owned "(1")) false
        checkRejected g "(1" 2 [6, 8, 11] 6 .shift &&
          ((first.afterSteps? g passive 2 ()).all fun after =>
            reducing g 20 after.2 == [6, 5, 3, 2]) &&
          ((first.run g 20).all fun rejected => rejected.2.error.all fun e =>
            e.state == 13 && e.token.symbol == 0) &&
          [(6, 9), (8, 18), (11, 8)].all fun (s, target) => g.isExpectable s &&
            g.action? 13 s == some (.shift target) &&
            [6, 5, 3, 2].all fun state => g.action? state s == g.action? state 0) = true := by
      decide +kernel
    obtain ⟨g, hload, hg⟩ := Grammar.exists_of_loadsWith hcheck
    simp only [Bool.and_eq_true, Option.all_eq_true, List.all_eq_true, beq_iff_eq] at hg
    obtain ⟨⟨⟨hrejected, hreducing⟩, hlast⟩, hactions⟩ := hg
    obtain ⟨p, last, q, ⟨fault, state, token⟩, hrun, he, rfl, hafter, hrejects, -, -⟩ :=
      exists_of_checkRejected hrejected
    rw [hreducing _ hafter] at hrejects
    obtain ⟨rfl, htoken⟩ := hlast _ hrun _ he
    obtain ⟨-, hstate, hlists⟩ := (expected_of_error (.ofBytes hload) hrun he).2 _ _ _ hrejects
    refine ⟨g, hload, p, last, q, _, hrun, he, hrejects, hlists, fun t ht => ?_⟩
    obtain ⟨target, hpair⟩ :
        ∃ target : LalrStateIdx, (t.symbol, target) ∈ [(6, 9), (8, 18), (11, 8)] := by
      simpa [exists_or] using ht
    obtain ⟨⟨hexpectable, hshift⟩, hsame⟩ := hactions _ hpair
    have hreductions : ∀ s ∈ [6, 5, 3, 2], g.action? s t.symbol = g.action? s token.symbol :=
      fun s hs => htoken ▸ hsame s hs
    exact (hlists.advances_iff t hexpectable hreductions).2
      ⟨ht, advances_of_shift (Grammar.hasKind_error_of_isExpectable hexpectable)
        (hstate ▸ hshift)⟩

set_option maxRecDepth 10000 in
/-- Behind `(1` an asterisk would have been shifted, but there have been reductions on the end of
the input before it is rejected, and an asterisk is not listed.  Behind `1` a closing parenthesis
is listed, and would have been rejected, after reductions. -/
theorem expected_inexact :
    ∃ g, Grammar.ofBytes Sample.operators.toBytes = .ok g ∧
      (∃ (p last q : Parser Unit) (states : List LalrStateIdx) (e : ParseError),
        (start g (({} : Lexer).load (.owned "(1")) false).run g 20 = some (.error, q) ∧
        q.error = some e ∧ e.fault = .syntactic [6, 8, 11] ∧
        (start g (({} : Lexer).load (.owned "(1")) false).afterSteps? g passive 2 () =
          some ((), p) ∧ Rejects g p states last q ∧
        g.isExpectable 9 = true ∧ (p.facing { e.token with symbol := 9 }).Advances g) ∧
      ∃ (p last q : Parser Unit) (states : List LalrStateIdx) (e : ParseError),
        (start g (({} : Lexer).load (.owned "1 1")) false).run g 20 = some (.error, q) ∧
        q.error = some e ∧ e.fault = .syntactic [0, 6, 8, 9, 10, 11] ∧
        (start g (({} : Lexer).load (.owned "1 1")) false).afterSteps? g passive 1 () =
          some ((), p) ∧ Rejects g p states last q ∧
        g.isExpectable 8 = true ∧ ¬ (p.facing { e.token with symbol := 8 }).Advances g := by
  have hcheck : Grammar.loadsWith Sample.operators.toBytes (fun g =>
      checkRejected g "(1" 2 [6, 8, 11] 9 .shift &&
        checkRejected g "1 1" 1 [0, 6, 8, 9, 10, 11] 8 .error) = true := by
    decide +kernel
  obtain ⟨g, hload, hg⟩ := Grammar.exists_of_loadsWith hcheck
  obtain ⟨hmissing, hlisted⟩ := Bool.and_eq_true_iff.1 hg
  refine ⟨g, hload, ?_, ?_⟩
  · obtain ⟨p, last, q, e, hrun, he, hfault, hafter, hrejects, hs, hadvances⟩ :=
      exists_of_checkRejected hmissing
    exact ⟨p, last, q, _, e, hrun, he, hfault, hafter, hrejects, hs,
      hadvances.2 (Or.inl rfl)⟩
  · obtain ⟨p, last, q, e, hrun, he, hfault, hafter, hrejects, hs, hadvances⟩ :=
      exists_of_checkRejected hlisted
    exact ⟨p, last, q, _, e, hrun, he, hfault, hafter, hrejects, hs,
      fun h => by rcases hadvances.1 h with h | h <;> cases h⟩

end Parser

end CompiledGrammar
