import CompiledGrammar.Proofs.Grammar.Loaded
import CompiledGrammar.Proofs.Parser.Step
import CompiledGrammar.Table.Sample
import Mathlib.Logic.Function.Iterate

/-!
# Failed steps

What a step that fails leaves behind, and what further steps come to.

* Nearly all ways of failing leave the state and the items as they were.  The exception is a
  reduction that takes the handles of its production off the stack and only then finds no state to
  go to (`Parser.LosesHandles`): the handles are gone, and the state is still the one on top of
  them.
* If no handles are lost, the parser has come to an end, and every further step fails in the same
  way (`Parser.step_of_error`).  If they are, the next step reduces the same production once more,
  further down the stack, and may even go on from there (`Parser.step_of_error_doubled`).
-/

namespace CompiledGrammar

namespace Parser

variable {τ : Type} {g : Grammar} {p : Parser τ} {token : Token} {production : Production}

/-- On a token, the production is to be reduced and not trimmed, all of its handles, at least one,
are there to be taken off the stack, and below them there is no state to go to. -/
structure LosesHandlesOn (g : Grammar) (p : Parser τ) (token : Token) (production : Production) :
    Prop where
  /-- The token is no error. -/
  noError : g.hasKind token.symbol .error = false
  /-- The action on the token is to reduce the production. -/
  reduces : ∃ i, g.action? p.state token.symbol = some (.reduce i) ∧
    g.productions[i]? = some production
  /-- The reduction is not trimmed. -/
  untrimmed : (p.trim && g.isUnit production) = false
  /-- There are handles. -/
  nonempty : production.handles ≠ []
  /-- All of them are on the stack. -/
  enough : production.handles.length ≤ p.items.length
  /-- The state below them has nowhere to go. -/
  stuck : g.goto? (g.topState (p.items.drop production.handles.length)) production.head = none

/-- The next step takes the handles of the production off the stack and then fails. -/
def LosesHandles (g : Grammar) (p : Parser τ) (production : Production) : Prop :=
  p.LosesHandlesOn g (p.look g).1 production

/-! ### Ways to fail -/

theorem rename_of_error (h : (p.rename g production token).1 = .error) :
    p.rename g production token = p.fail .internal token := by
  unfold rename at h ⊢
  cases hitems : p.items with
  | nil => rfl
  | cons item items =>
    rw [hitems] at h
    dsimp only at h ⊢
    split at h
    · cases h
    · rfl

theorem replace_of_error (h : (p.replace g production token).1 = .error) :
    p.replace g production token = p.fail .internal token ∨
      production.handles ≠ [] ∧ production.handles.length ≤ p.items.length ∧
        g.goto? (g.topState (p.items.drop production.handles.length)) production.head = none := by
  rcases lt_or_exists_append p.items production.handles.length with
    hlt | ⟨handles, below, hitems, hlen⟩
  · exact Or.inl (replace_of_lt hlt)
  · have hreplace : p.replace g production token = _ := replace_append hitems hlen
    cases hgoto : g.goto? (g.topState below) production.head with
    | some state =>
      rw [hreplace, hgoto] at h
      cases h
    | none =>
      rw [hgoto] at hreplace
      cases handles with
      | nil => exact Or.inl (hreplace.trans (by rw [← List.nil_append below, ← hitems]))
      | cons item handles =>
        refine Or.inr ⟨List.ne_nil_of_length_eq_add_one hlen.symm, ?_, ?_⟩
        · rw [hitems, List.length_append, hlen]
          exact Nat.le_add_right _ _
        · rwa [hitems, ← hlen, List.drop_left]

theorem act_of_losesHandlesOn (h : p.LosesHandlesOn g token production) :
    p.act g token =
      { p with items := p.items.drop production.handles.length }.fail .internal token := by
  obtain ⟨i, haction, hproduction⟩ := h.reduces
  have hreplace : p.replace g production token = _ :=
    replace_append (List.take_append_drop production.handles.length p.items).symm
      (List.length_take_of_le h.enough)
  rw [h.stuck] at hreplace
  simp only [act, h.noError, haction, reduce, hproduction, h.untrimmed, Bool.false_eq_true,
    if_false]
  exact hreplace

/-- On a token, a parser fails as it is unless it loses the handles of a production. -/
theorem act_of_error (h : (p.act g token).1 = .error) :
    (∃ fault, p.act g token = p.fail fault token) ∨
      ∃ production, p.LosesHandlesOn g token production := by
  unfold act at h ⊢
  by_cases herror : g.hasKind token.symbol .error = true
  · exact Or.inl ⟨_, if_pos herror⟩
  rw [if_neg herror] at h ⊢
  cases haction : g.action? p.state token.symbol with
  | none => exact Or.inl ⟨_, rfl⟩
  | some action =>
    rw [haction] at h
    cases action with
    | shift state => cases h
    | accept => cases h
    | goto state => exact Or.inl ⟨_, rfl⟩
    | reduce i =>
      simp only [reduce] at h ⊢
      cases hproduction : g.productions[i]? with
      | none => exact Or.inl ⟨_, rfl⟩
      | some production =>
        simp only [hproduction] at h ⊢
        by_cases htrim : (p.trim && g.isUnit production) = true
        · rw [if_pos htrim] at h ⊢
          exact Or.inl ⟨_, rename_of_error h⟩
        · rw [if_neg htrim] at h ⊢
          rcases replace_of_error h with hfail | ⟨hhandles, henough, hstuck⟩
          · exact Or.inl ⟨_, hfail⟩
          · exact Or.inr ⟨production, Bool.eq_false_iff.2 herror, ⟨i, haction, hproduction⟩,
              Bool.eq_false_iff.2 htrim, hhandles, henough, hstuck⟩

/-- A parser that fails does not look at the error it has. -/
theorem act_setError (e : Option ParseError) (h : (p.act g token).1 = .error) :
    ({ p with error := e } : Parser τ).act g token = p.act g token := by
  revert h
  unfold act reduce rename replace
  dsimp only
  -- wherever the parser does not fail, it says so; wherever it does, the error is a new one
  split
  · exact fun _ => rfl
  split
  · exact fun _ => rfl
  · exact nofun
  · split
    · exact fun _ => rfl
    split
    · split
      · exact fun _ => rfl
      split
      · exact nofun
      · exact fun _ => rfl
    · split
      · exact fun _ => rfl
      split
      · exact nofun
      · exact fun _ => rfl
  · exact nofun
  · exact fun _ => rfl

/-! ### Failed steps -/

/-- Looking reads a token, and leaves the rest as it is. -/
theorem look_eq (p : Parser τ) : (p.look g).2 =
    { p with
      lexer := (p.look g).2.lexer, lookahead := .pending (p.look g).1, reduction := none } := by
  unfold look
  split
  · rename_i hpending
    rw [hpending]
  · rfl

/-- To look at a token once more changes nothing. -/
theorem look_of_pending (hpending : p.lookahead = .pending token)
    (hreduction : p.reduction = none) : p.look g = (token, p) := by
  obtain ⟨lexer, trim, state, items, lookahead, reduction, error⟩ := p
  cases hpending
  cases hreduction
  rfl

/-- A parser that has failed as it was fails in the same way again. -/
theorem step_of_fail {fault : ParseFault} (hpending : p.lookahead = .pending token)
    (hreduction : p.reduction = none) (hact : p.act g token = p.fail fault token) :
    (p.fail fault token).2.step g = p.fail fault token := by
  have hlook : (p.fail fault token).2.look g = (token, (p.fail fault token).2) :=
    look_of_pending hpending hreduction
  have hfails : (p.act g token).1 = .error := by rw [hact]; rfl
  rw [step_eq, hlook]
  exact (act_setError _ hfails).trans hact

/-- A step that loses handles keeps the state, and only what lay below the handles. -/
theorem step_of_losesHandles (h : p.LosesHandles g production) :
    p.step g = { (p.look g).2 with items := p.items.drop production.handles.length }.fail .internal
      (p.look g).1 := by
  have hact : (p.look g).2.LosesHandlesOn g (p.look g).1 production := by
    rw [look_eq]
    exact ⟨h.noError, h.reduces, h.untrimmed, h.nonempty, h.enough, h.stuck⟩
  rw [step_eq, act_of_losesHandlesOn hact]
  rw [look_eq]

theorem stack_ne_of_losesHandles (h : p.LosesHandles g production) :
    (p.step g).2.stack g ≠ p.stack g := by
  have hpos := List.length_pos_iff.2 h.nonempty
  have henough := h.enough
  intro hstack
  have hlen := congrArg List.length hstack
  rw [step_of_losesHandles h] at hlen
  simp only [fail, stack, List.length_cons, List.length_reverse, List.length_drop] at hlen
  omega

/-- **What a failed step leaves behind.**  The state is as it was, and so is the stack unless the
handles of a production have been lost.  If they have not, no further step does anything but fail in
the same way. -/
theorem step_of_error (h : (p.step g).1 = .error) :
    (p.step g).2.state = p.state ∧
      ((p.step g).2.stack g = p.stack g ↔ ∀ production, ¬ p.LosesHandles g production) ∧
      ((∀ production, ¬ p.LosesHandles g production) →
        ∀ n, (fun s : Event × Parser τ => s.2.step g)^[n] (p.step g) = p.step g) := by
  have hlook := look_eq (g := g) p
  rw [step_eq] at h
  rcases act_of_error h with ⟨fault, hact⟩ | ⟨production, hloses⟩
  · have hstep : p.step g = (p.look g).2.fail fault (p.look g).1 := hact
    have hstack : (p.step g).2.stack g = p.stack g := by rw [hstep, hlook]; rfl
    have hagain : (p.step g).2.step g = p.step g := by
      rw [hstep]
      exact step_of_fail (by rw [hlook]) (by rw [hlook]) hact
    refine ⟨by rw [hstep, hlook]; rfl, ⟨fun _ production hloses => ?_, fun _ => hstack⟩,
      fun _ n => Function.iterate_fixed hagain n⟩
    exact stack_ne_of_losesHandles hloses hstack
  · rw [hlook] at hloses
    replace hloses : p.LosesHandles g production :=
      ⟨hloses.noError, hloses.reduces, hloses.untrimmed, hloses.nonempty, hloses.enough,
        hloses.stuck⟩
    have hstack := stack_ne_of_losesHandles hloses
    refine ⟨?_, ⟨fun heq => absurd heq hstack, fun hnone => absurd hloses (hnone production)⟩,
      fun hnone => absurd hloses (hnone production)⟩
    rw [step_of_losesHandles hloses, hlook]
    rfl

set_option maxRecDepth 10000 in
/-- After `2+` an asterisk cannot come, and cannot come later either.  What six steps have put on
the stack stays there. -/
theorem step_of_error_asterisk :
    ∃ g, Grammar.ofBytes Sample.operators.toBytes = .ok g ∧ ∃ p : Parser Unit,
      p = (fun q : Parser Unit => (q.step g).2)^[6]
          (.start g (({} : Lexer).load (.owned "2+*3")) false) ∧
        (p.stack g).map Item.state = [0, 1, 8] ∧ (p.step g).1 = .error ∧
        (p.step g).2.state = p.state ∧ (p.step g).2.stack g = p.stack g ∧
        ∀ n, (fun s : Event × Parser Unit => s.2.step g)^[n] (p.step g) = p.step g := by
  have hcheck : Grammar.loadsWith Sample.operators.toBytes (fun g =>
      let p : Parser Unit := (fun q : Parser Unit => (q.step g).2)^[6]
        (.start g (({} : Lexer).load (.owned "2+*3")) false)
      (p.stack g).map Item.state == [0, 1, 8] && (p.step g).1 == .error &&
        g.action? p.state (p.look g).1.symbol == none) = true := by
    decide +kernel
  obtain ⟨g, hload, hg⟩ := Grammar.exists_of_loadsWith hcheck
  simp only [Bool.and_eq_true, beq_iff_eq] at hg
  obtain ⟨⟨hitems, herror⟩, hnone⟩ := hg
  obtain ⟨hstate, hstack, hagain⟩ := step_of_error herror
  have hkept : ∀ production, ¬ Parser.LosesHandles g ((fun q : Parser Unit => (q.step g).2)^[6]
      (.start g (({} : Lexer).load (.owned "2+*3")) false)) production := by
    intro production hloses
    obtain ⟨i, hreduce, -⟩ := hloses.reduces
    rw [hnone] at hreduce
    cases hreduce
  exact ⟨g, hload, _, rfl, hitems, herror, hstate, hstack.2 hkept, hagain hkept⟩

set_option maxRecDepth 10000 in
/-- Handles can be lost.  Of two letters, the second is reduced with nowhere to go.  That is an
error, but it takes the letter off the stack, so the next step reduces the first one, and the one
after it accepts. -/
theorem step_of_error_doubled :
    ∃ g, Grammar.ofBytes Sample.doubled.toBytes = .ok g ∧ ∃ p : Parser Unit,
      p = (((Parser.start g (({} : Lexer).load (.owned "aa")) false).step g).2.step g).2 ∧
        (p.step g).1 = .error ∧ (p.stack g).length = 3 ∧ ((p.step g).2.stack g).length = 2 ∧
        ((p.step g).2.step g).1 = .reduce ∧ (((p.step g).2.step g).2.step g).1 = .accept := by
  have hcheck : Grammar.loadsWith Sample.doubled.toBytes (fun g =>
      let p : Parser Unit :=
        (((Parser.start g (({} : Lexer).load (.owned "aa")) false).step g).2.step g).2
      (p.step g).1 == .error && (p.stack g).length == 3 && ((p.step g).2.stack g).length == 2 &&
        ((p.step g).2.step g).1 == .reduce &&
        (((p.step g).2.step g).2.step g).1 == .accept) = true := by
    decide +kernel
  obtain ⟨g, hload, hg⟩ := Grammar.exists_of_loadsWith hcheck
  simp only [Bool.and_eq_true, beq_iff_eq] at hg
  obtain ⟨⟨⟨⟨herror, hlen⟩, hlen'⟩, hreduce⟩, haccept⟩ := hg
  exact ⟨g, hload, _, rfl, herror, hlen, hlen', hreduce, haccept⟩

end Parser

end CompiledGrammar
