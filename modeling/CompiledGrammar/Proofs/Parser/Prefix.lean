import CompiledGrammar.Proofs.Parser.Renaming
import CompiledGrammar.Proofs.Parser.Trimming

/-!
# Beginnings of runs

What holds of a run at every point of it, and not only when it has come to its end.

* `Parser.afterSteps?` is a parser after some steps, with the handler that watches it, as long as no
  step fails.  `Config.afterSteps?` is the same for the automaton.
* `Parser.Mirrors` places a parser, which trims or not, at a configuration.
* `Watches.after` concludes that parser and automaton go on together, and that the relation that a
  handler keeps up holds between the items and the trees of the automaton, without their renamings
  if the parser trims.
-/

namespace CompiledGrammar

/-! ### After some steps -/

/-- The configuration after `n` steps, if none of them fails.  After it has accepted it stays as it
is. -/
def Config.afterSteps? (g : Grammar) (l : Lexer) : Nat → Config → Option Config
  | 0, c => some c
  | n + 1, c =>
    match c.step g l with
    | .ok d => afterSteps? g l n d
    | .error .accept => some c
    | .error (.fail _) => none

/-- The handler and the parser after `n` steps, if none of them fails. -/
def Parser.afterSteps? {σ τ : Type} (g : Grammar) (handler : Handler σ τ) :
    Nat → σ → Parser τ → Option (σ × Parser τ)
  | 0, s, p => some (s, p)
  | n + 1, s, p =>
    let (event, s, next) := p.stepWith g handler s
    if event = .error then none else afterSteps? g handler n s next

/-- What is reached is what moves keep. -/
theorem Config.reaches_of_afterSteps? {g : Grammar} {l : Lexer} {c d : Config} {n : Nat}
    (h : c.afterSteps? g l n = some d) : Reaches g l c d := by
  induction n generalizing c with
  | zero =>
    cases h
    exact .refl
  | succ n ih =>
    rw [afterSteps?] at h
    cases hstep : c.step g l with
    | ok next =>
      rw [hstep] at h
      exact .head (step_eq_ok.1 hstep) (ih h)
    | error verdict =>
      rw [hstep] at h
      cases verdict with
      | accept =>
        cases h
        exact .refl
      | fail fault => cases h

/-! ### Parsers that trim or not -/

/-- The configuration as a parser shows it: without the renamings, if it trims. -/
def Config.shown (g : Grammar) (trim : Bool) (c : Config) : Config :=
  if trim then c.contract g else c

namespace Parser

variable {σ τ : Type} {g : Grammar} {l : Lexer} {trim : Bool} {c d : Config} {q : Parser τ}

/-- A trimming parser fails where the automaton does. -/
theorem TrimsAt.fail (hg : g.Loaded) (h : TrimsAt g l c q) {fault : ParseFault}
    (hstep : c.step g l = .error (.fail fault)) : (q.step g).1 = .error := by
  -- a parser that does not trim would be on the same way, and fail
  let p : Parser τ :=
    { q with trim := false, items := c.frames.map fun f => ⟨f.state, f.tree.origin, none⟩ }
  have hp : p.At g l c := by
    refine ⟨rfl, h.state_eq, ?_, h.plain.input⟩
    simp only [p, List.forall₂_map_left_iff]
    exact List.forall₂_same.2 fun f _ => ⟨rfl, rfl⟩
  have hstates : p.items.map Item.state = q.items.map Item.state := by
    have hitems : List.Forall₂ Item.StandsFor q.items (c.contract g).frames := h.plain.items
    rw [Config.contract, List.forall₂_map_right_iff] at hitems
    simp only [p, List.map_map]
    generalize c.frames = frames at hitems
    generalize q.items = items at hitems
    induction hitems with
    | nil => rfl
    | cons hfirst _ ih => exact congrArg₂ List.cons hfirst.state.symm ih
  have hsame : SameWay p q := ⟨rfl, h.trimming, rfl, rfl, rfl, hstates⟩
  have hfails : (p.step g).1 = .error := by
    have hfollows := hp.step
    rw [hstep] at hfollows
    generalize p.step g = result at hfollows
    cases hfollows
    rfl
  have hother : ¬ ReducedUnit g (p.step g) := fun hunit => nomatch hfails.symm.trans hunit.1
  exact ((hsame.step hg).1.other hother).trans hfails

/-- A parser, which trims or not, is at a configuration. -/
structure Mirrors (g : Grammar) (l : Lexer) (trim : Bool) (c : Config) (q : Parser τ) : Prop where
  /-- It trims or not. -/
  setting : q.trim = trim
  /-- Were it not to trim, it would be where it shows itself to be. -/
  plain : At g l (c.shown g trim) q.plain

namespace Mirrors

theorem of_at (h : q.At g l c) : Mirrors g l false c q := by
  obtain ⟨lexer, trim, state, items, lookahead, reduction, error⟩ := q
  obtain rfl : trim = false := h.plain
  exact ⟨rfl, h⟩

theorem at_of_false (h : Mirrors g l false c q) : q.At g l c := by
  obtain ⟨lexer, trim, state, items, lookahead, reduction, error⟩ := q
  obtain rfl : trim = false := h.setting
  exact h.plain

theorem of_trimsAt (h : TrimsAt g l c q) : Mirrors g l true c q :=
  ⟨h.trimming, h.plain⟩

theorem trimsAt_of_true (h : Mirrors g l true c q) : TrimsAt g l c q :=
  ⟨h.setting, h.plain⟩

theorem start (g : Grammar) (l : Lexer) (trim : Bool) :
    Mirrors g l trim {} (Parser.start g l trim : Parser τ) := by
  cases trim with
  | false => exact of_at (at_start g l)
  | true => exact of_trimsAt (trimsAt_start g l)

/-- The next token has been read, or is the next one to be read. -/
theorem input (h : Mirrors g l trim c q) :
    (q.lookahead = .pending (c.lookahead g l) ∧ q.lexer = l.skip g (c.shifted + 1)) ∨
      ((∀ t, q.lookahead ≠ .pending t) ∧ q.lexer = l.skip g c.shifted) := by
  have hinput := h.plain.input
  cases trim <;> exact hinput

theorem accept (h : Mirrors g l trim c q) (hstep : c.step g l = .error .accept) :
    ∃ r, q.step g = (.accept, r) ∧ Mirrors g l trim c r ∧ r.items = q.items := by
  cases trim with
  | false =>
    have hfollows := h.at_of_false.step
    rw [hstep] at hfollows
    generalize q.step g = result at hfollows
    cases hfollows with
    | @accept r hr hitems _ => exact ⟨r, rfl, of_at hr, hitems⟩
  | true =>
    obtain ⟨r, hresult, hr, hitems⟩ := h.trimsAt_of_true.accept hstep
    exact ⟨r, hresult, of_trimsAt hr, hitems⟩

theorem fail (hg : g.Loaded) (h : Mirrors g l trim c q) {fault : ParseFault}
    (hstep : c.step g l = .error (.fail fault)) : (q.step g).1 = .error := by
  cases trim with
  | false =>
    have hfollows := h.at_of_false.step
    rw [hstep] at hfollows
    generalize q.step g = result at hfollows
    cases hfollows
    rfl
  | true => exact h.trimsAt_of_true.fail hg hstep

end Mirrors

end Parser

/-! ### Handlers -/

/-- A handler can watch any parser, whether it trims or not.  It keeps up the relation `R` until the
input is accepted, and `S` from then on. -/
structure Watches {σ τ : Type} (g : Grammar) (handler : Handler σ τ)
    (R S : σ → List (Item τ) → List Tree → Prop) : Prop where
  /-- It follows a parser that does not trim. -/
  tracks : Tracks g handler R
  /-- States of items do not matter to it. -/
  ignoresStates : IgnoresStates R
  /-- It does nothing when a reduction is eliminated. -/
  eliminated : ∀ s p, handler .reduceEliminated s p = (s, p)
  /-- It does nothing to the parser when the input is accepted. -/
  accept : ∀ s p, (handler .accept s p).2 = p
  /-- What holds from then on holds before. -/
  weaken : ∀ {s items trees}, R s items trees → S s items trees
  /-- It goes on to hold. -/
  accepted : ∀ {s p items trees}, S s items trees → S (handler .accept s p).1 items trees

namespace Watches

variable {σ τ : Type} {g : Grammar} {l : Lexer} {handler : Handler σ τ} {trim : Bool}
  {R S : σ → List (Item τ) → List Tree → Prop} {s : σ} {q : Parser τ} {c d : Config}

theorem stepWith (h : Watches g handler R S) (hg : g.Loaded) (hq : q.Mirrors g l trim c)
    (hR : R s q.items ((c.shown g trim).frames.map Frame.tree)) (hmove : Move g l c d) :
    ∃ e s' q', q.stepWith g handler s = (e, s', q') ∧ e ≠ .error ∧ q'.Mirrors g l trim d ∧
      R s' q'.items ((d.shown g trim).frames.map Frame.tree) := by
  have hne {e : Event} (hfinal : e.isFinal = false) : e ≠ .error := by
    rintro rfl
    cases hfinal
  cases trim with
  | false =>
    have hfollows := hq.at_of_false.step
    rw [Config.step_of_move hmove] at hfollows
    obtain ⟨hfinal, hat, s', payload, hhandler, hR'⟩ := h.tracks.follows (r := (q.step g).2)
      hfollows hR rfl rfl rfl
    exact ⟨(q.step g).1, s', _, congrArg (Prod.mk _) hhandler, hne hfinal,
      .of_at (hat.setPayload payload), hR'⟩
  | true =>
    obtain ⟨e, s', q', hresult, hfinal, hq', hR'⟩ := h.tracks.stepWith_trimming hg h.ignoresStates
      h.eliminated hq.trimsAt_of_true hR hmove
    exact ⟨e, s', q', hresult, hne hfinal, .of_trimsAt hq', hR'⟩

/-- Where the automaton accepts, the parser goes on accepting. -/
theorem after_accept (h : Watches g handler R S) (hstep : c.step g l = .error .accept) (n : Nat)
    (hq : q.Mirrors g l trim c) (hS : S s q.items ((c.shown g trim).frames.map Frame.tree)) :
    ∃ s' q', q.afterSteps? g handler n s = some (s', q') ∧ q'.Mirrors g l trim c ∧
      S s' q'.items ((c.shown g trim).frames.map Frame.tree) := by
  induction n generalizing s q with
  | zero => exact ⟨s, q, rfl, hq, hS⟩
  | succ n ih =>
    obtain ⟨r, hresult, hr, hitems⟩ := hq.accept hstep
    simp only [Parser.afterSteps?, Parser.stepWith, hresult, h.accept, reduceCtorEq, ↓reduceIte]
    exact ih hr (hitems ▸ h.accepted hS)

/-- **A handler keeps its relation up at every point of a run.**  After as many steps, parser and
automaton are at the same point, or both have failed. -/
theorem after (h : Watches g handler R S) (hg : g.Loaded) (n : Nat) (hq : q.Mirrors g l trim c)
    (hR : R s q.items ((c.shown g trim).frames.map Frame.tree)) :
    match c.afterSteps? g l n with
    | some d => ∃ s' q', q.afterSteps? g handler n s = some (s', q') ∧ q'.Mirrors g l trim d ∧
        S s' q'.items ((d.shown g trim).frames.map Frame.tree)
    | none => q.afterSteps? g handler n s = none := by
  induction n generalizing s q c with
  | zero => exact ⟨s, q, rfl, hq, h.weaken hR⟩
  | succ n ih =>
    rw [Config.afterSteps?]
    cases hstep : c.step g l with
    | ok next =>
      obtain ⟨e, s', q', hresult, herror, hq', hR'⟩ :=
        h.stepWith hg hq hR (Config.step_eq_ok.1 hstep)
      simp only [Parser.afterSteps?, hresult, if_neg herror]
      exact ih hq' hR'
    | error verdict =>
      cases verdict with
      | accept => exact h.after_accept hstep (n + 1) hq (h.weaken hR)
      | fail fault => simp only [Parser.afterSteps?, Parser.stepWith, hq.fail hg hstep, ↓reduceIte]

end Watches

end CompiledGrammar
