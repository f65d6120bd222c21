import CompiledGrammar.Proofs.Lexer.Checked

/-!
# The lexers that come about

A lexer comes about by being given an input, by going back to its beginning, and by considering one
match after the other.  `Lexer.Reachable` takes in the lexers inside of an operation too: those that
scanning passes through from one match to the next.

* Operations lead from one reachable lexer to another (`Lexer.Reachable.after`).
* Every token comes from a single step of a reachable lexer (`Lexer.Reachable.exists_emit_of_run`).

So what is to hold of all lexers after all operations need only be shown of the four ways in which a
lexer comes about, and what is to hold of all tokens, of a single step.
-/

namespace CompiledGrammar

namespace Lexer

/-- The lexer comes about after some operations, or on the way of one. -/
inductive Reachable (g : Grammar) (lineTerminator : UInt8) : Lexer → Prop where
  /-- It is new, and has no input. -/
  | new : Reachable g lineTerminator { lineTerminator }
  /-- It has been given an input. -/
  | load {l : Lexer} (input : Buffer) :
      Reachable g lineTerminator l → Reachable g lineTerminator (l.load input)
  /-- It has gone back to the beginning of its input. -/
  | reset {l : Lexer} : Reachable g lineTerminator l → Reachable g lineTerminator l.reset
  /-- It has considered a match. -/
  | scanStep {l : Lexer} :
      Reachable g lineTerminator l → Reachable g lineTerminator (l.scanStep g).next

theorem lineTerminator_reset (l : Lexer) : l.reset.lineTerminator = l.lineTerminator := rfl

theorem lineTerminator_scanStep {g : Grammar} {l : Lexer} :
    (l.scanStep g).next.lineTerminator = l.lineTerminator := by
  rw [← lineTerminator_reset (l.scanStep g).next, reset_scanStep, lineTerminator_reset]

theorem Step.Fits.next {g : Grammar} {input : Buffer} {step : Step} (h : step.Fits g input) :
    step.next.Fits g := by
  cases step with
  | emit => exact h.2
  | resume => exact h.2

namespace Reachable

variable {g : Grammar} {lineTerminator : UInt8} {l : Lexer}

theorem fits (hg : g.WellFormed) (h : l.Reachable g lineTerminator) : l.Fits g := by
  induction h with
  | new => exact .reset g { lineTerminator }
  | @load l input _ _ => exact .reset g { l with buffer := input }
  | @reset l _ _ => exact .reset g l
  | scanStep _ ih => exact (ih.scanStep hg).next

theorem lineTerminator_eq (h : l.Reachable g lineTerminator) :
    l.lineTerminator = lineTerminator := by
  induction h with
  | new => rfl
  | load _ _ ih => exact ih
  | reset _ ih => exact ih
  | scanStep _ ih =>
    exact lineTerminator_scanStep.trans ih

/-- The next token is what some lexer, on the way to it, comes to in a single step. -/
theorem exists_emit_of_scanToken (h : l.Reachable g lineTerminator) :
    ∃ m : Lexer, m.Reachable g lineTerminator ∧
      m.scanStep g = .emit (l.scanToken g).1 (l.scanToken g).2 := by
  fun_induction Lexer.scanToken g l with
  | case1 l token next hstep => exact ⟨l, h, hstep⟩
  | case2 l _ next hstep _ ih =>
    have hnext := h.scanStep
    rw [hstep] at hnext
    exact ih hnext

/-- So the lexer after it is reachable. -/
theorem scanToken (h : l.Reachable g lineTerminator) :
    (l.scanToken g).2.Reachable g lineTerminator := by
  obtain ⟨m, hm, hstep⟩ := h.exists_emit_of_scanToken
  have hnext := hm.scanStep
  rwa [hstep] at hnext

theorem exists_emit_of_readToken (h : l.Reachable g lineTerminator) :
    ∃ m : Lexer, m.Reachable g lineTerminator ∧
      m.scanStep g = .emit (l.readToken g).1 (l.readToken g).2 := by
  fun_induction Lexer.readToken g l with
  | case1 l token next hscan _ _ ih =>
    have hnext := h.scanToken
    rw [hscan] at hnext
    exact ih hnext
  | case2 l token next hscan _ =>
    have hemit := h.exists_emit_of_scanToken
    rwa [hscan] at hemit

theorem readToken (h : l.Reachable g lineTerminator) :
    (l.readToken g).2.Reachable g lineTerminator := by
  obtain ⟨m, hm, hstep⟩ := h.exists_emit_of_readToken
  have hnext := hm.scanStep
  rwa [hstep] at hnext

/-- A token that an operation gives is what some lexer comes to in a single step. -/
theorem exists_emit_of_run (h : l.Reachable g lineTerminator) {op : Op} {token : Token}
    {next : Lexer} (hrun : op.run g l = (some token, next)) :
    ∃ m : Lexer, m.Reachable g lineTerminator ∧ m.scanStep g = .emit token next := by
  cases op with
  | scan =>
    cases hrun
    exact h.exists_emit_of_scanToken
  | read =>
    cases hrun
    exact h.exists_emit_of_readToken
  | _ => cases hrun

theorem run (h : l.Reachable g lineTerminator) (op : Op) :
    (op.run g l).2.Reachable g lineTerminator := by
  cases op with
  | load input => exact h.load input
  | reset => exact h.reset
  | unload => exact h.load .empty
  | release => exact h.load .empty
  | scan => exact h.scanToken
  | read => exact h.readToken

/-- However many operations there are, they lead to a reachable lexer. -/
theorem after (h : l.Reachable g lineTerminator) (ops : List Op) :
    (l.after g ops).Reachable g lineTerminator := by
  induction ops generalizing l with
  | nil => exact h
  | cons op ops ih => exact ih (h.run op)

end Reachable

end Lexer

end CompiledGrammar
