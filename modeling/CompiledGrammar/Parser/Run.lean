import CompiledGrammar.Parser.Basic

/-!
# Runs of the parser

A run repeats steps up to an event that ends it.  A table that is not consistent can reduce forever
without consuming input, so a run takes the number of steps it may take at most, and has no result
if they do not suffice.

A `Handler` watches a run: after each step it is told the event, and may change its own state and
the payloads of the parser.
-/

namespace CompiledGrammar

/-- What to do after each step of a parser. -/
abbrev Handler (σ τ : Type) := Event → σ → Parser τ → σ × Parser τ

namespace Parser

variable {σ τ : Type} (g : Grammar)

/-- Step until an event satisfies `stop`, in at most `n` steps. -/
def runUntil (stop : Event → Bool) : Nat → Parser τ → Option (Event × Parser τ)
  | 0, _ => none
  | n + 1, p =>
    let (event, next) := p.step g
    if stop event then some (event, next) else runUntil stop n next

/-- Step until something is reduced, or no step gets any further. -/
def runToReduction (n : Nat) (p : Parser τ) : Option (Event × Parser τ) :=
  runUntil g (fun event => event == .reduce || event.isFinal) n p

/-- Step until no step gets any further. -/
def run (n : Nat) (p : Parser τ) : Option (Event × Parser τ) :=
  runUntil g Event.isFinal n p

/-- Step once, and tell a handler. -/
def stepWith (handler : Handler σ τ) (s : σ) (p : Parser τ) : Event × σ × Parser τ :=
  let (event, next) := p.step g
  (event, handler event s next)

/-- Step until no step gets any further, telling a handler of each step. -/
def runWith (handler : Handler σ τ) : Nat → σ → Parser τ → Option (Event × σ × Parser τ)
  | 0, _, _ => none
  | n + 1, s, p =>
    let (event, s, next) := p.stepWith g handler s
    if event.isFinal then some (event, s, next) else runWith handler n s next

end Parser

end CompiledGrammar
