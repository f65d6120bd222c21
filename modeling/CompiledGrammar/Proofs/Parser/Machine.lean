import CompiledGrammar.Parser.Basic
import CompiledGrammar.Proofs.Lexer.Stream
import CompiledGrammar.Proofs.Parser.Step
import CompiledGrammar.Proofs.Tree.Derivation
import Mathlib.Logic.Relation

/-!
# The parsing automaton

What a parser does, without buffers, payloads and builders: an LALR automaton that pushes trees.  A
`Config` is a stack of states with the trees that led to them, and the number of tokens shifted so
far.  It either moves on to another one (`Config.step`, and `Move` as a relation) or comes to a
verdict: it accepts, or fails.

A configuration has at most one way to go on, so at most one in which nothing moves any more can be
reached (`Config.run_eq_of_reaches`).
-/

namespace CompiledGrammar

/-- What a symbol leaves on the stack of the automaton. -/
structure Frame where
  /-- The state on top of it. -/
  state : LalrStateIdx
  /-- The tree of the symbol. -/
  tree : Tree
deriving Repr

/-- The automaton between two steps. -/
structure Config where
  /-- The stack above its bottom, topmost first. -/
  frames : List Frame := []
  /-- How many tokens have been shifted. -/
  shifted : Nat := 0
deriving Repr

/-- How a run ends. -/
inductive Verdict where
  /-- The input is accepted. -/
  | accept
  /-- The parse fails. -/
  | fail (fault : ParseFault)
deriving DecidableEq, Repr

/-- The state on top of a stack of frames. -/
def Grammar.topOf (g : Grammar) : List Frame → LalrStateIdx
  | [] => g.lalrInitial
  | f :: _ => f.state

namespace Config

variable (g : Grammar) (l : Lexer) (c : Config)

/-- The state on top of the stack. -/
def state : LalrStateIdx := g.topOf c.frames

/-- The token that decides the next step. -/
def lookahead : Token := l.tokenAt g c.shifted

/-- Replace the trees of a production's handles by a node. -/
def reduce (i : ProductionIdx) : Except Verdict Config :=
  match g.productions[i]? with
  | none => .error (.fail .internal)
  | some p =>
    let n := p.handles.length
    if c.frames.length < n then .error (.fail .internal)
    else
      match g.goto? (g.topOf (c.frames.drop n)) p.head with
      | some state =>
        let tree := .node p.index ((c.frames.take n).reverse.map Frame.tree)
        .ok { c with frames := ⟨state, tree⟩ :: c.frames.drop n }
      | none => .error (.fail .internal)

/-- Move on, or come to a verdict. -/
def step : Except Verdict Config :=
  if g.hasKind (c.lookahead g l).symbol .error then .error (.fail .lexical)
  else
    match g.action? (c.state g) (c.lookahead g l).symbol with
    | none => .error (.fail (.syntactic (g.expectedIn (c.state g))))
    | some (.shift state) => .ok ⟨⟨state, .leaf (c.lookahead g l)⟩ :: c.frames, c.shifted + 1⟩
    | some (.reduce i) => c.reduce g i
    | some .accept => .error .accept
    | some (.goto _) => .error (.fail .internal)

/-- Move on until there is a verdict, in at most `n` steps.  The last configuration comes with
it. -/
def run : Nat → Config → Option (Config × Verdict)
  | 0, _ => none
  | n + 1, c =>
    match c.step g l with
    | .ok next => run n next
    | .error verdict => some (c, verdict)

end Config

/-- A step from one configuration to another. -/
inductive Move (g : Grammar) (l : Lexer) : Config → Config → Prop where
  /-- The next token is shifted. -/
  | shift {frames : List Frame} {m : Nat} {state : LalrStateIdx} :
      g.hasKind (l.tokenAt g m).symbol .error = false →
      g.action? (g.topOf frames) (l.tokenAt g m).symbol = some (.shift state) →
      Move g l ⟨frames, m⟩ ⟨⟨state, .leaf (l.tokenAt g m)⟩ :: frames, m + 1⟩
  /-- A production is reduced. -/
  | reduce {handles below : List Frame} {m : Nat} {i : ProductionIdx} {p : Production}
      {state : LalrStateIdx} :
      g.hasKind (l.tokenAt g m).symbol .error = false →
      g.action? (g.topOf (handles ++ below)) (l.tokenAt g m).symbol = some (.reduce i) →
      g.productions[i]? = some p →
      handles.length = p.handles.length →
      g.goto? (g.topOf below) p.head = some state →
      Move g l ⟨handles ++ below, m⟩
        ⟨⟨state, .node p.index (handles.reverse.map Frame.tree)⟩ :: below, m⟩

/-- A configuration comes from another by any number of steps. -/
abbrev Reaches (g : Grammar) (l : Lexer) : Config → Config → Prop :=
  Relation.ReflTransGen (Move g l)

namespace Config

variable {g : Grammar} {l : Lexer} {c d : Config}

/-- The handles are the topmost frames, and the head goes on top of what lies below them. -/
theorem reduce_append {handles below : List Frame} {m : Nat} {i : ProductionIdx} {p : Production}
    (hp : g.productions[i]? = some p) (hlen : handles.length = p.handles.length) :
    (⟨handles ++ below, m⟩ : Config).reduce g i =
      match g.goto? (g.topOf below) p.head with
      | some state => .ok ⟨⟨state, .node p.index (handles.reverse.map Frame.tree)⟩ :: below, m⟩
      | none => .error (.fail .internal) := by
  have hge : ¬ (handles ++ below).length < p.handles.length := by
    rw [List.length_append, hlen]
    omega
  simp only [reduce, hp, if_neg hge, List.take_left' hlen, List.drop_left' hlen]

theorem reduce_of_lt {i : ProductionIdx} {p : Production} (hp : g.productions[i]? = some p)
    (hlt : c.frames.length < p.handles.length) : c.reduce g i = .error (.fail .internal) := by
  simp only [reduce, hp, if_pos hlt]

theorem move_of_reduce {i : ProductionIdx}
    (herror : g.hasKind (c.lookahead g l).symbol .error = false)
    (haction : g.action? (c.state g) (c.lookahead g l).symbol = some (.reduce i))
    (h : c.reduce g i = .ok d) : Move g l c d := by
  obtain ⟨frames, m⟩ := c
  cases hp : g.productions[i]? with
  | none => simp only [reduce, hp] at h; cases h
  | some p =>
    rcases lt_or_exists_append frames p.handles.length with hlt | ⟨handles, below, rfl, hlen⟩
    · rw [reduce_of_lt hp hlt] at h; cases h
    · rw [reduce_append hp hlen] at h
      cases hgoto : g.goto? (g.topOf below) p.head with
      | none => rw [hgoto] at h; cases h
      | some state =>
        rw [hgoto] at h
        cases h
        exact .reduce herror haction hp hlen hgoto

theorem step_of_move (h : Move g l c d) : c.step g l = .ok d := by
  cases h with
  | shift herror haction =>
    simp only [step, lookahead, state, herror, haction, Bool.false_eq_true, ↓reduceIte]
  | reduce herror haction hp hlen hgoto =>
    simp only [step, lookahead, state, herror, haction, Bool.false_eq_true, ↓reduceIte,
      reduce_append hp hlen, hgoto]

/-- The steps that move on are the moves. -/
theorem step_eq_ok : c.step g l = .ok d ↔ Move g l c d := by
  refine ⟨?_, step_of_move⟩
  intro h
  unfold step at h
  split at h
  · cases h
  · rename_i herror
    replace herror := Bool.eq_false_iff.2 herror
    cases haction : g.action? (c.state g) (c.lookahead g l).symbol with
    | none => rw [haction] at h; cases h
    | some action =>
      rw [haction] at h
      cases action with
      | shift state => cases h; exact .shift herror haction
      | reduce i => exact move_of_reduce herror haction h
      | accept => cases h
      | goto state => cases h

/-- A configuration accepts exactly on the accepting action. -/
theorem step_eq_accept : c.step g l = .error .accept ↔
    g.hasKind (c.lookahead g l).symbol .error = false ∧
      g.action? (c.state g) (c.lookahead g l).symbol = some .accept := by
  constructor
  · intro h
    unfold step at h
    split at h
    · cases h
    · rename_i herror
      refine ⟨Bool.eq_false_iff.2 herror, ?_⟩
      -- all other actions move on or fail
      cases haction : g.action? (c.state g) (c.lookahead g l).symbol with
      | none => rw [haction] at h; cases h
      | some action =>
        rw [haction] at h
        cases action with
        | shift state => cases h
        | reduce i =>
          simp only [reduce] at h
          split at h
          · cases h
          · split at h
            · cases h
            · split at h <;> cases h
        | accept => rfl
        | goto state => cases h
  · rintro ⟨herror, haction⟩
    simp only [step, herror, haction, Bool.false_eq_true, ↓reduceIte]

/-- The leaves of the trees on the stack stay the tokens that have been shifted. -/
theorem leaves_of_move (hmove : Move g l c d)
    (h : c.frames.reverse.flatMap (fun f => f.tree.leaves) = l.tokens g c.shifted) :
    d.frames.reverse.flatMap (fun f => f.tree.leaves) = l.tokens g d.shifted := by
  cases hmove with
  | shift herror haction =>
    rw [List.reverse_cons, List.flatMap_append, List.flatMap_singleton, Tree.leaves_leaf,
      Lexer.tokens_succ]
    exact congrArg (· ++ _) h
  | reduce herror haction hp hlen hgoto =>
    rw [← h, List.reverse_cons, List.flatMap_append, List.flatMap_singleton, Tree.leaves_node,
      List.flatMap_map, List.reverse_append, List.flatMap_append]

/-! ### Runs -/

theorem run_succ_of_move (h : Move g l c d) (n : Nat) : c.run g l (n + 1) = d.run g l n := by
  simp only [run, step_of_move h]

theorem run_succ_of_verdict {v : Verdict} (h : c.step g l = .error v) (n : Nat) :
    c.run g l (n + 1) = some (c, v) := by
  simp only [run, h]

/-- A run ends in a configuration that it reaches, and that comes to the verdict. -/
theorem reaches_of_run {n : Nat} {v : Verdict} (h : c.run g l n = some (d, v)) :
    Reaches g l c d ∧ d.step g l = .error v := by
  induction n generalizing c with
  | zero => cases h
  | succ n ih =>
    cases hstep : c.step g l with
    | ok next =>
      have hmove := step_eq_ok.1 hstep
      rw [run_succ_of_move hmove] at h
      exact ⟨.head hmove (ih h).1, (ih h).2⟩
    | error w =>
      rw [run_succ_of_verdict hstep] at h
      cases h
      exact ⟨.refl, hstep⟩

/-- There is one way to go on: all that a configuration reaches and that comes to a verdict is where
every run of it ends. -/
theorem run_eq_of_reaches {n : Nat} {e : Config} {v w : Verdict}
    (h : c.run g l n = some (d, v)) (he : Reaches g l c e) (hw : e.step g l = .error w) :
    d = e ∧ v = w := by
  -- by induction on the way to the verdict, each move of which is also the next one of the run
  induction he using Relation.ReflTransGen.head_induction_on generalizing n with
  | refl =>
    cases n with
    | zero => cases h
    | succ n =>
      rw [run_succ_of_verdict hw] at h
      cases h
      exact ⟨rfl, rfl⟩
  | head hmove _ ih =>
    cases n with
    | zero => cases h
    | succ n =>
      rw [run_succ_of_move hmove] at h
      exact ih h

end Config

end CompiledGrammar
