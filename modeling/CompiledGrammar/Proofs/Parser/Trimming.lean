import CompiledGrammar.Proofs.Grammar.Loaded
import CompiledGrammar.Proofs.Parser.Step
import CompiledGrammar.Table.Sample
import Mathlib.Data.List.Forall2

/-!
# Trimming does not change parsing

A parser that trims reductions moves the topmost item on where one that does not pops it and pushes
the head.  Either way the same states are on the stack, so both parsers take the same way through
the input:

* `Parser.SameWay` relates a parser that does not trim to one that does, and every step that goes
  on keeps them related (`Parser.SameWay.step`);
* `Parser.trimmed_steps` compares their steps up to the first final one: they differ only in
  how a reduction of a production that renames a non-terminal is told.
-/

namespace CompiledGrammar

namespace Parser

variable {τ : Type} {g : Grammar}

/-- The steps of a parser up to and including the first final one, at most `n` of them: each with
its event and the parser after it. -/
def steps (g : Grammar) : Nat → Parser τ → List (Event × Parser τ)
  | 0, _ => []
  | n + 1, p => p.step g :: if (p.step g).1.isFinal then [] else steps g n (p.step g).2

/-- The step reduced a production that only renames a non-terminal. -/
def ReducedUnit (g : Grammar) (s : Event × Parser τ) : Prop :=
  s.1 = .reduce ∧ ∃ r production, s.2.reduction = some r ∧
    g.productions[r.production]? = some production ∧ g.isUnit production = true

/-- What a step without trimming and the corresponding one with it have in common. -/
structure StepAgrees (g : Grammar) (plain trimmed : Event × Parser τ) : Prop where
  /-- The state is the same. -/
  state : plain.2.state = trimmed.2.state
  /-- So is the token that decides the next step, and whether it has been shifted. -/
  lookahead : plain.2.lookahead = trimmed.2.lookahead
  /-- So is the place in the input. -/
  lexer : plain.2.lexer = trimmed.2.lexer
  /-- So are the states on the stack, unless the step failed. -/
  stack : plain.1 ≠ .error →
    (plain.2.stack g).map Item.state = (trimmed.2.stack g).map Item.state
  /-- Reductions that only rename a non-terminal are told as eliminated. -/
  unit : ReducedUnit g plain → trimmed.1 = .reduceEliminated
  /-- All other events are the same. -/
  other : ¬ ReducedUnit g plain → trimmed.1 = plain.1
  /-- Without trimming no reduction is eliminated. -/
  kept : plain.1 ≠ .reduceEliminated
  /-- Both fail for the same reason. -/
  error : plain.1 = .error → ∃ e, plain.2.error = some e ∧ trimmed.2.error = some e

namespace StepAgrees

variable {s s' : Event × Parser τ}

/-- The two events may differ, but either both are final or none is. -/
theorem isFinal_eq (h : StepAgrees g s s') : s'.1.isFinal = s.1.isFinal := by
  by_cases hu : ReducedUnit g s
  · rw [h.unit hu, hu.1]
    rfl
  · rw [h.other hu]

theorem accept (h : StepAgrees g s s') (haccept : s'.1 = .accept) : s.1 = .accept := by
  by_cases hu : ReducedUnit g s
  · cases haccept.symm.trans (h.unit hu)
  · exact (h.other hu).symm.trans haccept

end StepAgrees

/-- A parser that does not trim and one that does, after the same way through the input. -/
structure SameWay (p q : Parser τ) : Prop where
  /-- The first does not trim. -/
  plain : p.trim = false
  /-- The second does. -/
  trimming : q.trim = true
  /-- They are at the same place of the same input. -/
  lexer : p.lexer = q.lexer
  /-- They are in the same state. -/
  state : p.state = q.state
  /-- They have read the same token. -/
  lookahead : p.lookahead = q.lookahead
  /-- The same states are on their stacks. -/
  items : p.items.map Item.state = q.items.map Item.state

/-- The two steps agree, and if they go on, the parsers stay on the same way. -/
def GoesAlong (g : Grammar) (s s' : Event × Parser τ) : Prop :=
  StepAgrees g s s' ∧ (s.1.isFinal = false → SameWay s.2 s'.2)

theorem topState_congr {items items' : List (Item τ)}
    (h : items.map Item.state = items'.map Item.state) : g.topState items = g.topState items' := by
  cases items <;> cases items' <;> simp_all [Grammar.topState]

namespace SameWay

variable {p q : Parser τ} {token : Token} {production : Production}

theorem map_state_stack (h : SameWay p q) :
    (p.stack g).map Item.state = (q.stack g).map Item.state := by
  simp only [stack, List.map_cons, List.map_reverse, h.items]

theorem look (h : SameWay p q) :
    (p.look g).1 = (q.look g).1 ∧ SameWay (p.look g).2 (q.look g).2 := by
  obtain ⟨hplain, htrimming, hlexer, hstate, hlookahead, hitems⟩ := h
  unfold Parser.look
  rw [← hlookahead, ← hlexer]
  cases hl : p.lookahead with
  | pending token => exact ⟨rfl, hplain, htrimming, rfl, hstate, rfl, hitems⟩
  | unread => exact ⟨rfl, hplain, htrimming, rfl, hstate, rfl, hitems⟩
  | consumed token => exact ⟨rfl, hplain, htrimming, rfl, hstate, rfl, hitems⟩

/-- Two parsers that fail agree, whatever they have popped before. -/
theorem goesAlong_fail (h : SameWay p q) (fault : ParseFault) (items items' : List (Item τ)) :
    GoesAlong g ({ p with items }.fail fault token)
      ({ q with items := items' }.fail fault token) := by
  refine ⟨⟨h.state, h.lookahead, h.lexer, fun he => absurd rfl he, ?_, fun _ => rfl, ?_, ?_⟩, ?_⟩
  · rintro ⟨he, -⟩; cases he
  · intro he; cases he
  · intro _
    exact ⟨⟨fault, p.state, token⟩, rfl, by simp only [fail, h.state]⟩
  · intro hf; cases hf

/-- Two parsers that do the same, which is not to reduce a unit, agree. -/
theorem goesAlong_same {e : Event} (h : SameWay p q) (hunit : ¬ ReducedUnit g (e, p))
    (hkept : e ≠ .reduceEliminated) (herror : e ≠ .error) : GoesAlong g (e, p) (e, q) :=
  ⟨⟨h.state, h.lookahead, h.lexer, fun _ => h.map_state_stack, fun hu => absurd hu hunit,
    fun _ => rfl, hkept, fun he => absurd he herror⟩, fun _ => h⟩

/-- A reduction that is not of a unit is done in the same way by both. -/
theorem goesAlong_replace (hg : g.Loaded) {i : ProductionIdx}
    (hi : g.productions[i]? = some production) (hunit : g.isUnit production = false)
    (h : SameWay p q) :
    GoesAlong g (p.replace g production token) (q.replace g production token) := by
  have hlen : p.items.length = q.items.length := by
    simpa using congrArg List.length h.items
  -- both have too few items, or both have the handles on top of the same states
  rcases lt_or_exists_append p.items production.handles.length with
    hlt | ⟨handles, below, hitems, hn⟩
  · rw [replace_of_lt hlt, replace_of_lt (hlen ▸ hlt)]
    exact h.goesAlong_fail .internal p.items q.items
  · have hstates := h.items
    rw [hitems, List.map_append] at hstates
    obtain ⟨handles', below', hitems', hhandles, hbelow⟩ := List.append_eq_map_iff.1 hstates
    have hn' : handles'.length = production.handles.length := by
      rw [← hn, ← List.length_map Item.state, hhandles, List.length_map]
    rw [replace_append hitems hn, replace_append hitems' hn', topState_congr hbelow]
    cases g.goto? (g.topState below) production.head with
    | none => exact h.goesAlong_fail .internal below below'
    | some state =>
      have hnext : SameWay
          { p with
            state, items := ⟨state, .reduced production.index, none⟩ :: below
            reduction := some ⟨production.index, handles.reverse⟩ }
          { q with
            state, items := ⟨state, .reduced production.index, none⟩ :: below'
            reduction := some ⟨production.index, handles'.reverse⟩ } :=
        ⟨h.plain, h.trimming, h.lexer, rfl, h.lookahead, by simp only [List.map_cons, hbelow]⟩
      refine ⟨⟨rfl, h.lookahead, h.lexer, fun _ => hnext.map_state_stack, ?_, fun _ => rfl, ?_, ?_⟩,
        fun _ => hnext⟩
      · rintro ⟨-, r, found, hr, hfound, hu⟩
        cases hr
        rw [hg.getElem?_index hi] at hfound
        cases hfound
        rw [hunit] at hu
        cases hu
      · intro he; cases he
      · intro he; cases he

/-- A reduction of a unit pops and pushes one item in one parser, and moves it in the other. -/
theorem goesAlong_rename (hg : g.Loaded) {i : ProductionIdx}
    (hi : g.productions[i]? = some production) (hunit : g.isUnit production = true)
    (h : SameWay p q) :
    GoesAlong g (p.replace g production token) (q.rename g production token) := by
  have hn : production.handles.length = 1 := by
    unfold Grammar.isUnit at hunit
    split at hunit
    · rename_i hhandles; rw [hhandles]; rfl
    · cases hunit
  have hstates := h.items
  cases hp : p.items with
  | nil =>
    have hq : q.items = [] := by simpa [hp] using hstates.symm
    rw [replace_of_lt (by rw [hp, hn]; exact Nat.one_pos)]
    unfold rename
    rw [hq]
    exact h.goesAlong_fail .internal p.items q.items
  | cons item below =>
    cases hq : q.items with
    | nil => simp [hp, hq] at hstates
    | cons item' below' =>
      have hbelow : below.map Item.state = below'.map Item.state := by
        rw [hp, hq] at hstates
        exact (List.cons.inj hstates).2
      -- one pops the item and pushes the head, the other moves the item on
      have hsplit : p.items = [item] ++ below := hp
      rw [replace_append hsplit hn.symm, topState_congr hbelow]
      unfold rename
      simp only [hq]
      cases g.goto? (g.topState below') production.head with
      | none => exact h.goesAlong_fail .internal below q.items
      | some state =>
        have hnext : SameWay
            { p with
              state, items := ⟨state, .reduced production.index, none⟩ :: below
              reduction := some ⟨production.index, [item]⟩ }
            { q with state, items := { item' with state } :: below' } :=
          ⟨h.plain, h.trimming, h.lexer, rfl, h.lookahead, by simp only [List.map_cons, hbelow]⟩
        refine ⟨⟨rfl, h.lookahead, h.lexer, fun _ => hnext.map_state_stack, fun _ => rfl, ?_, ?_,
          ?_⟩, fun _ => hnext⟩
        · intro hnot
          exact absurd ⟨rfl, _, production, rfl, hg.getElem?_index hi, hunit⟩ hnot
        · intro he; cases he
        · intro he; cases he

theorem goesAlong_reduce (hg : g.Loaded) (h : SameWay p q) (i : ProductionIdx) :
    GoesAlong g (p.reduce g i token) (q.reduce g i token) := by
  unfold Parser.reduce
  cases hi : g.productions[i]? with
  | none => exact h.goesAlong_fail .internal p.items q.items
  | some production =>
    simp only [h.plain, h.trimming, Bool.false_and, Bool.true_and, Bool.false_eq_true, ↓reduceIte]
    cases hunit : g.isUnit production with
    | false => exact h.goesAlong_replace hg hi hunit
    | true => exact h.goesAlong_rename hg hi hunit

theorem goesAlong_act (hg : g.Loaded) (h : SameWay p q) (token : Token) :
    GoesAlong g (p.act g token) (q.act g token) := by
  unfold act
  split
  · exact h.goesAlong_fail .lexical p.items q.items
  rw [← h.state]
  cases g.action? p.state token.symbol with
  | none => exact h.goesAlong_fail _ p.items q.items
  | some action =>
    cases action with
    | shift state =>
      have hnext : SameWay (p.shift state token).2 (q.shift state token).2 :=
        ⟨h.plain, h.trimming, h.lexer, rfl, rfl, by simp only [shift, List.map_cons, h.items]⟩
      exact hnext.goesAlong_same (by rintro ⟨he, -⟩; cases he) (by simp) (by simp)
    | reduce i => exact h.goesAlong_reduce hg i
    | accept => exact h.goesAlong_same (by rintro ⟨he, -⟩; cases he) (by simp) (by simp)
    | goto state => exact h.goesAlong_fail .internal p.items q.items

/-- A step keeps both parsers on the same way, unless it is the last. -/
theorem step (hg : g.Loaded) (h : SameWay p q) : GoesAlong g (p.step g) (q.step g) := by
  obtain ⟨htoken, hlooked⟩ := h.look (g := g)
  rw [step_eq, step_eq, ← htoken]
  exact hlooked.goesAlong_act hg _

/-- All steps agree, up to and including the first final one. -/
theorem steps (hg : g.Loaded) (n : Nat) :
    ∀ {p q : Parser τ}, SameWay p q → List.Forall₂ (StepAgrees g) (p.steps g n) (q.steps g n) := by
  induction n with
  | zero => intro p q _; exact .nil
  | succ n ih =>
    intro p q h
    obtain ⟨hagree, hnext⟩ := h.step hg
    simp only [Parser.steps, hagree.isFinal_eq]
    refine .cons hagree ?_
    split
    · exact .nil
    · rename_i hgo
      exact ih (hnext (by simpa using hgo))

/-- What is accepted with trimming is accepted without. -/
theorem run_of_accept (hg : g.Loaded) {n : Nat} {r : Parser τ} (h : SameWay p q)
    (hrun : q.run g n = some (.accept, r)) : ∃ r', p.run g n = some (.accept, r') := by
  unfold Parser.run at hrun ⊢
  induction n generalizing p q with
  | zero => cases hrun
  | succ n ih =>
    obtain ⟨hagree, hnext⟩ := h.step hg
    rw [runUntil] at hrun ⊢
    dsimp only at hrun ⊢
    rw [hagree.isFinal_eq] at hrun
    by_cases hfinal : (p.step g).1.isFinal = true
    · rw [if_pos hfinal] at hrun ⊢
      have haccept : (q.step g).1 = .accept := congrArg Prod.fst (Option.some.inj hrun)
      exact ⟨_, congrArg some (Prod.ext (hagree.accept haccept) rfl)⟩
    · rw [if_neg hfinal] at hrun ⊢
      exact ih (hnext (by simpa using hfinal)) hrun

end SameWay

/-- **Trimming does not change parsing.**  Step by step and up to the first final event, a parser
that trims reductions is in the same state as one that does not, with the same states on its stack,
at the same place of the input; it tells the same events, except that it tells exactly the
reductions that only rename a non-terminal as eliminated, and it fails with the same error. -/
theorem trimmed_steps (hg : g.Loaded) (lineTerminator : UInt8) (input : Buffer) (n : Nat) :
    List.Forall₂ (StepAgrees g)
      (((Parser.new g false lineTerminator : Parser τ).load g input).steps g n)
      (((Parser.new g true lineTerminator : Parser τ).load g input).steps g n) := by
  refine SameWay.steps hg n ?_
  exact ⟨rfl, rfl, rfl, rfl, rfl, rfl⟩

set_option maxRecDepth 10000 in
/-- The parsers of the sample grammar of arithmetic agree on `(1)+2`, where units are reduced. -/
theorem trimmed_steps_sum :
    ∃ g, Grammar.ofBytes Sample.operators.toBytes = .ok g ∧
      List.Forall₂ (StepAgrees g)
        (((Parser.new g false 10 : Parser Unit).load g (.owned "(1)+2")).steps g 30)
        (((Parser.new g true 10 : Parser Unit).load g (.owned "(1)+2")).steps g 30) := by
  have hcheck : Grammar.loadsWith Sample.operators.toBytes (fun _ => true) = true := by
    decide +kernel
  obtain ⟨g, hload, -⟩ := Grammar.exists_of_loadsWith hcheck
  exact ⟨g, hload, trimmed_steps (.ofBytes hload) 10 (.owned "(1)+2") 30⟩

end Parser

end CompiledGrammar
