import CompiledGrammar.Proofs.Lalr.Path
import CompiledGrammar.Proofs.Parser.Checked
import CompiledGrammar.Proofs.Parser.Failure

/-!
# The parse stack is a path

The states on the parse stack, from the bottom to the top, are those of a path through the LALR
automaton, whatever its tables are, as long as no step is an internal error.

Which transition leads to an item depends on its past.  The state of a token is the one that the
token was shifted to, and the state of a head is the one that the reduction went to, but a trimmed
reduction gives the topmost item another state.  What production did so last is nowhere in the
parser, so `Parser.trail?` keeps a record of it along with the parser, one entry for each item.

* `Parser.StepsTo` says once what a step does to the items (`Parser.stepsTo_step`);
* `Item.Entered` is the transition from a state to the item above it, and `Parser.Stacked` says that
  there is one to each item.  A step keeps that up (`Parser.OnPath.step`);
* `Parser.stack_onPath` concludes for any number of operations.
-/

namespace CompiledGrammar

namespace Parser

variable {τ : Type} (g : Grammar) (p : Parser τ)

/-! ### What a step does to the items -/

/-- The production that the action on the next token reduces. -/
def nextReduction? : Option ProductionIdx :=
  match g.action? p.state (p.look g).1.symbol with
  | some (.reduce i) => some i
  | _ => none

/-- The next step is an internal error. -/
def stepIsInternal : Bool :=
  (p.step g).1 == .error && (p.step g).2.error.any (·.fault == .internal)

/-- What a step can do to the items of a parser. -/
inductive StepsTo : Event × Parser τ → Prop where
  /-- A token is pushed. -/
  | shift {q : Parser τ} {token : Token} {state : LalrStateIdx} :
      g.action? p.state token.symbol = some (.shift state) → q.state = state →
      q.items = ⟨state, .shifted token, none⟩ :: p.items → q.reduction = none →
      StepsTo (.shift, q)
  /-- Handles are popped, and their head is pushed. -/
  | reduce {q : Parser τ} {i : ProductionIdx} {production : Production} {state : LalrStateIdx}
      {handles below : List (Item τ)} :
      g.productions[i]? = some production → p.items = handles ++ below →
      g.goto? (g.topState below) production.head = some state → q.state = state →
      q.items = ⟨state, .reduced production.index, none⟩ :: below →
      q.reduction = some ⟨production.index, handles.reverse⟩ → StepsTo (.reduce, q)
  /-- The topmost item is given another state. -/
  | rename {q : Parser τ} {i : ProductionIdx} {production : Production} {state : LalrStateIdx}
      {item : Item τ} {below : List (Item τ)} :
      p.nextReduction? g = some i → g.productions[i]? = some production →
      g.isUnit production = true → p.items = item :: below →
      g.goto? (g.topState below) production.head = some state → q.state = state →
      q.items = { item with state } :: below → q.reduction = none → StepsTo (.reduceEliminated, q)
  /-- All stays as it is at the end of a parse, or if it fails. -/
  | stay {e : Event} {q : Parser τ} :
      e.isFinal = true → q.state = p.state → q.items = p.items → q.reduction = none →
      StepsTo (e, q)
  /-- Handles are popped, but there is no state for their head. -/
  | lose {q : Parser τ} {handles : List (Item τ)} {e : ParseError} :
      p.items = handles ++ q.items → q.error = some e → e.fault = .internal → q.reduction = none →
      StepsTo (.error, q)

variable {g p}

namespace StepsTo

theorem fail {q : Parser τ} (hstate : q.state = p.state) (hitems : q.items = p.items)
    (hreduction : q.reduction = none) (fault : ParseFault) (token : Token) :
    StepsTo g p (q.fail fault token) :=
  .stay rfl hstate hitems hreduction

/-- A reduction fails, or pops and pushes, or renames. -/
theorem of_reduce {q : Parser τ} {i : ProductionIdx} (hnext : p.nextReduction? g = some i)
    (hstate : q.state = p.state) (hitems : q.items = p.items) (hreduction : q.reduction = none)
    (token : Token) : StepsTo g p (q.reduce g i token) := by
  have hfail := fail (g := g) hstate hitems hreduction .internal token
  unfold Parser.reduce
  cases hi : g.productions[i]? with
  | none => exact hfail
  | some production =>
    dsimp only
    split
    · rename_i htrim
      have hunit := (Bool.and_eq_true_iff.1 htrim).2
      unfold Parser.rename
      rw [hitems]
      cases hp : p.items with
      | nil => exact hfail
      | cons item below =>
        dsimp only
        cases hgoto : g.goto? (g.topState below) production.head with
        | none => exact hfail
        | some state => exact .rename hnext hi hunit hp hgoto rfl rfl hreduction
    · rcases lt_or_exists_append p.items production.handles.length with
        hlt | ⟨handles, below, hsplit, hlen⟩
      · rw [replace_of_lt (hitems ▸ hlt)]
        exact hfail
      · rw [replace_append (hitems.trans hsplit) hlen]
        cases hgoto : g.goto? (g.topState below) production.head with
        | none => exact .lose hsplit rfl rfl hreduction
        | some state => exact .reduce hi hsplit hgoto rfl rfl rfl

end StepsTo

/-- A step does nothing else. -/
theorem stepsTo_step : StepsTo g p (p.step g) := by
  have hlook := look_eq (g := g) p
  have hstate : (p.look g).2.state = p.state := by rw [hlook]
  have hitems : (p.look g).2.items = p.items := by rw [hlook]
  have hreduction : (p.look g).2.reduction = none := by rw [hlook]
  have hfail (fault : ParseFault) : StepsTo g p ((p.look g).2.fail fault (p.look g).1) :=
    .fail hstate hitems hreduction fault _
  rw [step_eq]
  unfold act
  split
  · exact hfail _
  rw [hstate]
  cases haction : g.action? p.state (p.look g).1.symbol with
  | none => exact hfail _
  | some action =>
    cases action with
    | shift state => exact .shift haction rfl (congrArg _ hitems) hreduction
    | accept => exact .stay rfl hstate hitems hreduction
    | goto state => exact hfail _
    | reduce i =>
      have hnext : p.nextReduction? g = some i := by simp only [nextReduction?, haction]
      exact .of_reduce hnext hstate hitems hreduction _

theorem items_of_accept (h : (p.step g).1 = .accept) : (p.step g).2.items = p.items := by
  have hsteps := stepsTo_step (g := g) (p := p)
  generalize p.step g = next at h hsteps
  cases hsteps with
  | stay _ _ hitems _ => exact hitems
  | _ => cases h

theorem stack_of_append {front below : List (Item τ)} (h : p.items = front ++ below) :
    p.stack g = (⟨g.lalrInitial, .bottom, none⟩ :: below.reverse) ++ front.reverse := by
  rw [stack, h, List.reverse_append, List.cons_append]

/-- What lies below what a step pops stays where it is, and that is at least the bottom of the
stack.  What is popped in a reduction is on record. -/
theorem StepsTo.exists_kept {e : Event} {q : Parser τ} (h : StepsTo g p (e, q)) :
    ∃ kept taken pushed, kept ≠ [] ∧ p.stack g = kept ++ taken ∧ q.stack g = kept ++ pushed ∧
      ∀ r ∈ q.reduction, r.handles = taken := by
  have hkept {taken pushed below : List (Item τ)} (hp : p.items = taken ++ below)
      (hq : q.items = pushed ++ below) (hrecord : ∀ r ∈ q.reduction, r.handles = taken.reverse) :
      ∃ kept taken pushed, kept ≠ [] ∧ p.stack g = kept ++ taken ∧ q.stack g = kept ++ pushed ∧
        ∀ r ∈ q.reduction, r.handles = taken :=
    ⟨_, _, _, List.cons_ne_nil _ _, stack_of_append hp, stack_of_append hq, hrecord⟩
  have hnone {taken : List (Item τ)} (hreduction : q.reduction = none) :
      ∀ r ∈ q.reduction, r.handles = taken := by
    intro r hr
    rw [hreduction] at hr
    cases hr
  cases h with
  | @shift _ token state _ _ hpush hreduction =>
    have hpushed : q.items = [⟨state, .shifted token, none⟩] ++ p.items := hpush
    exact hkept (List.nil_append p.items).symm hpushed (hnone hreduction)
  | @reduce _ i production state handles below _ hsplit _ _ hpush hreduction =>
    have hpushed : q.items = [⟨state, .reduced production.index, none⟩] ++ below := hpush
    refine hkept hsplit hpushed ?_
    intro r hr
    rw [hreduction] at hr
    cases hr
    rfl
  | @rename _ i production state item below _ _ _ hsplit _ _ hpush hreduction =>
    have htaken : p.items = [item] ++ below := hsplit
    have hpushed : q.items = [{ item with state }] ++ below := hpush
    exact hkept htaken hpushed (hnone hreduction)
  | stay _ _ hitems hreduction =>
    exact hkept (List.nil_append p.items).symm (hitems.trans (List.nil_append p.items).symm)
      (hnone hreduction)
  | lose hsplit _ _ hreduction =>
    exact hkept hsplit (List.nil_append q.items).symm (hnone hreduction)

/-! ### Records of renamings -/

/-- The record after an operation, given the one before it.  A production that is eliminated takes
the place of what was eliminated on the same item before. -/
def Op.record (g : Grammar) (p : Parser τ) (renamed : List (Option ProductionIdx)) :
    Op τ → List (Option ProductionIdx)
  | step =>
    match p.step g with
    | (.shift, _) => none :: renamed
    | (.reduce, next) => none :: renamed.drop (next.reduction.elim 0 (·.handles.length))
    | (.reduceEliminated, _) => p.nextReduction? g :: renamed.tail
    | (.accept, _) => renamed
    | (.error, _) => renamed
  | attach _ => renamed
  | load _ => []
  | reset => []
  | release => []

/-- The parser after some operations and, for each item above the bottom, topmost first, the
production that was eliminated on it last, if there was one.  There is no result if a step is an
internal error. -/
def trail? (g : Grammar) :
    List (Op τ) → Parser τ → List (Option ProductionIdx) →
      Option (Parser τ × List (Option ProductionIdx))
  | [], p, renamed => some (p, renamed)
  | .step :: ops, p, renamed =>
    if p.stepIsInternal g then none
    else trail? g ops (p.step g).2 (Op.step.record g p renamed)
  | op :: ops, p, renamed => trail? g ops (op.run g p).2 (op.record g p renamed)

/-! ### Transitions to items -/

end Parser

/-- The transition from a state to the item above it, given what was eliminated on the item last. -/
inductive Item.Entered {τ : Type} (g : Grammar) (below : LalrStateIdx) (item : Item τ) :
    Option ProductionIdx → Prop where
  /-- The item holds a token, which was shifted. -/
  | shifted {token : Token} :
      item.origin = .shifted token →
      g.action? below token.symbol = some (.shift item.state) → Entered g below item none
  /-- The item was made by a reduction, which went to its state. -/
  | reduced {i : ProductionIdx} {production : Production} :
      item.origin = .reduced i → g.productions[i]? = some production →
      g.action? below production.head = some (.goto item.state) → Entered g below item none
  /-- The item was renamed. -/
  | renamed {i : ProductionIdx} {production : Production} :
      item.origin ≠ .bottom → g.productions[i]? = some production →
      g.isUnit production = true →
      g.action? below production.head = some (.goto item.state) → Entered g below item (some i)

namespace Item.Entered

variable {τ : Type} {g : Grammar} {below : LalrStateIdx} {item : Item τ}
  {renamed : Option ProductionIdx}

theorem ne_bottom (h : item.Entered g below renamed) : item.origin ≠ .bottom := by
  cases h with
  | shifted horigin _ => rw [horigin]; exact nofun
  | reduced horigin _ _ => rw [horigin]; exact nofun
  | renamed hne _ _ _ => exact hne

theorem setPayload (h : item.Entered g below renamed) (payload : Option τ) :
    ({ item with payload } : Item τ).Entered g below renamed := by
  cases h with
  | shifted horigin haction => exact .shifted horigin haction
  | reduced horigin hi haction => exact .reduced horigin hi haction
  | renamed hne hi hunit haction => exact .renamed hne hi hunit haction

/-- Either way it is a transition of the automaton. -/
theorem exists_transition? (h : item.Entered g below renamed) :
    ∃ s, g.transition? below s = some item.state := by
  unfold Grammar.transition?
  cases h with
  | shifted _ haction => exact ⟨_, by rw [haction]; rfl⟩
  | reduced _ _ haction => exact ⟨_, by rw [haction]; rfl⟩
  | renamed _ _ _ haction => exact ⟨_, by rw [haction]; rfl⟩

end Item.Entered

namespace Parser

variable {τ : Type} {g : Grammar} {p : Parser τ}

/-- There is a transition to each item, topmost first, from the state below it. -/
inductive Stacked (g : Grammar) : List (Item τ) → List (Option ProductionIdx) → Prop where
  /-- There are no items. -/
  | nil : Stacked g [] []
  /-- There is one more. -/
  | cons {item : Item τ} {items : List (Item τ)} {renamed : Option ProductionIdx}
      {renamings : List (Option ProductionIdx)} :
      item.Entered g (g.topState items) renamed → Stacked g items renamings →
      Stacked g (item :: items) (renamed :: renamings)

namespace Stacked

variable {items : List (Item τ)} {renamed : List (Option ProductionIdx)}

theorem length_eq (h : Stacked g items renamed) : renamed.length = items.length := by
  induction h with
  | nil => rfl
  | cons _ _ ih => exact congrArg Nat.succ ih

/-- What lies below other items. -/
theorem drop {above : List (Item τ)} (h : Stacked g (above ++ items) renamed) :
    Stacked g items (renamed.drop above.length) := by
  induction above generalizing renamed with
  | nil => exact h
  | cons item above ih =>
    cases h with
    | cons _ hbelow => exact ih hbelow

theorem ne_bottom (h : Stacked g items renamed) : ∀ item ∈ items, item.origin ≠ .bottom := by
  induction h with
  | nil => exact nofun
  | cons hentered _ ih => exact List.forall_mem_cons.2 ⟨hentered.ne_bottom, ih⟩

theorem exists_path (h : Stacked g items renamed) :
    ∃ symbols, symbols.length = items.length ∧
      g.Path g.lalrInitial symbols (g.topState items) := by
  induction h with
  | nil => exact ⟨[], rfl, .nil⟩
  | cons hentered _ ih =>
    obtain ⟨symbols, hlen, hpath⟩ := ih
    obtain ⟨s, hs⟩ := hentered.exists_transition?
    exact ⟨symbols ++ [s], by rw [List.length_append, hlen]; rfl, .snoc hpath hs⟩

/-- The state below an item is that of the item before it, which may be the bottom. -/
theorem entered {bottom lower upper : Item τ} {above below : List (Item τ)}
    (h : Stacked g items renamed) (hbottom : bottom.state = g.lalrInitial)
    (hsplit : items ++ [bottom] = above ++ upper :: lower :: below) :
    ∃ r, renamed[above.length]? = some r ∧ upper.Entered g lower.state r := by
  induction h generalizing above with
  | nil =>
    -- one element is not two
    have hlen : 1 = above.length + (below.length + 1 + 1) := by
      have hlen := congrArg List.length hsplit
      rwa [List.length_append, List.length_append] at hlen
    omega
  | @cons item items r renamed hentered _ ih =>
    cases above with
    | cons _ above => exact ih (List.cons.inj hsplit).2
    | nil =>
      obtain ⟨rfl, hrest⟩ := List.cons.inj hsplit
      have hlower : g.topState items = lower.state := by
        cases items with
        | nil => rw [← (List.cons.inj hrest).1]; exact hbottom.symm
        | cons first items => rw [← (List.cons.inj hrest).1]; rfl
      exact ⟨r, rfl, hlower ▸ hentered⟩

end Stacked

/-! ### Operations -/

/-- The parser is in the state on top of its stack, and there is a transition to each item. -/
structure OnPath (g : Grammar) (p : Parser τ) (renamed : List (Option ProductionIdx)) : Prop where
  state : p.state = g.topState p.items
  stacked : Stacked g p.items renamed

namespace OnPath

variable {renamed : List (Option ProductionIdx)}

theorem start (lexer : Lexer) (trim : Bool) :
    (start g lexer trim : Parser τ).OnPath g [] :=
  ⟨rfl, .nil⟩

theorem setPayload (h : p.OnPath g renamed) (payload : Option τ) :
    (p.setPayload payload).OnPath g renamed := by
  obtain ⟨hstate, hstacked⟩ := h
  unfold Parser.setPayload
  cases hitems : p.items with
  | nil => exact ⟨hstate, hstacked⟩
  | cons item items =>
    rw [hitems] at hstate hstacked
    cases hstacked with
    | cons hentered hbelow => exact ⟨hstate, .cons (hentered.setPayload payload) hbelow⟩

/-- **A step that is no internal error keeps the stack a path.** -/
theorem step (hg : g.Loaded) (h : p.OnPath g renamed) (hinternal : p.stepIsInternal g = false) :
    (p.step g).2.OnPath g (Op.step.record g p renamed) := by
  obtain ⟨hstate, hstacked⟩ := h
  have hsteps := stepsTo_step (g := g) (p := p)
  unfold stepIsInternal at hinternal
  unfold Op.record
  generalize p.step g = next at hsteps hinternal
  cases hsteps with
  | @shift q token state haction hq hpush _ =>
    refine ⟨by rw [hq, hpush]; rfl, ?_⟩
    rw [hpush]
    exact .cons (.shifted rfl (hstate ▸ haction)) hstacked
  | @reduce q i production state handles below hi hsplit hgoto hq hpush hreduction =>
    refine ⟨by rw [hq, hpush]; rfl, ?_⟩
    rw [hsplit] at hstacked
    rw [hpush]
    simp only [hreduction, Option.elim_some, List.length_reverse]
    exact .cons (.reduced rfl (hg.getElem?_index hi) (Grammar.action?_of_goto hgoto))
      hstacked.drop
  | @rename q i production state item below hnext hi hunit hsplit hgoto hq hpush _ =>
    refine ⟨by rw [hq, hpush]; rfl, ?_⟩
    rw [hsplit] at hstacked
    rw [hpush]
    cases hstacked with
    | cons hentered hbelow =>
      simp only [hnext, List.tail_cons]
      exact .cons (.renamed hentered.ne_bottom hi hunit (Grammar.action?_of_goto hgoto)) hbelow
  | @stay e q hfinal hq hitems _ =>
    have hrecord : OnPath g q renamed := ⟨by rw [hq, hitems, hstate], hitems ▸ hstacked⟩
    cases e with
    | accept => exact hrecord
    | error => exact hrecord
    | _ => cases hfinal
  | lose _ herror hfault _ => simp [herror, hfault] at hinternal

theorem trail? (hg : g.Loaded) {ops : List (Op τ)} {q : Parser τ}
    {renamed' : List (Option ProductionIdx)} (h : p.OnPath g renamed)
    (htrail : p.trail? g ops renamed = some (q, renamed')) : q.OnPath g renamed' := by
  induction ops generalizing p renamed with
  | nil =>
    cases htrail
    exact h
  | cons op ops ih =>
    cases op with
    | step =>
      rw [Parser.trail?] at htrail
      split at htrail
      · cases htrail
      · rename_i hinternal
        exact ih (h.step hg (Bool.eq_false_iff.2 hinternal)) htrail
    | load input => exact ih (.start _ _) htrail
    | reset => exact ih (.start _ _) htrail
    | release => exact ih (.start _ _) htrail
    | attach payload => exact ih (h.setPayload payload) htrail

end OnPath

/-- **The parse stack is a path of the LALR automaton.**  After any operations none of which is an
internal error, the bottom of the stack is as it was at the start, and it is the only such item.
The parser is in the state of the topmost item, and from the state of each item there is a
transition to the next one: over the token that it holds or over the head that it was made for, or,
if a trimmed reduction has moved it on, over the head of the production that did so last.  No step
pops all of the stack, so the bottom stays. -/
theorem stack_onPath (hg : g.Loaded) (lexer : Lexer) (trim : Bool) (ops : List (Op τ))
    {renamed : List (Option ProductionIdx)}
    (h : (Parser.start g lexer trim : Parser τ).trail? g ops [] = some (p, renamed)) :
    (∃ items, p.stack g = ⟨g.lalrInitial, .bottom, none⟩ :: items ∧
      (∀ item ∈ items, item.origin ≠ .bottom) ∧ renamed.length = items.length ∧
      ∃ symbols, symbols.length = items.length ∧ g.Path g.lalrInitial symbols p.state) ∧
    (p.stack g).getLast?.map Item.state = some p.state ∧
    (∀ below lower upper above, p.stack g = below ++ lower :: upper :: above →
      ∃ r, renamed[above.length]? = some r ∧ upper.Entered g lower.state r) ∧
    ∃ kept taken pushed, kept ≠ [] ∧ p.stack g = kept ++ taken ∧
      (p.step g).2.stack g = kept ++ pushed ∧
      ∀ r ∈ (p.step g).2.reduction, r.handles = taken := by
  obtain ⟨hstate, hstacked⟩ := (OnPath.start lexer trim).trail? hg h
  refine ⟨⟨p.items.reverse, rfl, ?_, ?_, ?_⟩, ?_, ?_, stepsTo_step.exists_kept⟩
  · exact fun item hitem => hstacked.ne_bottom item (List.mem_reverse.1 hitem)
  · rw [hstacked.length_eq, List.length_reverse]
  · obtain ⟨symbols, hlen, hpath⟩ := hstacked.exists_path
    exact ⟨symbols, hlen.trans List.length_reverse.symm, hstate ▸ hpath⟩
  · rw [hstate]
    cases hitems : p.items with
    | nil => simp only [stack, hitems]; rfl
    | cons item items =>
      simp only [stack, hitems, List.reverse_cons, ← List.cons_append, List.getLast?_concat]
      rfl
  · intro below lower upper above hsplit
    have hreverse := congrArg List.reverse hsplit
    simp only [stack, List.reverse_cons, List.reverse_reverse, List.reverse_append,
      List.append_assoc, List.cons_append, List.nil_append] at hreverse
    have hentered := hstacked.entered rfl hreverse
    rwa [List.length_reverse] at hentered

set_option maxRecDepth 10000 in
/-- Ten steps into `1+2`, each operand has been renamed: the first to a sum by `<E> ::= <M>`, and
the second to a product by `<M> ::= <N>`.  So the state of the second is the one for a product on
top of a sum and its sign. -/
theorem stack_onPath_sum :
    ∃ g, Grammar.ofBytes Sample.operators.toBytes = .ok g ∧ ∃ (p : Parser Unit) (lower upper : _),
      (Parser.start g (({} : Lexer).load (.owned "1+2")) true).trail? g
        (List.replicate 10 .step) [] = some (p, [some 5, none, some 2]) ∧
      (p.stack g)[2]? = some lower ∧ (p.stack g)[3]? = some upper ∧
      upper.origin = .reduced 8 ∧
      upper.Entered g lower.state (some 5) ∧ g.action? lower.state 14 = some (.goto p.state) := by
  generalize hops : List.replicate 10 (.step : Op Unit) = ops
  have hcheck : Grammar.loadsWith Sample.operators.toBytes (fun g =>
      ((Parser.start g (({} : Lexer).load (.owned "1+2")) true).trail? g ops []).any
        fun (p, renamed) => renamed == [some 5, none, some 2] &&
          (p.stack g)[3]?.any (·.origin == .reduced 8) &&
          g.productions[5]?.map (·.head) == some 14) = true := by
    rw [← hops]
    decide +kernel
  obtain ⟨g, hload, hg⟩ := Grammar.exists_of_loadsWith hcheck
  simp only [Option.any_eq_true, Bool.and_eq_true, beq_iff_eq, Option.map_eq_some_iff] at hg
  obtain ⟨⟨p, renamed⟩, htrail, ⟨rfl, upper, hupper, horigin⟩, production, hproduction, hhead⟩ := hg
  obtain ⟨⟨items, hstack, -, hlength, -⟩, hlast, hconsecutive, -⟩ :=
    stack_onPath (.ofBytes hload) _ _ _ htrail
  obtain ⟨sum, lower, product, rfl⟩ := List.length_eq_three.1 hlength.symm
  rw [hstack] at hupper hlast
  obtain rfl : product = upper := Option.some.inj hupper
  obtain ⟨r, hr, hentered⟩ := hconsecutive [_, sum] lower product [] hstack
  obtain rfl : some 5 = r := Option.some.inj hr
  have hstate : product.state = p.state := Option.some.inj hlast
  refine ⟨g, hload, p, lower, product, htrail, by rw [hstack]; rfl, by rw [hstack]; rfl, horigin,
    hentered, ?_⟩
  cases hentered with
  | renamed _ hi _ haction =>
    cases hproduction.symm.trans hi
    rw [hhead, hstate] at haction
    exact haction

end Parser

end CompiledGrammar
