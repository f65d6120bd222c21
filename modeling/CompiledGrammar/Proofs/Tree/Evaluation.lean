import CompiledGrammar.Proofs.Grammar.Loaded
import CompiledGrammar.Proofs.Lexer.Scan
import CompiledGrammar.Proofs.Tree.Concrete
import CompiledGrammar.Table.Sample
import CompiledGrammar.Tree.Evaluation

/-!
# Evaluating a parse is evaluating its tree

An evaluator computes the value of an input while the input is parsed.  If its actions depend on
nothing but the values and the texts of the handles, that is the value of the tree.

* `Tree.eval` is the value of a tree, given a computation for some of the productions;
* a `Registration` sets an action that is given by a computation, and of several for one production
  the last one counts (`Evaluator.action?_ofRegistrations`);
* `Evaluator.Evaluates` says of a parser that its items have the values of the trees that they stand
  for.  Every step keeps that up (`Evaluator.Evaluates.step`), so where a run accepts, the result is
  the value of the tree on top (`Evaluator.Evaluates.result_of_run`).

`Evaluator.eval_of_accept` compares that with the tree that the concrete builder makes of the same
input.
-/

namespace CompiledGrammar

variable {τ : Type}

/-! ### Values of trees -/

/-- A value that is computed from the values and the texts of handles, from left to right. -/
abbrev Computation (τ : Type) := List (Option τ × Option String) → τ

namespace Tree

/-- The text of a tree that is a token. -/
def lexeme? (t : Tree) (input : Buffer) : Option String :=
  t.origin.token?.bind (·.lexeme? input)

mutual

/-- The value of a tree.  A token has none.  A node of a production without a computation passes on
the value of its first child. -/
def eval (computation? : ProductionIdx → Option (Computation τ)) (input : Buffer) :
    Tree → Option τ
  | leaf _ => none
  | node p children =>
    match computation? p with
    | some f => some (f (evalAll computation? input children))
    | none => (evalAll computation? input children).head?.bind Prod.fst

/-- The values of some trees, with their texts. -/
def evalAll (computation? : ProductionIdx → Option (Computation τ)) (input : Buffer) :
    List Tree → List (Option τ × Option String)
  | [] => []
  | c :: cs => (c.eval computation? input, c.lexeme? input) :: evalAll computation? input cs

end

variable {computation? : ProductionIdx → Option (Computation τ)} {input : Buffer}

theorem evalAll_eq_map (children : List Tree) :
    evalAll computation? input children =
      children.map fun c => (c.eval computation? input, c.lexeme? input) := by
  induction children with
  | nil => rw [evalAll, List.map_nil]
  | cons c cs ih => rw [evalAll, ih, List.map_cons]

@[simp] theorem eval_leaf (token : Token) : (leaf token).eval computation? input = none := by
  rw [eval]

theorem eval_node (p : ProductionIdx) (children : List Tree) :
    (node p children).eval computation? input =
      match computation? p with
      | some f => some (f (children.map fun c => (c.eval computation? input, c.lexeme? input)))
      | none => children.head?.bind (·.eval computation? input) := by
  rw [eval, evalAll_eq_map]
  cases computation? p with
  | some f => rfl
  | none => cases children <;> rfl

end Tree

/-! ### Registered actions -/

namespace Evaluator

theorem action?_setAction (ev : Evaluator τ) (i p : ProductionIdx) (f : Evaluate τ) :
    (ev.setAction i f).action? p = if i = p then some f else ev.action? p := by
  simp only [action?, setAction, List.lookup_cons]
  by_cases hp : i = p
  · rw [if_pos hp, beq_iff_eq.2 hp.symm]
  · rw [if_neg hp, beq_false_of_ne (Ne.symm hp)]

end Evaluator

/-- An action for a production, given by its number or its identifier.  What it makes of the handles
is a computation, whatever it leaves behind of them. -/
structure Registration (τ : Type) where
  /-- The production. -/
  production : ProductionIdx ⊕ String
  /-- The action. -/
  action : Evaluate τ
  /-- The computation. -/
  computation : Computation τ
  /-- The action computes it. -/
  action_fst : ∀ items input, (action items input).1 =
    computation (items.map fun item => (item.payload, item.lexeme? input))

namespace Registration

/-- The action that computes and leaves the handles as they are. -/
def ofComputation (production : ProductionIdx ⊕ String) (f : Computation τ) : Registration τ :=
  ⟨production, fun items input => (f (items.map fun item => (item.payload, item.lexeme? input)),
    items), f, fun _ _ => rfl⟩

/-- The number of the production, if the grammar has it. -/
def production? (r : Registration τ) (g : Grammar) : Option ProductionIdx :=
  match r.production with
  | .inl p => some p
  | .inr id => g.productionIdx? id

/-- Set the action, unless the grammar does not have the production. -/
def register (g : Grammar) (ev : Evaluator τ) (r : Registration τ) : Evaluator τ :=
  match r.production with
  | .inl p => ev.setAction p r.action
  | .inr id => (ev.setActionById? g id r.action).getD ev

/-- The last of some registrations for a production. -/
def last? (g : Grammar) (rs : List (Registration τ)) (p : ProductionIdx) :
    Option (Registration τ) :=
  rs.reverse.find? fun r => r.production? g == some p

/-- The computation of the last registration for a production. -/
def computation? (g : Grammar) (rs : List (Registration τ)) (p : ProductionIdx) :
    Option (Computation τ) :=
  (last? g rs p).map computation

theorem last?_concat (g : Grammar) (rs : List (Registration τ)) (r : Registration τ)
    (p : ProductionIdx) :
    last? g (rs ++ [r]) p = if r.production? g = some p then some r else last? g rs p := by
  unfold last?
  rw [List.reverse_append, List.reverse_singleton, List.singleton_append, List.find?_cons]
  by_cases hp : r.production? g = some p
  · rw [if_pos hp, beq_iff_eq.2 hp]
  · rw [if_neg hp, beq_false_of_ne hp]

theorem action?_register (g : Grammar) (ev : Evaluator τ) (r : Registration τ)
    (p : ProductionIdx) :
    (r.register g ev).action? p =
      if r.production? g = some p then some r.action else ev.action? p := by
  unfold register production?
  cases r.production with
  | inl i => simpa only [Option.some.injEq] using ev.action?_setAction i p r.action
  | inr id =>
    rcases hid : g.productionIdx? id with _ | i
    · simp [Evaluator.setActionById?, hid]
    · simpa [Evaluator.setActionById?, hid] using ev.action?_setAction i p r.action

end Registration

namespace Evaluator

/-- An evaluator with registered actions. -/
def ofRegistrations (g : Grammar) (rs : List (Registration τ)) : Evaluator τ :=
  rs.foldl (Registration.register g) {}

theorem action?_ofRegistrations (g : Grammar) (rs : List (Registration τ)) (p : ProductionIdx) :
    (ofRegistrations g rs).action? p = (Registration.last? g rs p).map Registration.action := by
  unfold ofRegistrations
  induction rs using List.reverseRecOn with
  | nil => rfl
  | append_singleton rs r ih =>
    rw [List.foldl_append, List.foldl_cons, List.foldl_nil, Registration.action?_register, ih,
      Registration.last?_concat]
    split <;> rfl

/-! ### Steps -/

variable {g : Grammar} {l : Lexer} {rs : List (Registration τ)} {c d : Config} {ev : Evaluator τ}
  {p : Parser τ}

/-- An item stands for a tree and has its value. -/
def HasValue (g : Grammar) (rs : List (Registration τ)) (input : Buffer) (item : Item τ)
    (t : Tree) : Prop :=
  item.payload = t.eval (Registration.computation? g rs) input ∧ item.origin = t.origin

theorem map_of_hasValue {input : Buffer} {items : List (Item τ)} {trees : List Tree}
    (h : List.Forall₂ (HasValue g rs input) items trees) :
    items.map (fun item => (item.payload, item.lexeme? input)) =
      trees.map fun t => (t.eval (Registration.computation? g rs) input, t.lexeme? input) := by
  induction h with
  | nil => rfl
  | @cons item t _ _ hfirst _ ih =>
    have hlexeme : item.lexeme? input = t.lexeme? input := by
      rw [Item.lexeme?, hfirst.2, Tree.lexeme?]
    rw [List.map_cons, List.map_cons, ih, hfirst.1, hlexeme]

/-- The value of a head is that of a node, if the handles have the values of its children. -/
theorem evaluate_eq (production : ProductionIdx)
    (hactions : ∀ i, ev.action? i = (Registration.last? g rs i).map (·.action))
    {input : Buffer} {handles : List (Item τ)} {children : List Tree}
    (h : List.Forall₂ (HasValue g rs input) handles children) :
    (ev.evaluate ⟨production, handles⟩ input).1 =
      (Tree.node production children).eval (Registration.computation? g rs) input := by
  unfold evaluate
  rw [hactions, Tree.eval_node, Registration.computation?]
  cases Registration.last? g rs production with
  | some r =>
    simp only [Option.map_some]
    rw [r.action_fst, map_of_hasValue h]
  | none =>
    cases h with
    | nil => rfl
    | cons hfirst _ => exact hfirst.1

theorem input_eq (h : p.At g l c) : p.input = l.buffer := by
  unfold Parser.input
  rcases h.input with ⟨-, hlexer⟩ | ⟨-, hlexer⟩ <;> rw [hlexer, Lexer.buffer_skip]

/-- The values go on over a step that a parser takes with the automaton, and so do those of any
parser `r` that holds the same after the step. -/
theorem values_of_follows
    (hactions : ∀ i, ev.action? i = (Registration.last? g rs i).map (·.action))
    {q r : Parser τ} {e : Event} (h : Parser.Follows g l c p (.ok d) (e, q))
    (hvalues : List.Forall₂ (HasValue g rs l.buffer) p.items (c.frames.map Frame.tree))
    (hinput : r.input = q.input) (hitems : r.items = q.items)
    (hreduction : r.reduction = q.reduction) :
    e.isFinal = false ∧ q.At g l d ∧ ∃ reduction payload,
      onEvent e ev r = (ev, { r with reduction }.setPayload payload) ∧
      List.Forall₂ (HasValue g rs l.buffer) ({ r with reduction }.setPayload payload).items
        (d.frames.map Frame.tree) := by
  cases h with
  | @shift q state hq hpush _ =>
    have hself := Parser.setPayload_self (hitems.trans hpush)
    refine ⟨rfl, hq, r.reduction, none, congrArg (Prod.mk ev) hself.symm, ?_⟩
    rw [Parser.items_setPayload (hitems.trans hpush)]
    exact .cons ⟨(Tree.eval_leaf _).symm, rfl⟩ hvalues
  | @reduce q i production state handles below hs fs _ hsplit hframes hlen _ hq hpush htaken =>
    rw [hsplit, hframes, List.map_append] at hvalues
    obtain ⟨hhandles, hbelow⟩ := forall₂_of_append (by rw [hlen, List.length_map]) hvalues
    have hvalue := evaluate_eq production.index hactions (List.forall₂_reverse_iff.2 hhandles)
    simp only [onEvent, hreduction.trans htaken, hinput, input_eq hq]
    generalize ev.evaluate ⟨production.index, handles.reverse⟩ l.buffer = outcome at hvalue
    obtain ⟨value, left⟩ := outcome
    refine ⟨rfl, hq, some ⟨production.index, left⟩, value, rfl, ?_⟩
    have hleft : ({ r with reduction := some ⟨production.index, left⟩ } : Parser τ).items =
      ⟨state, .reduced production.index, none⟩ :: below := hitems.trans hpush
    rw [Parser.items_setPayload hleft, List.map_cons, List.map_reverse]
    exact .cons ⟨hvalue, rfl⟩ hbelow

/-- On accepting, the result is the value of the topmost item. -/
theorem result_of_accept {trees : List Tree}
    (hvalues : List.Forall₂ (HasValue g rs l.buffer) p.items trees) :
    (onEvent .accept ev p).1.result =
      trees.head?.bind (·.eval (Registration.computation? g rs) l.buffer) := by
  simp only [onEvent, Parser.topPayload?, Parser.top?]
  generalize p.items = items at hvalues
  cases hvalues with
  | nil => rfl
  | cons hfirst _ => exact hfirst.1

/-- The items of a parser at a configuration have the values of the trees that they stand for. -/
structure Evaluates (g : Grammar) (l : Lexer) (rs : List (Registration τ)) (c : Config)
    (ev : Evaluator τ) (p : Parser τ) : Prop where
  /-- The parser is at the configuration. -/
  position : p.At g l c
  /-- The actions are the registered ones. -/
  actions : ∀ i, ev.action? i = (Registration.last? g rs i).map (·.action)
  /-- Each item has the value of its tree. -/
  values : List.Forall₂ (HasValue g rs l.buffer) p.items (c.frames.map Frame.tree)

namespace Evaluates

theorem step (h : Evaluates g l rs c ev p) (hstep : c.step g l = .ok d) :
    (p.step g).1.isFinal = false ∧
      Evaluates g l rs d (onEvent (p.step g).1 ev (p.step g).2).1
        (onEvent (p.step g).1 ev (p.step g).2).2 := by
  have hfollows := h.position.step
  rw [hstep] at hfollows
  generalize p.step g = result at hfollows
  obtain ⟨e, q⟩ := result
  obtain ⟨hfinal, hq, reduction, payload, hevent, hvalues⟩ :=
    values_of_follows h.actions hfollows h.values rfl rfl rfl
  dsimp only
  rw [hevent]
  exact ⟨hfinal, (hq.setReduction reduction).setPayload payload, h.actions, hvalues⟩

theorem accept (h : Evaluates g l rs c ev p) (hstep : c.step g l = .error .accept) :
    (p.step g).1 = .accept ∧ (onEvent .accept ev (p.step g).2).1.result =
      c.frames.head?.bind (·.tree.eval (Registration.computation? g rs) l.buffer) := by
  have hfollows := h.position.step
  rw [hstep] at hfollows
  generalize p.step g = result at hfollows
  cases hfollows with
  | @accept q hq hitems _ =>
    refine ⟨rfl, ?_⟩
    rw [result_of_accept (hitems ▸ h.values), List.head?_map]
    cases c.frames.head? <;> rfl

/-- Where the automaton accepts, the result is the value of the tree on top. -/
theorem result_of_run {n : Nat} (h : Evaluates g l rs c ev p)
    (hrun : c.run g l n = some (d, .accept)) :
    ∃ ev' q, p.runWith g onEvent n ev = some (.accept, ev', q) ∧
      ev'.result = d.frames.head?.bind (·.tree.eval (Registration.computation? g rs) l.buffer) := by
  -- by induction on the number of steps, both sides of which take one and then go on
  induction n generalizing ev p c with
  | zero => cases hrun
  | succ n ih =>
    rw [Parser.runWith_succ]
    cases hstep : c.step g l with
    | ok next =>
      rw [Config.run_succ_of_move (Config.step_eq_ok.1 hstep)] at hrun
      obtain ⟨hfinal, hnext⟩ := h.step hstep
      rw [hfinal, if_neg Bool.false_ne_true]
      exact ih hnext hrun
    | error verdict =>
      rw [Config.run_succ_of_verdict hstep] at hrun
      cases hrun
      obtain ⟨hevent, hresult⟩ := h.accept hstep
      rw [hevent]
      exact ⟨_, _, if_pos rfl, hresult⟩

end Evaluates

/-- **Evaluating a parse is evaluating its tree.**  When an input is accepted, it is also accepted
with the concrete builder watching and with an evaluator watching, and what the evaluator computes
is the value of the tree that the builder makes. -/
theorem eval_of_accept {n : Nat}
    (h : (Parser.start g l false : Parser τ).run g n = some (.accept, p))
    (rs : List (Registration τ)) :
    ∃ b q ev r,
      (Parser.start g l false).runWith g ConcreteBuilder.onEvent n {} = some (.accept, b, q) ∧
      (Parser.start g l false).runWith g onEvent n (ofRegistrations g rs) = some (.accept, ev, r) ∧
      match b.root with
      | some root => ∃ t, b.arena.Represents root t ∧
          ev.result = t.eval (Registration.computation? g rs) l.buffer
      | none => ev.result = none := by
  obtain ⟨d, hd⟩ := Parser.exists_run_of_accept h
  obtain ⟨b, q, hbuilds, -, -, hroot⟩ := ConcreteBuilder.root_of_accept hd
  have hstart : Evaluates g l rs {} (ofRegistrations g rs) (Parser.start g l false) :=
    ⟨Parser.at_start g l, action?_ofRegistrations g rs, .nil⟩
  obtain ⟨ev, r, hevaluates, hresult⟩ := hstart.result_of_run hd
  refine ⟨b, q, ev, r, hbuilds, hevaluates, ?_⟩
  cases hframes : d.frames.head? with
  | none =>
    rw [hframes] at hroot hresult
    rw [hroot]
    exact hresult
  | some f =>
    rw [hframes] at hroot hresult
    obtain ⟨root, hroot, hrepresents⟩ := hroot
    rw [hroot]
    exact ⟨f.tree, hrepresents, hresult⟩

/-- Sums with the summands the other way round, and numbers as they are. -/
def swapSummands : List (Registration String) :=
  let value (hs : List (Option String × Option String)) (i : Nat) := (hs[i]?.bind Prod.fst).getD ""
  [.ofComputation (.inl 0) fun _ => "",
    .ofComputation (.inr "<E> ::= <E> + <M>") fun hs => value hs 2 ++ "+" ++ value hs 0,
    .ofComputation (.inr "<V> ::= Num") fun hs => (hs.head?.bind Prod.snd).getD ""]

set_option maxRecDepth 10000 in
/-- What `1+2+3` is computed to is the value of its tree, `3+2+1`. -/
theorem eval_of_accept_sum :
    ∃ g, Grammar.ofBytes Sample.operators.toBytes = .ok g ∧ ∃ b q ev r root t,
      (Parser.start g (({} : Lexer).load (.owned "1+2+3")) false).runWith g ConcreteBuilder.onEvent
        60 {} = some (.accept, b, q) ∧
      (Parser.start g (({} : Lexer).load (.owned "1+2+3")) false).runWith g onEvent 60
        (ofRegistrations g swapSummands) = some (.accept, ev, r) ∧
      b.root = some root ∧ b.arena.Represents root t ∧ ev.result = some "3+2+1" ∧
      t.eval (Registration.computation? g swapSummands) (.owned "1+2+3") = some "3+2+1" := by
  have hcheck : Grammar.loadsWith Sample.operators.toBytes (fun g =>
      (((Parser.start g (({} : Lexer).load (.owned "1+2+3")) false : Parser String).run g 60).any
        fun (event, _) => event == .accept) &&
      (((Parser.start g (({} : Lexer).load (.owned "1+2+3")) false).runWith g onEvent 60
        (ofRegistrations g swapSummands)).any fun (_, ev, _) => ev.result == some "3+2+1") &&
      (((Parser.start g (({} : Lexer).load (.owned "1+2+3")) false).runWith g
        ConcreteBuilder.onEvent 60 {}).any fun (_, b, _) => b.root.isSome)) = true := by
    decide +kernel
  obtain ⟨g, hload, hg⟩ := Grammar.exists_of_loadsWith hcheck
  simp only [Bool.and_eq_true, Option.any_eq_true, beq_iff_eq] at hg
  obtain ⟨⟨⟨⟨event, p⟩, hrun, rfl⟩, ⟨_, ev, _⟩, hresult, hvalue⟩, ⟨_, b, _⟩, hbuild, hsome⟩ := hg
  obtain ⟨_, _, _, _, hbuilds, hevaluates, heval⟩ := eval_of_accept hrun swapSummands
  cases hevaluates.symm.trans hresult
  cases hbuilds.symm.trans hbuild
  obtain ⟨root, hroot⟩ := Option.isSome_iff_exists.1 hsome
  rw [hroot] at heval
  obtain ⟨t, hrepresents, ht⟩ := heval
  exact ⟨g, hload, _, _, _, _, root, t, hbuilds, hevaluates, hroot, hrepresents, hvalue,
    ht.symm.trans hvalue⟩

end Evaluator

end CompiledGrammar
