import CompiledGrammar.Proofs.Parser.Trimming
import CompiledGrammar.Proofs.Tree.Evaluation
import CompiledGrammar.Proofs.Tree.Trimmed

/-!
# Concrete trees and values of trimming parsers

A parser that trims reductions builds the concrete tree without its renamings.  What an evaluator
computes is then the value of that tree.

* The value does not change with the renamings (`Tree.eval_contract`) if no action is for one, and
  what is renamed is never a token: its text would be lost to the renaming, but not to a handle that
  takes its place.  So neither a state of the lexical automaton nor a group may make tokens of
  non-terminals (`Grammar.ScansTerminals`), and reductions have to take off their handles.
* `Evaluator.EvaluatesTrimmed` is for a trimming parser what `Evaluator.Evaluates` is for one that
  does not trim.

`Parser.trimming_contracts` compares trees and values with and without trimming.
-/

namespace CompiledGrammar

variable {τ : Type} {g : Grammar} {l : Lexer}

/-! ### Tokens of non-terminals -/

namespace Grammar

/-- Neither what a state of the lexical automaton accepts nor the container of a group is a
non-terminal. -/
def ScansTerminals (g : Grammar) : Prop :=
  (∀ q ∈ g.dfaStates, ∀ s ∈ q.accept, g.hasKind s .nonTerminal = false) ∧
    ∀ group ∈ g.groups, g.hasKind group.container .nonTerminal = false

instance (g : Grammar) : Decidable g.ScansTerminals := inferInstanceAs (Decidable (_ ∧ _))

/-- No token is one of a non-terminal: the error and the end of the input are of other kinds. -/
theorem ScansTerminals.of_mem_scanned (h : g.ScansTerminals) (hg : g.WellFormed) {s : SymbolIdx}
    (hs : s ∈ g.scanned) : g.hasKind s .nonTerminal = false := by
  have hother {kind : SymbolKind} (hkind : g.hasKind s kind = true) (hne : kind ≠ .nonTerminal) :
      g.hasKind s .nonTerminal = false :=
    Bool.eq_false_iff.2 fun hnonTerminal => hne (Lexer.hasKind_unique hkind hnonTerminal)
  rcases List.mem_cons.1 hs with rfl | hs
  · exact hother hg.eofSymbol.hasKind (by decide)
  rcases List.mem_cons.1 hs with rfl | hs
  · exact hother hg.errorSymbol.hasKind (by decide)
  rcases List.mem_append.1 hs with hs | hs
  · obtain ⟨q, hq, haccept⟩ := List.mem_filterMap.1 hs
    exact h.1 q (Array.mem_toList_iff.1 hq) s haccept
  · obtain ⟨group, hgroup, rfl⟩ := List.mem_map.1 hs
    exact h.2 group (Array.mem_toList_iff.1 hgroup)

end Grammar

/-! ### Values without renamings -/

/-- No registration is for a production that only renames. -/
def Registration.SkipUnits (g : Grammar) (rs : List (Registration τ)) : Prop :=
  ∀ r ∈ rs, ∀ i ∈ r.production? g, ∀ p ∈ g.productions[i]?, g.isUnit p = false

instance (g : Grammar) (rs : List (Registration τ)) : Decidable (Registration.SkipUnits g rs) := by
  unfold Registration.SkipUnits
  infer_instance

theorem Registration.SkipUnits.computation?_eq_none {rs : List (Registration τ)}
    (h : SkipUnits g rs) {i : ProductionIdx} {p : Production} (hp : g.productions[i]? = some p)
    (hunit : g.isUnit p = true) : computation? g rs i = none := by
  unfold computation?
  cases hlast : last? g rs i with
  | none => rfl
  | some r =>
    rw [last?] at hlast
    have hfound : r.production? g = some i := by simpa using List.find?_some hlast
    have hskips := h r (List.mem_reverse.1 (List.mem_of_find?_eq_some hlast)) i hfound p hp
    cases hskips.symm.trans hunit

namespace Tree

variable {computation? : ProductionIdx → Option (Computation τ)} {input : Buffer} {t : Tree}

/-- The symbols of the tokens of a tree are not non-terminals. -/
def LeavesTerminal (g : Grammar) (t : Tree) : Prop :=
  ∀ token ∈ t.leaves, g.hasKind token.symbol .nonTerminal = false

theorem LeavesTerminal.child {i : ProductionIdx} {children : List Tree}
    (h : (node i children).LeavesTerminal g) {c : Tree} (hc : c ∈ children) :
    c.LeavesTerminal g := by
  intro token htoken
  exact h token (leaves_node i children ▸ List.mem_flatMap.2 ⟨c, hc, htoken⟩)

/-- What is renamed is no token. -/
theorem LeavesTerminal.lexeme?_eq_none (h : t.LeavesTerminal g) {s : SymbolIdx}
    (hsymbol : t.symbol? g = some s) (hkind : g.hasKind s .nonTerminal = true) :
    t.lexeme? input = none := by
  cases t with
  | leaf token =>
    cases hsymbol
    have hterminal := h token (leaves_leaf token ▸ List.mem_singleton_self token)
    cases hterminal.symm.trans hkind
  | node i children => rfl

/-- A derivation has the same value, and the same text, without its renamings. -/
theorem eval_contract (hunits : ∀ {i p}, g.productions[i]? = some p → g.isUnit p = true →
      computation? i = none) (ht : t.IsDerivation g) (hleaves : t.LeavesTerminal g) :
    (t.contract g).eval computation? input = t.eval computation? input ∧
      (t.contract g).lexeme? input = t.lexeme? input := by
  induction ht with
  | leaf token =>
    rw [contract_leaf]
    exact ⟨rfl, rfl⟩
  | @node i p children hp hchildren _ ih =>
    rw [contract_node]
    cases hunit : g.isUnit p with
    | false =>
      rw [trimmedNode_of_not_isUnit hp hunit, eval_node, eval_node]
      refine ⟨?_, rfl⟩
      -- the children have the same values and texts, one after the other
      have hall : (children.map (·.contract g)).map
            (fun c => (c.eval computation? input, c.lexeme? input)) =
          children.map fun c => (c.eval computation? input, c.lexeme? input) := by
        rw [List.map_map]
        refine List.map_congr_left fun c hc => ?_
        obtain ⟨heval, hlexeme⟩ := ih c hc (hleaves.child hc)
        exact Prod.ext heval hlexeme
      cases computation? i with
      | some f => exact congrArg (fun handles => some (f handles)) hall
      | none =>
        cases children with
        | nil => rfl
        | cons c cs => exact (ih c List.mem_cons_self (hleaves.child List.mem_cons_self)).1
    | true =>
      obtain ⟨c, s, rfl, hsymbol, hkind, -⟩ := exists_child_of_isUnit hp hunit hchildren
      have hc := List.mem_singleton_self c
      obtain ⟨heval, hlexeme⟩ := ih c hc (hleaves.child hc)
      rw [List.map_singleton, trimmedNode_of_isUnit hp hunit, heval, hlexeme,
        (hleaves.child hc).lexeme?_eq_none hsymbol hkind, eval_node, hunits hp hunit]
      exact ⟨rfl, rfl⟩

end Tree

/-! ### Evaluation with trimming -/

namespace Evaluator

variable {rs : List (Registration τ)} {c d : Config} {ev : Evaluator τ} {p : Parser τ}

/-- The items of a trimming parser at a configuration have the values of the trees that they stand
for, which are those of the configuration without their renamings. -/
structure EvaluatesTrimmed (g : Grammar) (l : Lexer) (rs : List (Registration τ)) (c : Config)
    (ev : Evaluator τ) (p : Parser τ) : Prop where
  /-- The parser is at the configuration. -/
  position : p.TrimsAt g l c
  /-- The actions are the registered ones. -/
  actions : ∀ i, ev.action? i = (Registration.last? g rs i).map (·.action)
  /-- Each item has the value of its tree. -/
  values : List.Forall₂ (HasValue g rs l.buffer) p.items ((c.contract g).frames.map Frame.tree)

namespace EvaluatesTrimmed

theorem step (hg : g.Loaded) (h : EvaluatesTrimmed g l rs c ev p) (hmove : Move g l c d) :
    (p.step g).1.isFinal = false ∧
      EvaluatesTrimmed g l rs d (onEvent (p.step g).1 ev (p.step g).2).1
        (onEvent (p.step g).1 ev (p.step g).2).2 := by
  by_cases hrenames : Parser.RenamesOn g c (c.lookahead g l)
  · -- the topmost item moves on, and keeps its value
    obtain ⟨item, items, state, r, hitems, hresult, hmoved, hr, htrees⟩ :=
      Parser.step_of_renamesOn hg h.position hmove hrenames
    have hvalues := h.values
    rw [hitems, ← htrees] at hvalues
    rw [hresult]
    refine ⟨rfl, hr, h.actions, ?_⟩
    change List.Forall₂ _ r.items _
    rw [hmoved]
    generalize (d.contract g).frames.map Frame.tree = trees at hvalues
    cases hvalues with
    | cons hfirst hrest => exact .cons ⟨hfirst.1, hfirst.2⟩ hrest
  · obtain ⟨htrim, hfollows⟩ := h.position.follows hg hmove hrenames
    obtain ⟨hfinal, hat, reduction, payload, hevent, hvalues⟩ :=
      values_of_follows (r := (p.step g).2) h.actions hfollows h.values rfl rfl rfl
    rw [hevent]
    have hr : Parser.TrimsAt g l d { (p.step g).2 with reduction } :=
      ⟨htrim, hat.setReduction reduction⟩
    exact ⟨hfinal, hr.setPayload payload, h.actions, hvalues⟩

/-- Where the automaton accepts, the result is the value of the tree on top without its
renamings. -/
theorem result_of_run (hg : g.Loaded) {n : Nat} (h : EvaluatesTrimmed g l rs c ev p)
    (hrun : c.run g l n = some (d, .accept)) :
    ∃ ev' q, p.runWith g onEvent n ev = some (.accept, ev', q) ∧
      ev'.result = d.frames.head?.bind fun f =>
        (f.tree.contract g).eval (Registration.computation? g rs) l.buffer := by
  induction n generalizing ev p c with
  | zero => cases hrun
  | succ n ih =>
    rw [Parser.runWith_succ]
    cases hstep : c.step g l with
    | ok next =>
      have hmove := Config.step_eq_ok.1 hstep
      rw [Config.run_succ_of_move hmove] at hrun
      obtain ⟨hfinal, hnext⟩ := h.step hg hmove
      rw [hfinal, if_neg Bool.false_ne_true]
      exact ih hnext hrun
    | error verdict =>
      rw [Config.run_succ_of_verdict hstep] at hrun
      cases hrun
      obtain ⟨r, haccept, -, hitems⟩ := h.position.accept hstep
      rw [haccept]
      refine ⟨_, _, if_pos rfl, (result_of_accept (hitems ▸ h.values)).trans ?_⟩
      rw [Config.contract, List.map_map, List.head?_map]
      cases d.frames.head? <;> rfl

end EvaluatesTrimmed

end Evaluator

/-! ### With and without trimming -/

namespace Parser

/-- What is accepted, with or without trimming, is accepted by the automaton. -/
theorem exists_run_of_load {trim : Bool} {lineTerminator : UInt8} {input : Buffer} {n : Nat}
    {r : Parser τ} (hg : g.Loaded)
    (h : ((Parser.new g trim lineTerminator).load g input).run g n = some (.accept, r)) :
    ∃ d, Config.run g (({ lineTerminator } : Lexer).load input) n {} = some (d, .accept) := by
  cases trim with
  | false => exact exists_run_of_accept h
  | true =>
    have hsame : SameWay ((Parser.new g false lineTerminator : Parser τ).load g input)
        ((Parser.new g true lineTerminator).load g input) := ⟨rfl, rfl, rfl, rfl, rfl, rfl⟩
    obtain ⟨r', hplain⟩ := hsame.run_of_accept hg h
    exact exists_run_of_accept hplain

/-- **Trimming contracts the tree, and keeps the value.**  An input that is accepted with or without
trimming is accepted with both.  The concrete tree that is built with trimming is the one that is
built without, after every node of a production that only renames a non-terminal has been replaced
by its only child.  If reductions take off their handles, no tokens are made of non-terminals and no
action is for a production that only renames, then actions compute the same result. -/
theorem trimming_contracts (hg : g.Loaded) (lineTerminator : UInt8) (input : Buffer) {trim : Bool}
    {n : Nat} {r : Parser τ}
    (haccept : ((Parser.new g trim lineTerminator).load g input).run g n = some (.accept, r)) :
    (∃ b q b' q',
      ((Parser.new g false lineTerminator).load g input).runWith g ConcreteBuilder.onEvent n {} =
        some (.accept, b, q) ∧
      ((Parser.new g true lineTerminator).load g input).runWith g ConcreteBuilder.onEvent n {} =
        some (.accept, b', q') ∧
      (b.root = none ∧ b'.root = none ∨ ∃ root root' t, b.root = some root ∧
        b.arena.Represents root t ∧ b'.root = some root' ∧
        b'.arena.Represents root' (t.contract g))) ∧
    (g.PopsHandles (({ lineTerminator } : Lexer).load input) → g.ScansTerminals →
      ∀ (α : Type) (rs : List (Registration α)), Registration.SkipUnits g rs → ∃ ev q ev' q',
        ((Parser.new g false lineTerminator).load g input).runWith g Evaluator.onEvent n
          (Evaluator.ofRegistrations g rs) = some (.accept, ev, q) ∧
        ((Parser.new g true lineTerminator).load g input).runWith g Evaluator.onEvent n
          (Evaluator.ofRegistrations g rs) = some (.accept, ev', q') ∧
        ev'.result = ev.result) := by
  obtain ⟨d, hrun⟩ := exists_run_of_load hg haccept
  refine ⟨?_, fun hpops hscans α rs hskip => ?_⟩
  · obtain ⟨b, q, hresult, -, -, hroot⟩ := ConcreteBuilder.root_of_accept hrun
    obtain ⟨b', q', hresult', hbuilds'⟩ := ConcreteBuilder.tracks.runWith_trimming hg
      ConcreteBuilder.ignoresStates_builds (fun _ _ => rfl) n (trimsAt_start g _)
      (s := ({} : ConcreteBuilder)) .nil hrun
    have hroot' := Arena.represents_topPayload hbuilds'
    refine ⟨b, q, _, q', hresult, hresult', ?_⟩
    cases hframes : d.frames with
    | nil =>
      rw [hframes] at hroot
      rw [Config.contract, hframes] at hroot'
      exact Or.inl ⟨hroot, hroot'⟩
    | cons f frames =>
      rw [hframes] at hroot
      rw [Config.contract, hframes] at hroot'
      obtain ⟨root, hroot, hrepresents⟩ := hroot
      obtain ⟨root', hroot', hrepresents'⟩ := hroot'
      exact Or.inr ⟨root, root', f.tree, hroot, hrepresents, hroot', hrepresents'⟩
  · have hactions := Evaluator.action?_ofRegistrations g rs
    have hstart : Evaluator.Evaluates g (({ lineTerminator } : Lexer).load input) rs {}
        (Evaluator.ofRegistrations g rs) ((Parser.new g false lineTerminator).load g input) :=
      ⟨at_start g _, hactions, .nil⟩
    have hstart' : Evaluator.EvaluatesTrimmed g (({ lineTerminator } : Lexer).load input) rs {}
        (Evaluator.ofRegistrations g rs) ((Parser.new g true lineTerminator).load g input) :=
      ⟨trimsAt_start g _, hactions, .nil⟩
    obtain ⟨ev, q, hresult, hvalue⟩ := hstart.result_of_run hrun
    obtain ⟨ev', q', hresult', hvalue'⟩ := hstart'.result_of_run hg hrun
    refine ⟨ev, q, ev', q', hresult, hresult', hvalue'.trans (Eq.trans ?_ hvalue.symm)⟩
    cases hframes : d.frames with
    | nil => rfl
    | cons f frames =>
      -- the tree on top is a derivation, and its leaves are tokens of the input
      have hsound := hpops.sound hg (Config.reaches_of_run hrun).1
      have hf : f ∈ d.frames := hframes ▸ List.mem_cons_self
      refine (Tree.eval_contract (hskip.computation?_eq_none) (hsound.derivation f hf) ?_).1
      intro token htoken
      have hshifted : token ∈ d.frames.reverse.flatMap (fun f => f.tree.leaves) :=
        List.mem_flatMap.2 ⟨f, List.mem_reverse.2 hf, htoken⟩
      rw [hsound.leaves] at hshifted
      obtain ⟨m, -, rfl⟩ := List.mem_map.1 hshifted
      exact hscans.of_mem_scanned hg.wellFormed
        (Lexer.tokenAt_mem (Lexer.opensGroups_load input) m)

set_option maxRecDepth 10000 in
/-- With and without trimming `1+2*3` is accepted, and the summands of it are swapped. -/
theorem trimming_contracts_sum :
    ∃ g, Grammar.ofBytes Sample.operators.toBytes = .ok g ∧ ∃ b q b' q' root root' t ev r ev' r',
      ((Parser.new g false 10).load g (.owned "1+2*3")).runWith g ConcreteBuilder.onEvent 40 {} =
        some (.accept, b, q) ∧
      ((Parser.new g true 10).load g (.owned "1+2*3")).runWith g ConcreteBuilder.onEvent 40 {} =
        some (.accept, b', q') ∧
      b.root = some root ∧ b.arena.Represents root t ∧
      b'.root = some root' ∧ b'.arena.Represents root' (t.contract g) ∧
      ((Parser.new g false 10).load g (.owned "1+2*3")).runWith g Evaluator.onEvent 40
        (Evaluator.ofRegistrations g Evaluator.swapSummands) = some (.accept, ev, r) ∧
      ((Parser.new g true 10).load g (.owned "1+2*3")).runWith g Evaluator.onEvent 40
        (Evaluator.ofRegistrations g Evaluator.swapSummands) = some (.accept, ev', r') ∧
      ev'.result = ev.result := by
  have hcheck : Grammar.loadsWith Sample.operators.toBytes (fun g => g.checkConsistent 13 &&
      decide g.ScansTerminals && decide (Registration.SkipUnits g Evaluator.swapSummands) &&
      (((Parser.new g true 10 : Parser Unit).load g (.owned "1+2*3")).run g 40).any
        (fun (event, _) => event == .accept) &&
      (((Parser.new g false 10).load g (.owned "1+2*3")).runWith g ConcreteBuilder.onEvent 40
        {}).any fun (_, b, _) => b.root.isSome) = true := by
    decide +kernel
  obtain ⟨g, hload, hg⟩ := Grammar.exists_of_loadsWith hcheck
  simp only [Bool.and_eq_true, Option.any_eq_true, decide_eq_true_eq, beq_iff_eq] at hg
  obtain ⟨⟨⟨⟨hcons, hscans⟩, hskip⟩, ⟨event, p⟩, hrun, rfl⟩, ⟨_, c, _⟩, hbuild, hsome⟩ := hg
  obtain ⟨⟨b, q, b', q', hb, hb', hroots⟩, hvalues⟩ :=
    trimming_contracts (.ofBytes hload) 10 (.owned "1+2*3") hrun
  obtain ⟨ev, r, ev', r', hev, hev', hsame⟩ := hvalues
    ((Grammar.consistent_of_check hcons).popsHandles (.ofBytes hload) _) hscans _ _ hskip
  cases hbuild.symm.trans hb
  rcases hroots with ⟨hnone, -⟩ | ⟨root, root', t, hroot, ht, hroot', ht'⟩
  · rw [hnone] at hsome
    cases hsome
  · exact ⟨g, hload, _, _, b', q', root, root', t, ev, r, ev', r', hb, hb', hroot, ht, hroot', ht',
      hev, hev', hsame⟩

end Parser

end CompiledGrammar
