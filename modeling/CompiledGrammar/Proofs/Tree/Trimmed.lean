import CompiledGrammar.Proofs.Lalr.Soundness
import CompiledGrammar.Proofs.Parser.Renaming
import CompiledGrammar.Proofs.Tree.Simplified

/-!
# Simplified trees of trimming parsers

The simplified builder makes the same tree of a parse that is trimmed and of one that is not, except
that renamings are gone before the tree is simplified and not in the course of it.  The two are not
always the same.  A renaming closes the list that it renames, so what was renamed is a member of the
list around it; without the renaming that list goes on with it instead.

* `SimplifiedBuilder.trimmed_of_accept` says what both builders have at their roots, and that it is
  the same if the table is consistent and the grammar keeps lists.
* `SimplifiedBuilder.trimmed_pairs` is a parse for which it is not.
-/

namespace CompiledGrammar

/-- The builder of concrete trees has no use for the states of items. -/
theorem ConcreteBuilder.ignoresStates_builds : IgnoresStates Builds := by
  intro b item items trees state h
  obtain ⟨t, ts, ht, hts, rfl⟩ := List.forall₂_cons_left_iff.1 h
  exact .cons ht hts

namespace SimplifiedBuilder

variable {g : Grammar} {b : SimplifiedBuilder}

theorem builds_start : Builds g {} [] [] :=
  ⟨[], .nil, rfl, nofun, List.nodup_nil, rfl, fun _ _ h => by cases h⟩

/-- The builder has no use for the states of items. -/
theorem ignoresStates_builds : IgnoresStates (Builds g) := by
  rintro b item items trees state ⟨es, hof, htrees, hholds⟩
  obtain ⟨e, es, he, hes, rfl⟩ := List.forall₂_cons_left_iff.1 hof
  exact ⟨e :: es, .cons ⟨he.payload, he.origin⟩ hes, htrees, hholds⟩

/-- What the topmost tree simplifies to is at the payload of the topmost item. -/
theorem represents_topPayload {p : Parser NodeId} {trees : List Tree}
    (h : Builds g b p.items trees) :
    match trees.head? with
    | some t => ∃ root, p.topPayload? = some root ∧ b.arena.Represents root (t.simplify g).tree
    | none => p.topPayload? = none := by
  obtain ⟨es, hof, rfl, hholds⟩ := h
  unfold Parser.topPayload? Parser.top?
  generalize p.items = items at hof
  cases hof with
  | nil => rfl
  | cons he _ => exact ⟨_, he.payload, hholds.represents _ List.mem_cons_self⟩

/-- **Simplified trees with and without trimming.**  When a parse with the concrete builder is
accepted, so is the same parse with the simplified builder, whether reductions are trimmed or not.
Without trimming the tree at its root is what the concrete tree simplifies to, and with trimming it
is what the concrete tree simplifies to without its renamings.  If the table is consistent and the
grammar keeps lists, both are the same. -/
theorem trimmed_of_accept {bytes : List UInt8} (hload : Grammar.ofBytes bytes = .ok g) {l : Lexer}
    {n : Nat} {c : ConcreteBuilder} {p : Parser NodeId}
    (h : (Parser.start g l false).runWith g ConcreteBuilder.onEvent n {} = some (.accept, c, p)) :
    ∃ b q b' q', (Parser.start g l false).runWith g (onEvent g) n {} = some (.accept, b, q) ∧
      (Parser.start g l true).runWith g (onEvent g) n {} = some (.accept, b', q') ∧
      (c.root = none ∧ b.root = none ∧ b'.root = none ∨
        ∃ root t node node', c.root = some root ∧ c.arena.Represents root t ∧
          b.root = some node ∧ b.arena.Represents node (t.simplify g).tree ∧
          b'.root = some node' ∧ b'.arena.Represents node' ((t.contract g).simplify g).tree ∧
          ∀ start, g.Consistent start → g.KeepsLists →
            b'.arena.Represents node' (t.simplify g).tree) := by
  have hg : g.Loaded := .ofBytes hload
  have hends := ConcreteBuilder.endsAs g l n
  rw [h] at hends
  obtain ⟨d, hrun⟩ := hends.exists_accept
  obtain ⟨hreaches, haccept⟩ := Config.reaches_of_run hrun
  -- the concrete builder, and the simplified one without and with trimming
  obtain ⟨c', p', hresult, -, -, hroot⟩ := ConcreteBuilder.root_of_accept hrun
  rw [h] at hresult
  cases hresult
  have hplain := (tracks hg).runWith n (Parser.at_start g l) builds_start
  rw [hrun] at hplain
  obtain ⟨b, q, hresult, hbuilds, -, -⟩ := hplain
  obtain ⟨b', q', hresult', hbuilds'⟩ := (tracks hg).runWith_trimming hg ignoresStates_builds
    (fun _ _ => rfl) n (Parser.trimsAt_start g l) builds_start hrun
  have htop := represents_topPayload hbuilds
  have htop' := represents_topPayload hbuilds'
  refine ⟨_, q, _, q', hresult, hresult', ?_⟩
  cases hframes : d.frames with
  | nil =>
    rw [hframes] at hroot
    rw [Config.contract, hframes] at htop'
    rw [hframes] at htop
    exact Or.inl ⟨hroot, htop, htop'⟩
  | cons f frames =>
    rw [hframes] at hroot
    rw [Config.contract, hframes] at htop'
    rw [hframes] at htop
    obtain ⟨root, hroot, hrepresents⟩ := hroot
    obtain ⟨node, hnode, hplain⟩ := htop
    obtain ⟨node', hnode', htrimmed⟩ := htop'
    refine Or.inr ⟨root, f.tree, node, node', hroot, hrepresents, hnode, hplain, hnode', htrimmed,
      fun start hcons hkeeps => ?_⟩
    -- the tree is a derivation, so nothing changes without its renamings
    obtain ⟨f', hsingle, hderivation, -, -⟩ :=
      (Config.sound_initial.reaches hg hcons hreaches).accept hcons haccept
    obtain ⟨rfl, -⟩ := List.cons.inj (hframes.symm.trans hsingle)
    rw [← tree_simplify_contract (Grammar.rulesInferred_of_ofBytes hload) hkeeps hderivation]
    exact htrimmed

set_option maxRecDepth 10000 in
/-- The grammar of arithmetic keeps lists: `1+2*3` has the same simplified tree with and without
trimming. -/
theorem trimmed_of_accept_sum :
    ∃ g, Grammar.ofBytes Sample.operators.toBytes = .ok g ∧ ∃ b q b' q' node node' t,
      (Parser.start g (({} : Lexer).load (.owned "1+2*3")) false).runWith g (onEvent g) 40 {} =
        some (.accept, b, q) ∧
      (Parser.start g (({} : Lexer).load (.owned "1+2*3")) true).runWith g (onEvent g) 40 {} =
        some (.accept, b', q') ∧
      b.root = some node ∧ b.arena.Represents node t ∧
      b'.root = some node' ∧ b'.arena.Represents node' t := by
  have hcheck : Grammar.loadsWith Sample.operators.toBytes (fun g => g.checkConsistent 13 &&
      g.checkKeepsLists (fun s => if s < 13 then 17 else s) &&
      ((Parser.start g (({} : Lexer).load (.owned "1+2*3")) false).runWith g
        ConcreteBuilder.onEvent 40 {}).any fun (event, c, _) =>
          event == .accept && c.root.isSome) = true := by
    decide +kernel
  obtain ⟨g, hload, hg⟩ := Grammar.exists_of_loadsWith hcheck
  simp only [Bool.and_eq_true, Option.any_eq_true, beq_iff_eq] at hg
  obtain ⟨⟨hcons, hkeeps⟩, ⟨event, c, p⟩, hresult, rfl, hsome⟩ := hg
  obtain ⟨b, q, b', q', hb, hb', hroots⟩ := trimmed_of_accept hload hresult
  rcases hroots with ⟨hnone, -, -⟩ | ⟨root, t, node, node', -, -, hnode, hplain, hnode', -, hsame⟩
  · rw [hnone] at hsome
    cases hsome
  · have htrimmed := hsame 13 (Grammar.consistent_of_check hcons)
      (Grammar.keepsLists_of_check hkeeps)
    exact ⟨g, hload, b, q, b', q', node, node', _, hb, hb', hnode, hplain, hnode', htrimmed⟩

set_option maxRecDepth 10000 in
/-- Trimming can change a simplified tree.  In `((a b) c)` the left part of the outer pair is a pair
itself.  Without trimming it is a member of the outer one; with trimming, the outer pair goes on
with it as if it were a list. -/
theorem trimmed_pairs :
    ∃ g, Grammar.ofBytes Sample.pairs.toBytes = .ok g ∧ g.Consistent 6 ∧
      ∃ b q b' q' node node', ∃ x y z : Token,
        (Parser.start g (({} : Lexer).load (.owned "((a b) c)")) false).runWith g (onEvent g) 40
          {} = some (.accept, b, q) ∧
        (Parser.start g (({} : Lexer).load (.owned "((a b) c)")) true).runWith g (onEvent g) 40
          {} = some (.accept, b', q') ∧
        b.root = some node ∧
        b.arena.Represents node (.node 0 [.node 0 [.leaf x, .leaf y], .leaf z]) ∧
        b'.root = some node' ∧
        b'.arena.Represents node' (.node 0 [.leaf x, .leaf y, .leaf z]) ∧
        ∀ t, b.arena.Represents node t → ¬ b'.arena.Represents node' t := by
  let x : Token := ⟨5, ⟨2, 3⟩, ⟨1, 3⟩⟩
  let y : Token := ⟨5, ⟨4, 5⟩, ⟨1, 5⟩⟩
  let z : Token := ⟨5, ⟨7, 8⟩, ⟨1, 8⟩⟩
  have hcheck : Grammar.loadsWith Sample.pairs.toBytes (fun g => g.checkConsistent 6 &&
      (((Parser.start g (({} : Lexer).load (.owned "((a b) c)")) false).runWith g (onEvent g) 40
        {}).any fun (event, b, _) => event == .accept && b.root == some 8 &&
          [(8, Node.nonterm 0 [5, 6]), (5, .nonterm 0 [2, 3]), (2, .term x), (3, .term y),
            (6, .term z)].all fun (i, n) => b.arena.node? i == some n) &&
      ((Parser.start g (({} : Lexer).load (.owned "((a b) c)")) true).runWith g (onEvent g) 40
        {}).any fun (event, b, _) => event == .accept && b.root == some 5 &&
          [(5, Node.nonterm 0 [2, 3, 6]), (2, .term x), (3, .term y),
            (6, .term z)].all fun (i, n) => b.arena.node? i == some n) = true := by
    decide +kernel
  obtain ⟨g, hload, hg⟩ := Grammar.exists_of_loadsWith hcheck
  simp only [Bool.and_eq_true, Option.any_eq_true, beq_iff_eq, List.all_cons, List.all_nil,
    Bool.and_true] at hg
  obtain ⟨⟨hcons, ⟨event, b, q⟩, hresult, ⟨rfl, hroot⟩, hpair, hinner, ha, hb, hc⟩,
    ⟨event', b', q'⟩, hresult', ⟨rfl, hroot'⟩, hflat, ha', hb', hc'⟩ := hg
  have hplain : b.arena.Represents 8 (.node 0 [.node 0 [.leaf x, .leaf y], .leaf z]) := by
    simp [hpair, hinner, ha, hb, hc]
  have htrimmed : b'.arena.Represents 5 (.node 0 [.leaf x, .leaf y, .leaf z]) := by
    simp [hflat, ha', hb', hc']
  refine ⟨g, hload, Grammar.consistent_of_check hcons, b, q, b', q', 8, 5, x, y, z, hresult,
    hresult', hroot, hplain, hroot', htrimmed, fun t ht ht' => ?_⟩
  cases (hplain.unique ht).trans (htrimmed.unique ht').symm

end SimplifiedBuilder

end CompiledGrammar
