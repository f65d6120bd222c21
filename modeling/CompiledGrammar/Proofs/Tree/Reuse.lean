import CompiledGrammar.Proofs.Lexer.Scan
import CompiledGrammar.Proofs.Tree.Copy
import CompiledGrammar.Proofs.Tree.Trimmed

/-!
# Using a parser and its builder again

A parser may be stopped anywhere and be given another input, or the same one from its beginning,
while the builder that watches it goes on as it is, with all that it has built before.

* For the parser this is a new start: a step does nothing that `Parser.reset` does not undo
  (`Parser.reset_step`), so the parser is equal to a new one.
* The builder keeps its nodes and, if it is a simplified one, its open lists.  What it builds from
  there on is a copy of what a new one builds (`TreeBuilder.GoesOn`), and a parser does not look at
  nodes, so both are told of the same steps and build the same tree (`TreeBuilder.reusable`).
-/

namespace CompiledGrammar

variable {σ τ : Type} {g : Grammar}

/-! ### Starting again -/

namespace Parser

theorem reset_look (p : Parser τ) : (p.look g).2.reset g = p.reset g := by
  unfold look
  split
  · rfl
  · exact congrArg (start g · p.trim) Lexer.reset_readToken

theorem reset_act (p : Parser τ) (token : Token) : (p.act g token).2.reset g = p.reset g := by
  unfold act reduce rename replace
  dsimp only
  (repeat' split) <;> rfl

/-- A step does nothing that a reset does not undo. -/
theorem reset_step (p : Parser τ) : (p.step g).2.reset g = p.reset g := by
  rw [step_eq, reset_act, reset_look]

theorem reset_setPayload (p : Parser τ) (payload : Option τ) :
    (p.setPayload payload).reset g = p.reset g := by
  unfold setPayload
  split <;> rfl

theorem reset_stepWith {handler : Handler σ τ} (h : handler.Attaches) (s : σ) (p : Parser τ) :
    (p.stepWith g handler s).2.2.reset g = p.reset g := by
  have hstep := reset_step (g := g) p
  unfold stepWith
  dsimp only
  rcases h (p.step g).1 s (p.step g).2 with heq | ⟨payload, heq⟩
  · rw [heq, hstep]
  · rw [heq, reset_setPayload, hstep]

end Parser

/-! ### Builders and what is done with them -/

/-- A builder of trees. -/
structure TreeBuilder (σ : Type) where
  /-- A new one. -/
  initial : σ
  /-- What it does after a step of the parser. -/
  onEvent : Handler σ NodeId
  /-- Its nodes. -/
  arena : σ → Arena
  /-- The root of the tree that was built last. -/
  root : σ → Option NodeId

/-- The builder of concrete trees. -/
def TreeBuilder.concrete : TreeBuilder ConcreteBuilder :=
  ⟨{}, ConcreteBuilder.onEvent, ConcreteBuilder.arena, ConcreteBuilder.root⟩

/-- The builder of simplified trees. -/
def TreeBuilder.simplified (g : Grammar) : TreeBuilder SimplifiedBuilder :=
  ⟨{}, SimplifiedBuilder.onEvent g, SimplifiedBuilder.arena, SimplifiedBuilder.root⟩

/-- Something that is done with a parser and the builder that watches it. -/
inductive Use where
  /-- Give it an input. -/
  | load (input : Buffer)
  /-- Go back to the beginning of the input. -/
  | reset
  /-- Take a step. -/
  | step
deriving DecidableEq, Repr

/-- Two arenas have the same tree at their roots, wherever its nodes are, or neither has a root. -/
def Arena.SameTree (a : Arena) (root : Option NodeId) (a' : Arena) (root' : Option NodeId) : Prop :=
  root = none ∧ root' = none ∨
    ∃ id id' t, root = some id ∧ root' = some id' ∧ a.Represents id t ∧ a'.Represents id' t

namespace TreeBuilder

variable (g) (B : TreeBuilder σ)

/-- Do something with a parser and a builder. -/
def use (used : σ × Parser NodeId) : Use → σ × Parser NodeId
  | .load input => (used.1, used.2.load g input)
  | .reset => (used.1, used.2.reset g)
  | .step => (used.2.stepWith g B.onEvent used.1).2

/-- Do one thing after the other, with a new parser and a new builder. -/
def session (trim : Bool) (lineTerminator : UInt8) (uses : List Use) : σ × Parser NodeId :=
  uses.foldl (B.use g) (B.initial, Parser.new g trim lineTerminator)

/-- Whatever has been done with a parser and a builder, once the parser has been given an input or
has gone back to the beginning of the one that it has, both do as new ones do: the parser takes the
same steps and goes through the same states as a new one, and if the input is accepted, the builder
has built the same tree as a new one. -/
def Reusable : Prop :=
  ∀ (trim : Bool) (lineTerminator : UInt8) (uses : List Use) (restart : Use), restart ≠ .step →
    let used := B.use g (B.session g trim lineTerminator uses) restart
    let new : Parser NodeId := (Parser.new g trim lineTerminator).load g used.2.input
    ∀ n,
      used.2.told g B.onEvent n used.1 = (new.steps g n).map (fun step => (step.1, step.2.state)) ∧
      ∀ b q, used.2.runWith g B.onEvent n used.1 = some (.accept, b, q) →
        ∃ b' q', new.runWith g B.onEvent n B.initial = some (.accept, b', q') ∧
          Arena.SameTree (B.arena b) (B.root b) (B.arena b') (B.root b')

/-! ### Going on -/

/-- A builder that goes on in a used arena as a new one does in an empty arena.  `Sound` is what is
true of it whatever has been done with it, `Copied` relates one that has been used before to a new
one, and `Builds` relates it to the trees of the automaton. -/
structure GoesOn (Sound : σ → Prop) (Copied : Nat → σ → σ → Prop)
    (Builds : σ → List (Item NodeId) → List Tree → Prop) : Prop where
  attaches : B.onEvent.Attaches
  /-- The root is the node of the topmost item when the input is accepted. -/
  root_accept : ∀ b p, B.root (B.onEvent .accept b p).1 = p.topPayload?
  arena_accept : ∀ b p, B.arena (B.onEvent .accept b p).1 = B.arena b
  sound_initial : Sound B.initial
  sound_onEvent : ∀ event b p, Sound b → Sound (B.onEvent event b p).1
  /-- A new builder is copied behind all nodes that there are. -/
  copied_initial : ∀ b, Sound b → Copied (B.arena b).size B.initial b
  copied_onEvent : ∀ k b b' event p, Copied k b b' →
    Copied k (B.onEvent event b p).1 (B.onEvent event b' (p.further k)).1 ∧
      (B.onEvent event b' (p.further k)).2 = (B.onEvent event b p).2.further k
  copied_arena : ∀ k b b', Copied k b b' → Arena.CopiedAt k (B.arena b) (B.arena b')
  builds_initial : Builds B.initial [] []
  builds_onEvent : Tracks g B.onEvent Builds
  builds_rename : IgnoresStates Builds
  onEvent_rename : ∀ b p, B.onEvent .reduceEliminated b p = (b, p)
  /-- The node of the topmost item holds a tree. -/
  represents_top : ∀ b (p : Parser NodeId) trees, Builds b p.items trees →
    p.topPayload? = none ∨ ∃ id t, p.topPayload? = some id ∧ (B.arena b).Represents id t

namespace GoesOn

variable {g} {B} {Sound : σ → Prop} {Copied : Nat → σ → σ → Prop}
  {Builds : σ → List (Item NodeId) → List Tree → Prop}

/-- Whatever is done, the builder stays sound, and a reset makes the parser a new one. -/
theorem session (h : B.GoesOn g Sound Copied Builds) (trim : Bool) (lineTerminator : UInt8)
    (uses : List Use) :
    Sound (B.session g trim lineTerminator uses).1 ∧ ∃ input,
      (B.session g trim lineTerminator uses).2.reset g =
        (Parser.new g trim lineTerminator).load g input := by
  -- by induction on what is done, from the end
  induction uses using List.reverseRecOn with
  | nil => exact ⟨h.sound_initial, .empty, rfl⟩
  | append_singleton uses use ih =>
    obtain ⟨hsound, input, hreset⟩ := ih
    unfold TreeBuilder.session at hsound hreset ⊢
    rw [List.foldl_append]
    generalize uses.foldl (B.use g) _ = used at hsound hreset
    cases use with
    | load other =>
      have hload := congrArg (Parser.load g · other) hreset
      exact ⟨hsound, other, hload⟩
    | reset =>
      have htwice := congrArg (Parser.reset g) hreset
      exact ⟨hsound, input, htwice⟩
    | step =>
      have hstep := Parser.reset_stepWith (g := g) h.attaches used.1 used.2
      exact ⟨h.sound_onEvent _ _ _ hsound, input, hstep.trans hreset⟩

/-- Once it has been given an input or has gone back to its beginning, the parser is a new one. -/
theorem restart (h : B.GoesOn g Sound Copied Builds) (trim : Bool) (lineTerminator : UInt8)
    (uses : List Use) {restart : Use} (hrestart : restart ≠ .step) {used : σ × Parser NodeId}
    (hused : B.use g (B.session g trim lineTerminator uses) restart = used) :
    Sound used.1 ∧ used.2 = (Parser.new g trim lineTerminator).load g used.2.input := by
  obtain ⟨hsound, input, hreset⟩ := h.session trim lineTerminator uses
  subst hused
  cases restart with
  | load other =>
    have hload := congrArg (Parser.load g · other) hreset
    exact ⟨hsound, hload⟩
  | reset =>
    refine ⟨hsound, ?_⟩
    change Parser.reset g _ = Parser.load g _ (Parser.reset g _).input
    rw [hreset]
    rfl
  | step => exact absurd rfl hrestart

/-- A builder that has been used before goes through a run as a new one does. -/
theorem runWith_further (h : B.GoesOn g Sound Copied Builds) {k n : Nat} {b b' c' : σ}
    {p q' : Parser NodeId} {event : Event} (hcopied : Copied k b b')
    (hrun : (p.further k).runWith g B.onEvent n b' = some (event, c', q')) :
    ∃ c d q, p.runWith g B.onEvent n b = some (event, B.onEvent event c q) ∧
      Copied k c d ∧ (c', q') = B.onEvent event d (q.further k) := by
  -- by induction on the number of steps, in which both parsers do the same
  induction n generalizing p b b' with
  | zero => cases hrun
  | succ n ih =>
    have hstep : (p.further k).step g = ((p.step g).1, (p.step g).2.further k) :=
      Parser.step_mapPayload rfl p
    rw [Parser.runWith_succ, hstep] at hrun
    rw [Parser.runWith_succ]
    dsimp only at hrun
    by_cases hfinal : (p.step g).1.isFinal = true
    · rw [if_pos hfinal] at hrun ⊢
      obtain ⟨rfl, hlast⟩ := Prod.mk.inj (Option.some.inj hrun)
      exact ⟨b, b', (p.step g).2, rfl, hcopied, hlast.symm⟩
    · rw [if_neg hfinal] at hrun ⊢
      obtain ⟨hnext, hparser⟩ := h.copied_onEvent k b b' (p.step g).1 (p.step g).2 hcopied
      rw [hparser] at hrun
      exact ih hnext hrun

/-! ### Trees of new builders -/

theorem represents_root (h : B.GoesOn g Sound Copied Builds) {b c : σ} {p q : Parser NodeId}
    {trees : List Tree} (hbuilds : Builds b p.items trees)
    (haccept : (c, q) = B.onEvent .accept b p) :
    B.root c = none ∨ ∃ id t, B.root c = some id ∧ (B.arena c).Represents id t := by
  have hroot := h.root_accept b p
  have harena := h.arena_accept b p
  rw [← haccept] at hroot harena
  rw [hroot, harena]
  exact h.represents_top b p trees hbuilds

/-- What the parser accepts is accepted by the automaton, whether reductions are trimmed or not. -/
theorem exists_run_of_accept (h : B.GoesOn g Sound Copied Builds) (hg : g.Loaded) {l : Lexer}
    {trim : Bool} {n : Nat} {b c : σ} {q : Parser NodeId}
    (hrun : (Parser.start g l trim).runWith g B.onEvent n b = some (.accept, c, q)) :
    ∃ d, Config.run g l n {} = some (d, .accept) := by
  have herase := Parser.erase_runWith (g := g) h.attaches n b (Parser.start g l trim)
  rw [hrun] at herase
  cases trim with
  | false => exact Parser.exists_run_of_accept herase.symm
  | true =>
    have hway : Parser.SameWay (Parser.start g l false : Parser Unit) (Parser.start g l true) :=
      ⟨rfl, rfl, rfl, rfl, rfl, rfl⟩
    obtain ⟨r, hplain⟩ := hway.run_of_accept hg herase.symm
    exact Parser.exists_run_of_accept hplain

/-- A new builder has a tree at its root once the input is accepted, unless it has no root. -/
theorem exists_tree (h : B.GoesOn g Sound Copied Builds) (hg : g.Loaded) {l : Lexer} {trim : Bool}
    {n : Nat} {b : σ} {q : Parser NodeId}
    (hrun : (Parser.start g l trim).runWith g B.onEvent n B.initial = some (.accept, b, q)) :
    B.root b = none ∨ ∃ id t, B.root b = some id ∧ (B.arena b).Represents id t := by
  obtain ⟨d, hd⟩ := h.exists_run_of_accept hg hrun
  cases trim with
  | false =>
    have hends := h.builds_onEvent.runWith n (Parser.at_start g l) h.builds_initial
    rw [hd] at hends
    obtain ⟨c, p, hresult, hbuilds, -, -⟩ := hends
    rw [hrun] at hresult
    exact h.represents_root hbuilds (Prod.mk.inj (Option.some.inj hresult)).2
  | true =>
    obtain ⟨c, p, hresult, hbuilds⟩ := h.builds_onEvent.runWith_trimming hg h.builds_rename
      h.onEvent_rename n (Parser.trimsAt_start g l) h.builds_initial hd
    rw [hrun] at hresult
    exact h.represents_root hbuilds (Prod.mk.inj (Option.some.inj hresult)).2

/-- A builder that goes on in a used arena as in an empty one can be used again. -/
theorem use_again (h : B.GoesOn g Sound Copied Builds) (hg : g.Loaded) : B.Reusable g := by
  intro trim lineTerminator uses restart hrestart
  generalize hused : B.use g (B.session g trim lineTerminator uses) restart = used
  obtain ⟨hsound, hnew⟩ := h.restart trim lineTerminator uses hrestart hused
  obtain ⟨b, p⟩ := used
  dsimp only at hsound hnew ⊢
  rw [← hnew]
  refine fun n => ⟨Parser.told_eq_steps h.attaches n b p, fun c' q' hrun => ?_⟩
  -- a new parser has no nodes, so it is itself with its nodes further on
  have hfurther : p = p.further (B.arena b).size := by
    rw [hnew]
    rfl
  rw [hfurther] at hrun
  obtain ⟨c, d, q, hfresh, hcopied, haccept⟩ :=
    h.runWith_further (h.copied_initial b hsound) hrun
  refine ⟨_, _, hfresh, ?_⟩
  -- the roots are the nodes of the topmost items, one of which is a copy of the other
  have hroot := h.root_accept c q
  have hroot' := h.root_accept d (q.further (B.arena b).size)
  have hcopy := h.copied_arena _ _ _ (h.copied_onEvent _ _ _ .accept q hcopied).1
  rw [← haccept, Parser.topPayload?_further, ← hroot] at hroot'
  rw [← haccept] at hcopy
  rw [hnew] at hfresh
  rcases h.exists_tree hg hfresh with hnone | ⟨id, t, hsome, ht⟩
  · rw [hnone] at hroot'
    exact Or.inl ⟨hroot', hnone⟩
  · rw [hsome] at hroot'
    exact Or.inr ⟨_, id, t, hroot', hsome, hcopy.represents_iff.2 ht, ht⟩

end GoesOn

end TreeBuilder

/-! ### Both builders -/

theorem Arena.allocShifted_attaches (a : Arena) (p : Parser NodeId) :
    (a.allocShifted p).2 = p ∨ ∃ payload, (a.allocShifted p).2 = p.setPayload payload := by
  unfold allocShifted
  split
  · exact Or.inr ⟨_, rfl⟩
  · exact Or.inl rfl

namespace ConcreteBuilder

theorem attaches : Handler.Attaches onEvent := by
  intro event b p
  cases event with
  | shift => exact Arena.allocShifted_attaches b.arena p
  | reduce =>
    simp only [onEvent]
    cases p.reduction with
    | none => exact Or.inl rfl
    | some r => exact Or.inr ⟨_, rfl⟩
  | accept => exact Or.inl rfl
  | reduceEliminated => exact Or.inl rfl
  | error => exact Or.inl rfl

theorem goesOn (g : Grammar) :
    TreeBuilder.concrete.GoesOn g (fun _ => True) CopiedAt Builds where
  attaches := attaches
  root_accept _ _ := rfl
  arena_accept _ _ := rfl
  sound_initial := trivial
  sound_onEvent _ _ _ _ := trivial
  copied_initial b _ := Arena.copiedAt_empty b.arena
  copied_onEvent _ _ _ event p h := h.onEvent event p
  copied_arena _ _ _ h := h
  builds_initial := .nil
  builds_onEvent := tracks
  builds_rename := ignoresStates_builds
  onEvent_rename _ _ := rfl
  represents_top b p trees h := by
    have htop := Arena.represents_topPayload h
    cases hhead : trees.head? with
    | none =>
      rw [hhead] at htop
      exact Or.inl htop
    | some t =>
      rw [hhead] at htop
      obtain ⟨id, hid, ht⟩ := htop
      exact Or.inr ⟨id, t, hid, ht⟩

end ConcreteBuilder

namespace SimplifiedBuilder

variable {g : Grammar}

theorem attaches : Handler.Attaches (onEvent g) := by
  intro event b p
  cases event with
  | shift => exact Arena.allocShifted_attaches b.arena p
  | reduce =>
    simp only [onEvent]
    cases p.reduction with
    | none => exact Or.inl rfl
    | some r =>
      dsimp only
      cases g.productions[r.production]? with
      | none => exact Or.inl rfl
      | some production => exact Or.inr ⟨_, rfl⟩
  | accept => exact Or.inl rfl
  | reduceEliminated => exact Or.inl rfl
  | error => exact Or.inl rfl

theorem goesOn (hg : g.Loaded) :
    (TreeBuilder.simplified g).GoesOn g ListsAreNodes CopiedAt (Builds g) where
  attaches := attaches
  root_accept _ _ := rfl
  arena_accept _ _ := rfl
  sound_initial := nofun
  sound_onEvent event _ p h := h.onEvent event p
  copied_initial _ h := h.copiedAt
  copied_onEvent _ _ _ event p h := h.onEvent event p
  copied_arena _ _ _ h := h.arena
  builds_initial := builds_start
  builds_onEvent := tracks hg
  builds_rename := ignoresStates_builds
  onEvent_rename _ _ := rfl
  represents_top b p trees h := by
    have htop := represents_topPayload h
    cases hhead : trees.head? with
    | none =>
      rw [hhead] at htop
      exact Or.inl htop
    | some t =>
      rw [hhead] at htop
      obtain ⟨id, hid, ht⟩ := htop
      exact Or.inr ⟨id, _, hid, ht⟩

end SimplifiedBuilder

/-- **A parser and its builder can be used again.**  Whatever has been done with them before, and
wherever they were stopped, a builder of concrete trees and one of simplified trees do as new ones
do once the parser starts again. -/
theorem TreeBuilder.reusable (hg : g.Loaded) :
    TreeBuilder.concrete.Reusable g ∧ (TreeBuilder.simplified g).Reusable g :=
  ⟨(ConcreteBuilder.goesOn g).use_again hg, (SimplifiedBuilder.goesOn hg).use_again hg⟩

set_option maxRecDepth 10000 in
/-- A parse of the sample grammar of comments that is stopped inside a comment, with a list still
open.  From there the parser and the builder of simplified trees parse `a b` as new ones do: the
tree is the same, and only its nodes are further on. -/
theorem TreeBuilder.reusable_comments :
    ∃ g, Grammar.ofBytes Sample.comments.toBytes = .ok g ∧ ∃ used b q b' q' t,
      (TreeBuilder.simplified g).session g false 10
        (.load (.owned "a b /* c") :: List.replicate 5 .step) = used ∧
      used.1.openLists = [2] ∧ used.2.lexer.groups.length = 1 ∧
      (used.2.load g (.owned "a b")).runWith g (SimplifiedBuilder.onEvent g) 10 used.1 =
        some (.accept, b, q) ∧
      ((Parser.new g false 10).load g (.owned "a b")).runWith g (SimplifiedBuilder.onEvent g) 10
        {} = some (.accept, b', q') ∧
      b.root = some 6 ∧ b.arena.Represents 6 t ∧ b'.root = some 2 ∧ b'.arena.Represents 2 t := by
  have hcheck : Grammar.loadsWith Sample.comments.toBytes (fun g =>
      let used := (TreeBuilder.simplified g).session g false 10
        (.load (.owned "a b /* c") :: List.replicate 5 .step)
      used.1.openLists == [2] && used.2.lexer.groups.length == 1 &&
      (((used.2.load g (.owned "a b")).runWith g (SimplifiedBuilder.onEvent g) 10 used.1).any
        fun (event, b, _) => event == .accept && b.root == some 6) &&
      (((Parser.new g false 10).load g (.owned "a b")).runWith g (SimplifiedBuilder.onEvent g) 10
        {}).any fun (event, b, _) => event == .accept && b.root == some 2) = true := by
    decide +kernel
  obtain ⟨g, hload, hg⟩ := Grammar.exists_of_loadsWith hcheck
  obtain ⟨used, hused⟩ : ∃ used, (TreeBuilder.simplified g).session g false 10
    (.load (.owned "a b /* c") :: List.replicate 5 .step) = used := ⟨_, rfl⟩
  simp only [hused, Bool.and_eq_true, Option.any_eq_true, beq_iff_eq] at hg
  obtain ⟨⟨⟨hlists, hgroups⟩, ⟨event, b, q⟩, hrun, rfl, hroot⟩, ⟨event', b', q'⟩, hrun', rfl,
    hroot'⟩ := hg
  have hreusable := (TreeBuilder.reusable (.ofBytes hload)).2 false 10
    (.load (.owned "a b /* c") :: List.replicate 5 .step) (.load (.owned "a b")) nofun 10
  rw [hused] at hreusable
  obtain ⟨c, r, hnew, hsame⟩ := hreusable.2 b q hrun
  cases hnew.symm.trans hrun'
  rcases hsame with ⟨hnone, -⟩ | ⟨id, id', t, hid, hid', ht, ht'⟩
  · cases hnone.symm.trans hroot
  · cases hid.symm.trans hroot
    cases hid'.symm.trans hroot'
    exact ⟨g, hload, used, b, q, b', q', t, hused, hlists, hgroups, hrun, hrun', hroot, ht, hroot',
      ht'⟩

end CompiledGrammar
