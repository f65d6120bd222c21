import CompiledGrammar.Proofs.Lalr.Completeness
import CompiledGrammar.Proofs.Lalr.Termination

/-!
# Parsing as a decision procedure

A table that is consistent, whose item sets are valid and that can be ranked decides the language of
its grammar (`Parser.decides`): the parse of an input comes to a verdict, it accepts exactly the
sentences of the grammar, and what it builds of a sentence is its only derivation.

A `Certificate` has all that shows it for a table, and is checked at once (`Certificate.check`).
-/

namespace CompiledGrammar

/-- What shows that a table decides the language of its grammar. -/
structure Certificate where
  /-- The item sets of the states. -/
  items : ItemSets
  /-- The ranks of the states. -/
  ranking : Ranking

/-- The certificate holds for a grammar. -/
def Certificate.check (c : Certificate) (g : Grammar) (start : SymbolIdx) : Bool :=
  g.hasKind g.eofSymbol .endOfFile && g.checkConsistent start && c.items.check g start &&
    c.ranking.check g

/-- The tokens are all right, and can be derived from the start symbol. -/
def Grammar.Accepted (g : Grammar) (start : SymbolIdx) (tokens : List Token) : Prop :=
  (∀ t ∈ tokens, g.hasKind t.symbol .error = false) ∧ g.Sentence start tokens

/-- The tree is a derivation of the tokens from the start symbol. -/
structure Tree.Derives (g : Grammar) (start : SymbolIdx) (tokens : List Token) (t : Tree) :
    Prop where
  /-- Every node is an application of its production. -/
  derivation : t.IsDerivation g
  /-- The start symbol is at the root. -/
  symbol : t.symbol? g = some start
  /-- The tokens are at the leaves. -/
  leaves : t.leaves = tokens

/-- A parse that has come to an end after at most `n` steps with an event decides whether the tokens
before the end of the input, which is token `k`, are a sentence. -/
structure Parser.Decides (g : Grammar) (start : SymbolIdx) (l : Lexer) (k n : Nat) (event : Event)
    (p : Parser NodeId) : Prop where
  /-- The parse comes to an end. -/
  run : (Parser.start g l false).run g n = some (event, p)
  /-- It accepts, or fails for a reason that lies in the input. -/
  verdict : event = .accept ∨ event = .error ∧ ∃ e, p.error = some e ∧ e.fault ≠ .internal
  /-- It accepts the sentences of the grammar. -/
  accept_iff : event = .accept ↔ g.Accepted start (l.tokens g k)
  /-- What the concrete builder makes of a sentence is its only derivation. -/
  tree : event = .accept → ∃ b q root t,
    (Parser.start g l false).runWith g ConcreteBuilder.onEvent n {} = some (.accept, b, q) ∧
      b.root = some root ∧ b.arena.Represents root t ∧
      t.Derives g start (l.tokens g k) ∧ ∀ u : Tree, u.Derives g start (l.tokens g k) → u = t

variable {g : Grammar} {l : Lexer} {start : SymbolIdx}

/-- Tokens without an error are as an input yields them. -/
theorem yields_tokens (hterminal : ∀ n, g.hasKind (l.tokenAt g n).symbol .nonTerminal = false)
    {k : Nat} (h : ∀ t ∈ l.tokens g k, g.hasKind t.symbol .error = false) :
    Yields g l 0 (l.tokens g k) := by
  induction k with
  | zero => trivial
  | succ k ih =>
    rw [Lexer.tokens_succ] at h ⊢
    rw [yields_append, Lexer.length_tokens, Nat.zero_add]
    refine ⟨ih fun t ht => h t (List.mem_append_left _ ht), rfl, ?_, hterminal k, trivial⟩
    exact h _ (List.mem_append_right _ (List.mem_singleton_self _))

/-- No token that has been shifted is an error. -/
theorem Config.error_eq_false_of_reaches {d : Config} (h : Reaches g l {} d) :
    ∀ t ∈ l.tokens g d.shifted, g.hasKind t.symbol .error = false := by
  induction h with
  | refl => exact nofun
  | tail _ hmove ih =>
    cases hmove with
    | reduce _ _ _ _ _ => exact ih
    | shift herror _ =>
      intro t ht
      rw [Lexer.tokens_succ] at ht
      rcases List.mem_append.1 ht with ht | ht
      · exact ih t ht
      · rw [List.mem_singleton.1 ht]
        exact herror

/-- **Parsing decides the language of a grammar**, given a certificate for its table. -/
theorem Parser.decides (hg : g.Loaded) {c : Certificate} (hc : c.check g start = true)
    (hl : l.OpensGroups g) :
    ∃ k n event p, l.EndsAt g k ∧ Decides g start l k n event p := by
  simp only [Certificate.check, Bool.and_eq_true] at hc
  obtain ⟨⟨⟨heof, hconsistent⟩, hitems⟩, hranking⟩ := hc
  have hcons := Grammar.consistent_of_check hconsistent
  have hvalid := ItemSets.valid_of_check hitems
  have hscanned := fun n => Lexer.tokenAt_mem hl n
  obtain ⟨k, hend⟩ := Lexer.exists_endsAt heof l
  obtain ⟨n, d, v, hrun, hv, hshifted⟩ := (Ranking.valid_of_check hranking).exists_run hg hscanned
    hend .nil (Nat.zero_le _) (c := {})
  obtain ⟨hreaches, hverdict⟩ := Config.reaches_of_run hrun
  -- every derivation is the one that the run ends with
  have hunique : (∀ t ∈ l.tokens g k, g.hasKind t.symbol .error = false) → ∀ u : Tree,
      u.Derives g start (l.tokens g k) → v = .accept ∧ ∃ q, d.frames = [⟨q, u⟩] := by
    intro herror u hu
    obtain ⟨q, hreaches', haccept⟩ := hvalid.accepts hg hend (hscanned k)
      (yields_tokens (fun n => hvalid.token_terminal (hscanned n)) herror) hu.derivation hu.symbol
      hu.leaves
    obtain ⟨rfl, rfl⟩ := Config.run_eq_of_reaches hrun hreaches' haccept
    exact ⟨rfl, q, rfl⟩
  cases v with
  | fail fault =>
    -- a sentence would have been accepted
    obtain ⟨p, hp, herror⟩ := Parser.run_of_fail (τ := NodeId) hrun
    refine ⟨k, n, .error, p, hend, hp, Or.inr ⟨rfl, _, herror, ?_⟩, ?_, nofun⟩
    · rintro rfl
      exact hv rfl
    · refine ⟨nofun, ?_⟩
      rintro ⟨herror, u, hderivation, hsymbol, hleaves⟩
      have haccept := (hunique herror u ⟨hderivation, hsymbol, hleaves⟩).1
      cases haccept
  | accept =>
    -- what has been built is a derivation of all tokens before the end
    obtain rfl := hshifted rfl
    obtain ⟨p, hp⟩ := Parser.run_of_accept (τ := NodeId) hrun
    obtain ⟨f, hframes, hderivation, hsymbol, hleaves⟩ :=
      (Config.sound_initial.reaches hg hcons hreaches).accept hcons hverdict
    have herror := Config.error_eq_false_of_reaches hreaches
    have hsentence : g.Accepted start (l.tokens g d.shifted) :=
      ⟨herror, f.tree, hderivation, hsymbol, hleaves⟩
    refine ⟨d.shifted, n, .accept, p, hend, hp, Or.inl rfl, iff_of_true rfl hsentence, ?_⟩
    intro _
    obtain ⟨b, q, hresult, -, -, hroot⟩ := ConcreteBuilder.root_of_accept hrun
    rw [hframes] at hroot
    obtain ⟨root, hroot, hrepresents⟩ := hroot
    refine ⟨b, q, root, f.tree, hresult, hroot, hrepresents, ⟨hderivation, hsymbol, hleaves⟩, ?_⟩
    intro u hu
    obtain ⟨-, q, hframes'⟩ := hunique herror u hu
    rw [hframes] at hframes'
    cases hframes'
    rfl

end CompiledGrammar
