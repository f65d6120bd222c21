import CompiledGrammar.Proofs.Lalr.Soundness

/-!
# Termination of parsing

Between two shifts the automaton only reduces, and a table may reduce forever.  A `Ranking` shows
that a table does not: it gives every state a rank such that each reduction lessens the cost of the
stack, which is the rank of its topmost state and a fixed cost for each frame (`Config.cost`).

A valid ranking also excludes internal errors: every reduction finds as many frames as its
production has handles, and a state to go to from below them.  So parsing comes to a verdict on
every input, and it is never an internal error (`Ranking.Valid.exists_run`).
-/

namespace CompiledGrammar

/-- Ranks of the states of a table. -/
structure Ranking where
  /-- The rank of a state. -/
  rank : LalrStateIdx → Nat
  /-- What each frame costs. -/
  frame : Nat

variable {g : Grammar} {l : Lexer} {c d : Config} {r : Ranking}

/-- What is left to reduce. -/
def Config.cost (r : Ranking) (g : Grammar) (c : Config) : Nat :=
  r.frame * c.frames.length + r.rank (c.state g)

namespace Ranking

/-- The ranking shows that the table comes to a verdict on every input. -/
structure Valid (r : Ranking) (g : Grammar) : Prop where
  /-- Reductions are of productions. -/
  production : ∀ {q : LalrStateIdx} {s : SymbolIdx} {i : ProductionIdx},
    g.action? q s = some (.reduce i) → ∃ p, g.productions[i]? = some p
  /-- A state is not reached before all handles of what it reduces. -/
  deep : ∀ {q : LalrStateIdx} {s : SymbolIdx} {i : ProductionIdx} {p : Production}
    {symbols : List SymbolIdx}, g.action? q s = some (.reduce i) → g.productions[i]? = some p →
    g.Path g.lalrInitial symbols q → p.handles.length ≤ symbols.length
  /-- From below the handles there is a state to go to, and that costs less. -/
  goto : ∀ {q q' : LalrStateIdx} {s : SymbolIdx} {i : ProductionIdx} {p : Production}
    {symbols : List SymbolIdx}, g.action? q s = some (.reduce i) → g.productions[i]? = some p →
    g.Path q' symbols q → symbols.length = p.handles.length →
    ∃ t, g.goto? q' p.head = some t ∧
      r.frame + r.rank t < r.frame * p.handles.length + r.rank q
  /-- Tokens are not for gotos. -/
  not_goto : ∀ {q t : LalrStateIdx} {s : SymbolIdx}, s ∈ g.scanned →
    g.action? q s ≠ some (.goto t)
  /-- The end of the input is not shifted. -/
  not_shift : ∀ {q t : LalrStateIdx} {s : SymbolIdx}, g.hasKind s .endOfFile = true →
    g.action? q s ≠ some (.shift t)
  /-- There is nothing else to accept on. -/
  accept : ∀ {q : LalrStateIdx} {s : SymbolIdx}, g.action? q s = some .accept →
    g.hasKind s .endOfFile = true

/-! ### The checker -/

/-- An entry of the table is right. -/
def checkEntry (r : Ranking) (g : Grammar) (q : LalrStateIdx) (s : SymbolIdx) : Action → Bool
  | .reduce i => g.productions[i]?.any fun p =>
      ((List.range p.handles.length).all fun n =>
        (g.pathsInto n q).all fun (q', _) => q' != g.lalrInitial) &&
      (g.pathsInto p.handles.length q).all fun (q', _) =>
        (g.goto? q' p.head).any fun t =>
          r.frame + r.rank t < r.frame * p.handles.length + r.rank q
  | .goto _ => !g.scanned.contains s
  | .shift _ => !g.hasKind s .endOfFile
  | .accept => g.hasKind s .endOfFile

/-- The ranking is valid. -/
def check (r : Ranking) (g : Grammar) : Bool :=
  g.entries.all fun (q, s, a) => r.checkEntry g q s a

theorem checkEntry_of_check (h : r.check g = true) {q : LalrStateIdx} {s : SymbolIdx} {a : Action}
    (ha : g.action? q s = some a) : r.checkEntry g q s a = true :=
  List.all_eq_true.1 h _ (Grammar.mem_entries ha)

theorem valid_of_check (h : r.check g = true) : r.Valid g := by
  have hentry := @checkEntry_of_check g r h
  refine ⟨?_, ?_, ?_, ?_, ?_, ?_⟩
  · intro q s i ha
    obtain ⟨p, hp, -⟩ := (Option.any_eq_true _ _).1 (hentry ha)
    exact ⟨p, hp⟩
  · intro q s i p symbols ha hp hpath
    have hreduce := hentry ha
    simp only [checkEntry, hp, Option.any_some, Bool.and_eq_true, List.all_eq_true,
      List.mem_range] at hreduce
    by_contra hlt
    have hpaths := hreduce.1 symbols.length (Nat.lt_of_not_le hlt) _ (Grammar.mem_pathsInto hpath)
    simp only [bne_self_eq_false, Bool.false_eq_true] at hpaths
  · intro q q' s i p symbols ha hp hpath hlen
    have hreduce := hentry ha
    simp only [checkEntry, hp, Option.any_some, Bool.and_eq_true, List.all_eq_true] at hreduce
    obtain ⟨t, ht, hcost⟩ :=
      (Option.any_eq_true _ _).1 (hreduce.2 _ (hlen ▸ Grammar.mem_pathsInto hpath))
    exact ⟨t, ht, of_decide_eq_true hcost⟩
  · intro q t s hs ha
    have hgoto := hentry ha
    simp only [checkEntry, List.contains_iff_mem.2 hs, Bool.not_true, Bool.false_eq_true] at hgoto
  · intro q t s hend ha
    have hshift := hentry ha
    simp only [checkEntry, hend, Bool.not_true, Bool.false_eq_true] at hshift
  · intro q s ha
    exact hentry ha

/-! ### Progress -/

namespace Valid

variable {k : Nat}

/-- A reduction finds its handles and a state to go to, and lessens the cost. -/
theorem reduce (hg : g.Loaded) (hr : r.Valid g) (hlinked : Linked g c.frames) {s : SymbolIdx}
    {i : ProductionIdx} (ha : g.action? (c.state g) s = some (.reduce i)) :
    ∃ d, c.reduce g i = .ok d ∧ Linked g d.frames ∧ d.shifted = c.shifted ∧
      d.cost r g < c.cost r g := by
  obtain ⟨frames, m⟩ := c
  obtain ⟨p, hp⟩ := hr.production ha
  rcases lt_or_exists_append frames p.handles.length with hlt | ⟨handles, below, rfl, hlen⟩
  · -- the frames are a path from the initial state that is too short
    rw [← List.append_nil frames] at hlinked
    obtain ⟨-, symbols, hpath, hlen, -⟩ := hlinked.path
    rw [List.append_nil] at hpath
    have hdeep := hr.deep ha hp hpath
    rw [hlen] at hdeep
    exact absurd hlt (Nat.not_lt.2 hdeep)
  · obtain ⟨hbelow, symbols, hpath, hlen', -⟩ := hlinked.path
    obtain ⟨t, ht, hcost⟩ := hr.goto ha hp hpath (hlen'.trans hlen)
    refine ⟨⟨⟨t, .node p.index (handles.reverse.map Frame.tree)⟩ :: below, m⟩, ?_,
      hbelow.reduce hg hp ht, rfl, ?_⟩
    · rw [Config.reduce_append hp hlen, ht]
    · rw [← hlen] at hcost
      simp only [Config.cost, Config.state, Grammar.topOf, List.length_cons, List.length_append,
        Nat.mul_add, Nat.mul_one] at hcost ⊢
      omega

/-- A step gets further in the input or lessens the cost, or comes to a verdict, which is to accept
at the end of the input, or to fail for a reason. -/
def Progress (r : Ranking) (g : Grammar) (k : Nat) (c : Config) : Except Verdict Config → Prop
  | .ok d => Linked g d.frames ∧ d.shifted ≤ k ∧
      (c.shifted < d.shifted ∨ d.shifted = c.shifted ∧ d.cost r g < c.cost r g)
  | .error v => v ≠ .fail .internal ∧ (v = .accept → c.shifted = k)

theorem step (hg : g.Loaded) (hr : r.Valid g) (hscanned : ∀ n, (l.tokenAt g n).symbol ∈ g.scanned)
    (hend : l.EndsAt g k) (hlinked : Linked g c.frames) (hk : c.shifted ≤ k) :
    Progress r g k c (c.step g l) := by
  have hstop : g.hasKind (c.lookahead g l).symbol .endOfFile = true → c.shifted = k := by
    intro h
    by_contra hne
    have hfirst := hend.first _ (Nat.lt_of_le_of_ne hk hne)
    exact Bool.false_ne_true (hfirst.symm.trans h)
  unfold Config.step
  split
  · exact ⟨nofun, nofun⟩
  cases haction : g.action? (c.state g) (c.lookahead g l).symbol with
  | none => exact ⟨nofun, nofun⟩
  | some action =>
    cases action with
    | shift state =>
      have hne : c.shifted ≠ k := by
        rintro rfl
        exact hr.not_shift hend.endOfFile haction
      exact ⟨hlinked.shift haction, Nat.lt_of_le_of_ne hk hne, Or.inl (Nat.lt_succ_self _)⟩
    | reduce i =>
      obtain ⟨d, hd, hlinked', hsame, hless⟩ := hr.reduce hg hlinked haction
      dsimp only
      -- nothing is shifted, so it is the cost that gets less
      rw [hd]
      exact ⟨hlinked', hsame ▸ hk, Or.inr ⟨hsame, hless⟩⟩
    | accept => exact ⟨nofun, fun _ => hstop (hr.accept haction)⟩
    | goto state => exact absurd haction (hr.not_goto (hscanned _))

/-- **Parsing comes to a verdict.**  It is never an internal error, and the input is only accepted
at its end. -/
theorem exists_run (hg : g.Loaded) (hr : r.Valid g)
    (hscanned : ∀ n, (l.tokenAt g n).symbol ∈ g.scanned) (hend : l.EndsAt g k)
    (hlinked : Linked g c.frames) (hk : c.shifted ≤ k) :
    ∃ n d v, c.run g l n = some (d, v) ∧ v ≠ .fail .internal ∧ (v = .accept → d.shifted = k) := by
  -- by induction on the tokens to come and, for as long as they stay the same, on the cost
  induction hm : k - c.shifted using Nat.strongRecOn generalizing c with
  | _ m ihm =>
    induction hn : c.cost r g using Nat.strongRecOn generalizing c with
    | _ n ihn =>
      have hstep := hr.step hg hscanned hend hlinked hk
      cases hnext : c.step g l with
      | error v =>
        rw [hnext] at hstep
        exact ⟨1, c, v, Config.run_succ_of_verdict hnext 0, hstep⟩
      | ok d =>
        rw [hnext] at hstep
        obtain ⟨hlinked', hk', hless⟩ := hstep
        have hrun : ∃ n e v, d.run g l n = some (e, v) ∧ v ≠ .fail .internal ∧
            (v = .accept → e.shifted = k) := by
          rcases hless with hlt | ⟨hsame, hlt⟩
          · exact ihm (k - d.shifted) (by omega) hlinked' hk' rfl
          · exact ihn (d.cost r g) (hn ▸ hlt) hlinked' hk' (by rw [hsame, hm]) rfl
        obtain ⟨n, e, v, hrun, hv⟩ := hrun
        exact ⟨n + 1, e, v, by rw [Config.run_succ_of_move (Config.step_eq_ok.1 hnext), hrun], hv⟩

end Valid

end Ranking

end CompiledGrammar
