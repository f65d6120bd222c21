import CompiledGrammar.Lexer.Basic

/-!
# The tokens of an input

Reading token after token makes a sequence of tokens, each at its place (`Lexer.tokenAt`).

* `Lexer.Scans` lists all that a step of scanning can come to (`Lexer.scans_scanStep`), so that what
  holds of a step is proved by its cases.
* Every sequence comes to an end of the input (`Lexer.exists_endsAt`): a token that is not the end
  of the input lessens what is pending.
* Every token is of a symbol that scanning can give (`Lexer.tokenAt_mem`): one that a state of the
  lexical automaton accepts, the container of a group, the error or the end of the input.
-/

namespace CompiledGrammar

namespace Lexer

variable (g : Grammar) (l : Lexer)

/-- The lexer after `n` tokens. -/
def skip : Nat → Lexer
  | 0 => l
  | n + 1 => ((skip n).readToken g).2

/-- The token after `n` others. -/
def tokenAt (n : Nat) : Token := ((l.skip g n).readToken g).1

/-- The first `n` tokens. -/
def tokens (n : Nat) : List Token := (List.range n).map (l.tokenAt g)

variable {g} {l}

theorem readToken_skip (n : Nat) : (l.skip g n).readToken g = (l.tokenAt g n, l.skip g (n + 1)) :=
  rfl

theorem skip_skip (m n : Nat) : (l.skip g m).skip g n = l.skip g (m + n) := by
  induction n with
  | zero => rfl
  | succ n ih => rw [skip, ih]; rfl

theorem tokenAt_skip (m n : Nat) : (l.skip g m).tokenAt g n = l.tokenAt g (m + n) := by
  rw [tokenAt, skip_skip]; rfl

theorem tokens_succ (n : Nat) : l.tokens g (n + 1) = l.tokens g n ++ [l.tokenAt g n] := by
  simp only [tokens, List.range_succ, List.map_append, List.map_cons, List.map_nil]

@[simp] theorem length_tokens (n : Nat) : (l.tokens g n).length = n := by
  simp [tokens]

/-! ### Matches -/

theorem pos_of_accepted_walk {q : DfaState} {cs : List Char} {s : SymbolIdx} {n : Nat}
    (h : (g.walk q cs).accepted = some (s, n)) : 0 < n := by
  cases cs with
  | nil => cases h
  | cons c cs =>
    simp only [Grammar.walk] at h
    split at h
    · cases h
    · simp only at h
      split at h
      · cases h; exact Nat.succ_pos _
      · simp only [Option.map_eq_some_iff] at h
        obtain ⟨_, -, h⟩ := h
        cases h; exact Nat.one_pos

/-- A match of no character is the end of the input, and so is any match at the end. -/
theorem fst_nextMatch {cs : List Char} (h : cs = [] ∨ (g.nextMatch cs).2 = 0) :
    (g.nextMatch cs).1 = g.eofSymbol := by
  unfold Grammar.nextMatch at h ⊢
  cases hq : g.dfaStates[g.dfaInitial]? with
  | none => rfl
  | some q =>
    simp only [hq] at h ⊢
    rcases h with rfl | h
    · rfl
    cases hw : (g.walk q cs).accepted with
    | some found =>
      rw [hw] at h
      exact absurd h (Nat.ne_of_gt (pos_of_accepted_walk (s := found.1) (n := found.2) hw))
    | none =>
      rw [hw] at h
      by_cases hread : (g.walk q cs).read = 0
      · simp only [if_pos hread]
      · simp only [if_neg hread] at h
        exact absurd h hread

theorem offset_le_advance (terminator : UInt8) (c : Cursor) :
    c.offset ≤ (c.advance terminator).offset := by
  unfold Cursor.advance
  split
  · exact Nat.le_refl _
  · exact Nat.le_add_right _ _

theorem offset_le_advanceBy (terminator : UInt8) (n : Nat) (c : Cursor) :
    c.offset ≤ (c.advanceBy terminator n).offset := by
  induction n generalizing c with
  | zero => exact Nat.le_refl _
  | succ n ih => exact Nat.le_trans (offset_le_advance terminator c) (ih _)

theorem offset_lt_advanceBy {terminator : UInt8} {n : Nat} {c : Cursor} (hrest : c.rest ≠ [])
    (hn : n ≠ 0) : c.offset < (c.advanceBy terminator n).offset := by
  cases n with
  | zero => exact absurd rfl hn
  | succ n =>
    refine Nat.lt_of_lt_of_le ?_ (offset_le_advanceBy terminator n _)
    unfold Cursor.advance
    split
    · contradiction
    · exact Nat.lt_add_of_pos_right (Char.utf8Size_pos _)

/-- Where nothing is consumed, the input is at its end. -/
theorem symbol_peek_of_isEmpty (h : (l.peek g).1.span.isEmpty = true) :
    (l.peek g).1.symbol = g.eofSymbol := by
  simp only [peek, Span.isEmpty, beq_iff_eq] at h ⊢
  refine fst_nextMatch ?_
  by_cases hrest : l.cursor.rest = []
  · exact Or.inl hrest
  · by_cases hn : (g.nextMatch l.cursor.rest).2 = 0
    · exact Or.inr hn
    · exact absurd h (Nat.ne_of_lt (offset_lt_advanceBy hrest hn))

/-! ### Steps -/

/-- The lexer after a step. -/
def Step.next : Step → Lexer
  | .emit _ next => next
  | .resume _ next => next

/-- All that considering a match can come to, where `after` is the place after the match. -/
inductive Scans (g : Grammar) (l : Lexer) (token : Token) (after : Cursor) : Step → Prop where
  /-- The match opens a group. -/
  | opens {group : Group} :
      l.opens? g token = some group →
      Scans g l token after
        (.resume token
          { l with
            cursor := after, groups := ⟨group, token.span.start, token.position⟩ :: l.groups })
  /-- Outside of all groups, the match is a token of its own. -/
  | single :
      l.groups = [] → Scans g l token after (.emit token { l with cursor := after })
  /-- The match closes the outermost group. -/
  | closes {top : OpenGroup} {cursor : Cursor} :
      l.groups = [top] → top.group.endSymbol = token.symbol →
      cursor = after ∨ cursor = l.cursor →
      Scans g l token after
        (.emit ⟨top.group.container, ⟨top.start, cursor.offset⟩, top.position⟩
          { l with cursor, groups := [] })
  /-- The match closes a group inside of another. -/
  | leaves {top : OpenGroup} {outer : List OpenGroup} {cursor : Cursor} :
      l.groups = top :: outer → outer ≠ [] → top.group.endSymbol = token.symbol →
      cursor = after ∨ cursor = l.cursor →
      Scans g l token after (.resume token { l with cursor, groups := outer })
  /-- The input ends inside of a group. -/
  | ends :
      l.groups ≠ [] → isEnd g token = true → Scans g l token after (.emit token l)
  /-- The match is part of a group. -/
  | skips {cursor : Cursor} :
      l.groups ≠ [] → isEnd g token = false →
      cursor = after ∨ cursor = l.cursor.advance l.lineTerminator →
      Scans g l token after (.resume token { l with cursor })

theorem scans_scanStep : Scans g l (l.peek g).1 (l.peek g).2 (l.scanStep g) := by
  unfold scanStep
  generalize l.peek g = peeked
  obtain ⟨token, after⟩ := peeked
  dsimp only
  split
  · rename_i group hopens
    exact .opens hopens
  split
  · rename_i hgroups
    exact .single hgroups
  rename_i top outer hgroups
  have hne : l.groups ≠ [] := by simp [hgroups]
  split
  · rename_i hclose
    cases outer with
    | nil =>
      refine .closes hgroups hclose ?_
      split
      · exact Or.inl rfl
      · exact Or.inr rfl
    | cons =>
      refine .leaves hgroups (List.cons_ne_nil _ _) hclose ?_
      split
      · exact Or.inl rfl
      · exact Or.inr rfl
  split
  · rename_i hend
    exact .ends hne hend
  · rename_i hend
    have hend : isEnd g token = false := by simpa using hend
    split
    · exact .skips hne hend (Or.inl rfl)
    · exact .skips hne hend (Or.inr rfl)

/-! ### The end of the input -/

/-- A match at the end of the input, or inside of a group that the input ends in, is of the end of
the input. -/
theorem endOfFile_of_isEnd (heof : g.hasKind g.eofSymbol .endOfFile = true)
    (h : isEnd g (l.peek g).1 = true) : g.hasKind (l.peek g).1.symbol .endOfFile = true := by
  rw [isEnd, Bool.or_eq_true] at h
  rcases h with h | h
  · exact h
  · rw [symbol_peek_of_isEmpty h, heof]

/-- A match is the end of the input or lessens what is pending. -/
theorem endOfFile_or_pending_lt_of_emit (heof : g.hasKind g.eofSymbol .endOfFile = true)
    {token : Token} {next : Lexer} (h : l.scanStep g = .emit token next) :
    g.hasKind token.symbol .endOfFile = true ∨ next.pending < l.pending := by
  have hle := length_rest_peek_le g l
  have hscans := scans_scanStep (g := g) (l := l)
  rw [h] at hscans
  cases hscans with
  | single hgroups =>
    cases hspan : (l.peek g).1.span.isEmpty with
    | true => exact Or.inl (by rw [symbol_peek_of_isEmpty hspan, heof])
    | false =>
      have hlt := length_rest_peek_lt hspan
      refine Or.inr ?_
      simp only [pending]
      omega
  | closes hgroups _ hcursor =>
    refine Or.inr ?_
    simp only [pending, hgroups, List.length_cons, List.length_nil]
    rcases hcursor with rfl | rfl <;> omega
  | ends _ hend => exact Or.inl (endOfFile_of_isEnd heof hend)

theorem endOfFile_or_pending_lt_of_scanToken (heof : g.hasKind g.eofSymbol .endOfFile = true) :
    g.hasKind (l.scanToken g).1.symbol .endOfFile = true ∨
      (l.scanToken g).2.pending < l.pending := by
  fun_induction scanToken g l with
  | case1 l token next hstep => exact endOfFile_or_pending_lt_of_emit heof hstep
  | case2 l _ next hstep hlt ih => exact ih.imp id (Nat.lt_trans · hlt)

theorem endOfFile_or_pending_lt_of_readToken (heof : g.hasKind g.eofSymbol .endOfFile = true) :
    g.hasKind (l.readToken g).1.symbol .endOfFile = true ∨
      (l.readToken g).2.pending < l.pending := by
  fun_induction readToken g l with
  | case1 l token next hscan hnoise hlt ih => exact ih.imp id (Nat.lt_trans · hlt)
  | case2 l token next hscan hnoise =>
    have := endOfFile_or_pending_lt_of_scanToken (l := l) heof
    rwa [hscan] at this

/-- The input ends with token `k`: it is the first that is the end of the input. -/
structure EndsAt (g : Grammar) (l : Lexer) (k : Nat) : Prop where
  /-- It is the end of the input. -/
  endOfFile : g.hasKind (l.tokenAt g k).symbol .endOfFile = true
  /-- No earlier token is. -/
  first : ∀ i, i < k → g.hasKind (l.tokenAt g i).symbol .endOfFile = false

/-- Every input comes to an end. -/
theorem exists_endsAt (heof : g.hasKind g.eofSymbol .endOfFile = true) (l : Lexer) :
    ∃ k, EndsAt g l k := by
  -- by induction on what is pending, which the first token lessens unless it is the end
  induction hn : l.pending using Nat.strongRecOn generalizing l with
  | _ n ih =>
    by_cases hzero : g.hasKind (l.tokenAt g 0).symbol .endOfFile = true
    · exact ⟨0, hzero, fun i hi => absurd hi (Nat.not_lt_zero i)⟩
    · have hlt := (endOfFile_or_pending_lt_of_readToken (l := l) heof).resolve_left hzero
      obtain ⟨k, hend, hfirst⟩ := ih _ (hn ▸ hlt) (l.skip g 1) rfl
      rw [tokenAt_skip, Nat.add_comm] at hend
      refine ⟨k + 1, hend, ?_⟩
      intro i hi
      cases i with
      | zero => simpa using hzero
      | succ i =>
        rw [Nat.add_comm, ← tokenAt_skip]
        exact hfirst i (Nat.lt_of_succ_lt_succ hi)

/-! ### The symbols of tokens -/

end Lexer

/-- The symbols that tokens can have. -/
def Grammar.scanned (g : Grammar) : List SymbolIdx :=
  g.eofSymbol :: g.errorSymbol ::
    (g.dfaStates.toList.filterMap (·.accept) ++ g.groups.toList.map Group.container)

namespace Lexer

variable {g : Grammar} {l : Lexer}

theorem dfaStep_mem {q next : DfaState} {c : Char} (hq : q ∈ g.dfaStates.toList)
    (h : g.dfaStep q c = some next) : next ∈ g.dfaStates.toList := by
  unfold Grammar.dfaStep at h
  split at h
  · exact Array.mem_toList_iff.2 (Array.mem_of_getElem? h)
  · cases h; exact hq
  · cases h; exact hq
  · cases h

theorem accepted_walk_mem {q : DfaState} {cs : List Char} (hq : q ∈ g.dfaStates.toList)
    {s : SymbolIdx} {n : Nat} (h : (g.walk q cs).accepted = some (s, n)) :
    s ∈ g.dfaStates.toList.filterMap (·.accept) := by
  induction cs generalizing q n with
  | nil => cases h
  | cons c cs ih =>
    simp only [Grammar.walk] at h
    split at h
    · cases h
    · rename_i next hstep
      have hnext := dfaStep_mem hq hstep
      simp only at h
      split at h
      · rename_i hrest
        cases h
        exact ih hnext hrest
      · simp only [Option.map_eq_some_iff] at h
        obtain ⟨_, haccept, h⟩ := h
        cases h
        exact List.mem_filterMap.2 ⟨next, hnext, haccept⟩

theorem symbol_peek_mem : (l.peek g).1.symbol ∈ g.scanned := by
  simp only [peek, Grammar.nextMatch, Grammar.scanned]
  cases hq : g.dfaStates[g.dfaInitial]? with
  | none => exact List.mem_cons_self
  | some q =>
    simp only
    cases hw : (g.walk q l.cursor.rest).accepted with
    | none => simp only; split <;> simp
    | some found =>
      have hmem := accepted_walk_mem (s := found.1) (n := found.2)
        (Array.mem_toList_iff.2 (Array.mem_of_getElem? hq)) hw
      simp only [List.mem_cons, List.mem_append, hmem, true_or, or_true]

/-- The open groups are groups of the grammar. -/
def OpensGroups (g : Grammar) (l : Lexer) : Prop :=
  ∀ o ∈ l.groups, o.group ∈ g.groups.toList

/-- A match gives a token of the grammar, if it gives one, and opens groups of the grammar only. -/
def Step.Within (g : Grammar) : Step → Prop
  | .emit token next => token.symbol ∈ g.scanned ∧ OpensGroups g next
  | .resume _ next => OpensGroups g next

theorem mem_groups_of_opens? {token : Token} {group : Group} (h : l.opens? g token = some group) :
    group ∈ g.groups.toList := by
  unfold opens? at h
  split at h
  · rw [Option.filter_eq_some_iff] at h
    exact List.mem_of_find?_eq_some h.1
  · cases h

theorem container_mem {o : OpenGroup} (h : OpensGroups g l) (ho : o ∈ l.groups) :
    o.group.container ∈ g.scanned := by
  simp only [Grammar.scanned, List.mem_cons, List.mem_append]
  exact Or.inr (Or.inr (Or.inr (List.mem_map_of_mem (h o ho))))

theorem within_scanStep (h : OpensGroups g l) : (l.scanStep g).Within g := by
  have hpeek := symbol_peek_mem (g := g) (l := l)
  have hscans := scans_scanStep (g := g) (l := l)
  generalize l.scanStep g = step at hscans
  cases hscans with
  | opens hopens => exact List.forall_mem_cons.2 ⟨mem_groups_of_opens? hopens, h⟩
  | single => exact ⟨hpeek, h⟩
  | closes hgroups => exact ⟨container_mem h (by simp [hgroups]), nofun⟩
  | leaves hgroups => exact fun o ho => h o (by simp [hgroups, ho])
  | ends => exact ⟨hpeek, h⟩
  | skips => exact h

theorem scanToken_mem (h : OpensGroups g l) :
    (l.scanToken g).1.symbol ∈ g.scanned ∧ OpensGroups g (l.scanToken g).2 := by
  fun_induction scanToken g l with
  | case1 l token next hstep =>
    have := within_scanStep h
    rwa [hstep] at this
  | case2 l _ next hstep _ ih =>
    refine ih ?_
    have := within_scanStep h
    rwa [hstep] at this

theorem readToken_mem (h : OpensGroups g l) :
    (l.readToken g).1.symbol ∈ g.scanned ∧ OpensGroups g (l.readToken g).2 := by
  fun_induction readToken g l with
  | case1 l token next hscan _ _ ih =>
    refine ih ?_
    have := (scanToken_mem h).2
    rwa [hscan] at this
  | case2 l token next hscan _ =>
    have := scanToken_mem h
    rwa [hscan] at this

/-- Tokens are of the symbols that scanning can give. -/
theorem tokenAt_mem (h : OpensGroups g l) (n : Nat) : (l.tokenAt g n).symbol ∈ g.scanned := by
  -- the open groups are what one token leaves behind for the next
  have hskip : OpensGroups g (l.skip g n) := by
    induction n with
    | zero => exact h
    | succ n ih => exact (readToken_mem ih).2
  exact (readToken_mem hskip).1

theorem opensGroups_load (input : Buffer) : OpensGroups g (l.load input) := by
  intro o ho
  cases ho

end Lexer

end CompiledGrammar
