import CompiledGrammar.Proofs.Grammar.WellFormed
import CompiledGrammar.Proofs.Lexer.Stream
import CompiledGrammar.Proofs.Text.Slice

/-!
# Where scanning is in its input

A match takes a part of what is left of the input (`Grammar.snd_nextMatch_le`), and not an empty
one unless nothing is left (`Grammar.snd_nextMatch_pos`).

A lexer `Lexer.Fits` a grammar if its cursor stands in its input and its open groups are groups of
the grammar that were opened before the cursor.  Every step keeps that up, and the token that it
gives, if it gives one, is of a symbol of the grammar and covers whole characters of the input
(`Lexer.Fits.scanStep`).
-/

namespace CompiledGrammar

/-! ### Cursors -/

namespace Cursor

/-- The cursor stands in a text: what is left of the text after the bytes before the cursor is what
the cursor has left. -/
def In (cs : List Char) (c : Cursor) : Prop :=
  Utf8.dropBytes? c.offset cs = some c.rest

variable {cs : List Char} {c : Cursor}

theorem advanceBy_eq (terminator : UInt8) (n : Nat) (c : Cursor) :
    c.advanceBy terminator n =
      ⟨c.offset + Utf8.byteLength (c.rest.take n),
        (c.rest.take n).foldl (Position.afterChar terminator) c.position, c.rest.drop n⟩ := by
  induction n generalizing c with
  | zero => simp [advanceBy]
  | succ n ih =>
    rw [advanceBy, ih, advance]
    cases hrest : c.rest with
    | nil => simp [hrest]
    | cons ch rest => simp [Nat.add_assoc]

theorem in_start (cs : List Char) : (start cs).In cs :=
  Utf8.dropBytes?_eq_some.2 ⟨[], rfl, rfl⟩

theorem In.isBoundary (h : c.In cs) : Utf8.IsBoundary cs c.offset :=
  Utf8.isBoundary_iff.2 (Option.isSome_iff_exists.2 ⟨_, h⟩)

theorem In.advanceBy (h : c.In cs) (terminator : UInt8) (n : Nat) :
    (c.advanceBy terminator n).In cs := by
  obtain ⟨before, happend, hlen⟩ := Utf8.dropBytes?_eq_some.1 h
  rw [advanceBy_eq]
  refine Utf8.dropBytes?_eq_some.2 ⟨before ++ c.rest.take n, ?_, ?_⟩
  · rw [List.append_assoc, List.take_append_drop, happend]
  · rw [Utf8.byteLength_append, hlen]

theorem In.advance (h : c.In cs) (terminator : UInt8) : (c.advance terminator).In cs :=
  h.advanceBy terminator 1

/-- At the end of what is left, the cursor is at the end of the text. -/
theorem In.offset_eq (h : c.In cs) (hrest : c.rest = []) : c.offset = Utf8.byteLength cs := by
  obtain ⟨before, happend, hlen⟩ := Utf8.dropBytes?_eq_some.1 h
  rw [← hlen, ← happend, hrest, List.append_nil]

end Cursor

/-! ### Matches -/

namespace Grammar

variable {g : Grammar}

theorem read_walk_le (q : DfaState) (cs : List Char) : (g.walk q cs).read ≤ cs.length := by
  induction cs generalizing q with
  | nil => exact Nat.le_refl _
  | cons c cs ih =>
    rw [walk]
    split
    · exact Nat.succ_le_succ (Nat.zero_le _)
    · exact Nat.succ_le_succ (ih _)

theorem accepted_walk_le {q : DfaState} {cs : List Char} {s : SymbolIdx} {n : Nat}
    (h : (g.walk q cs).accepted = some (s, n)) : n ≤ cs.length := by
  induction cs generalizing q s n with
  | nil => cases h
  | cons c cs ih =>
    simp only [walk] at h
    split at h
    · cases h
    · rename_i next hstep
      simp only at h
      split at h
      · rename_i hrest
        cases h
        exact Nat.succ_le_succ (ih hrest)
      · obtain ⟨_, -, h⟩ := Option.map_eq_some_iff.1 h
        cases h
        exact Nat.succ_le_succ (Nat.zero_le _)

/-- A match is part of the text. -/
theorem snd_nextMatch_le (cs : List Char) : (g.nextMatch cs).2 ≤ cs.length := by
  unfold nextMatch
  split
  · exact Nat.zero_le _
  · rename_i q _
    dsimp only
    split
    · rename_i found hfound
      exact accepted_walk_le (s := found.1) (n := found.2) hfound
    · split
      · exact Nat.zero_le _
      · exact read_walk_le q cs

theorem read_walk_pos {q : DfaState} {cs : List Char} (hcs : cs ≠ []) :
    0 < (g.walk q cs).read := by
  cases cs with
  | nil => contradiction
  | cons c cs =>
    rw [walk]
    split <;> exact Nat.succ_pos _

/-- A text that is not at its end has a match that is not empty. -/
theorem snd_nextMatch_pos (hg : g.dfaInitial < g.dfaStates.size) {cs : List Char}
    (hcs : cs ≠ []) : 0 < (g.nextMatch cs).2 := by
  unfold nextMatch
  rw [Array.getElem?_eq_getElem hg]
  dsimp only
  split
  · rename_i found hfound
    exact Lexer.pos_of_accepted_walk (s := found.1) (n := found.2) hfound
  · rw [if_neg (Nat.ne_of_gt (read_walk_pos hcs))]
    exact read_walk_pos hcs

end Grammar

namespace Lexer

variable {g : Grammar} {l : Lexer}

theorem span_peek : (l.peek g).1.span = ⟨l.cursor.offset, (l.peek g).2.offset⟩ := rfl

/-- A match is empty only at the end of the input. -/
theorem isEmpty_peek_iff (hg : g.dfaInitial < g.dfaStates.size) :
    (l.peek g).1.span.isEmpty = true ↔ l.cursor.rest = [] := by
  constructor
  · intro h
    by_contra hrest
    have hpos := Grammar.snd_nextMatch_pos hg hrest
    have hlt : l.cursor.offset < (l.peek g).2.offset :=
      offset_lt_advanceBy hrest (Nat.ne_of_gt hpos)
    rw [span_peek, Span.isEmpty, beq_iff_eq] at h
    exact absurd h (Nat.ne_of_lt hlt)
  · intro h
    rw [span_peek, Span.isEmpty, beq_iff_eq]
    exact (congrArg Cursor.offset (Cursor.advanceBy_of_rest_eq_nil h _)).symm

theorem peek_of_rest_eq_nil (h : l.cursor.rest = []) :
    l.peek g = (⟨g.eofSymbol, .empty l.cursor.offset, l.cursor.position⟩, l.cursor) := by
  have hafter : (l.peek g).2 = l.cursor := Cursor.advanceBy_of_rest_eq_nil h _
  have hsymbol : (l.peek g).1.symbol = g.eofSymbol := fst_nextMatch (Or.inl h)
  have htoken : (l.peek g).1 = ⟨(l.peek g).1.symbol, ⟨l.cursor.offset, (l.peek g).2.offset⟩,
      l.cursor.position⟩ := rfl
  rw [hsymbol, hafter] at htoken
  exact Prod.ext htoken hafter

theorem reset_scanStep : (l.scanStep g).next.reset = l.reset := by
  have h := scans_scanStep (g := g) (l := l)
  generalize l.scanStep g = step at h
  cases h <;> rfl

theorem reset_scanToken : (l.scanToken g).2.reset = l.reset := by
  fun_induction Lexer.scanToken g l with
  | case1 l token next hstep =>
    have hreset := reset_scanStep (g := g) (l := l)
    rwa [hstep] at hreset
  | case2 l _ next hstep _ ih =>
    have hreset := reset_scanStep (g := g) (l := l)
    rw [hstep] at hreset
    exact ih.trans hreset

/-- Reading does nothing that going back to the beginning does not undo. -/
theorem reset_readToken : (l.readToken g).2.reset = l.reset := by
  fun_induction Lexer.readToken g l with
  | case1 l token next hscan _ _ ih =>
    have hreset := reset_scanToken (g := g) (l := l)
    rw [hscan] at hreset
    exact ih.trans hreset
  | case2 l token next hscan _ =>
    have hreset := reset_scanToken (g := g) (l := l)
    rwa [hscan] at hreset

theorem buffer_reset (l : Lexer) : l.reset.buffer = l.buffer := rfl

theorem buffer_scanStep : (l.scanStep g).next.buffer = l.buffer := by
  rw [← buffer_reset (l.scanStep g).next, reset_scanStep, buffer_reset]

theorem buffer_readToken : (l.readToken g).2.buffer = l.buffer := by
  rw [← buffer_reset (l.readToken g).2, reset_readToken, buffer_reset]

/-- However many tokens are read, the input stays the same. -/
theorem buffer_skip (n : Nat) : (l.skip g n).buffer = l.buffer := by
  induction n with
  | zero => rfl
  | succ n ih => exact buffer_readToken.trans ih

end Lexer

/-! ### What fits a grammar and an input -/

/-- The token is of a symbol of the grammar, and covers whole characters of the input. -/
structure Token.Fits (g : Grammar) (input : Buffer) (t : Token) : Prop where
  symbol : t.symbol < g.symbols.size
  start : Utf8.IsBoundary input.chars t.span.start
  stop : Utf8.IsBoundary input.chars t.span.stop
  ordered : t.span.start ≤ t.span.stop

/-- The open group is one of the grammar, and was opened by some characters before an offset. -/
structure OpenGroup.Fits (g : Grammar) (input : Buffer) (offset : Nat) (o : OpenGroup) : Prop where
  group : g.groups[o.group.index]? = some o.group
  start : Utf8.IsBoundary input.chars o.start
  before : o.start < offset

/-- The lexer stands in its input, and its open groups are groups of the grammar. -/
structure Lexer.Fits (g : Grammar) (l : Lexer) : Prop where
  cursor : l.cursor.In l.buffer.chars
  groups : ∀ o ∈ l.groups, o.Fits g l.buffer l.cursor.offset

theorem Token.Fits.exists_lexeme? {g : Grammar} {input : Buffer} {t : Token} (h : t.Fits g input) :
    ∃ s, t.lexeme? input = some s :=
  Buffer.exists_slice? h.start h.stop h.ordered

theorem Token.Fits.exists_render? {g : Grammar} {input : Buffer} {t : Token} (h : t.Fits g input) :
    ∃ s, t.render? g input = some s := by
  obtain ⟨lexeme, hlexeme⟩ := h.exists_lexeme?
  simp only [render?, Grammar.symbolId?, Array.getElem?_eq_getElem h.symbol, hlexeme]
  exact ⟨_, rfl⟩

/-- What a step gives fits if what it starts from does. -/
def Lexer.Step.Fits (g : Grammar) (input : Buffer) : Step → Prop
  | .emit token next => token.Fits g input ∧ next.Fits g
  | .resume token next => token.Fits g input ∧ next.Fits g

namespace Grammar.WellFormed

variable {g : Grammar}

theorem lt_of_hasKind {s : SymbolIdx} {kind : SymbolKind} (h : g.hasKind s kind = true) :
    s < g.symbols.size := by
  by_contra hge
  simp [hasKind, Array.getElem?_eq_none (Nat.le_of_not_lt hge)] at h

/-- Tokens are of symbols of the grammar. -/
theorem lt_of_mem_scanned (hg : g.WellFormed) {s : SymbolIdx} (h : s ∈ g.scanned) :
    s < g.symbols.size := by
  simp only [scanned, List.mem_cons, List.mem_append, List.mem_filterMap, List.mem_map,
    Array.mem_toList_iff] at h
  rcases h with rfl | rfl | ⟨q, hq, haccept⟩ | ⟨group, hgroup, rfl⟩
  · exact lt_of_hasKind hg.eofSymbol.hasKind
  · exact lt_of_hasKind hg.errorSymbol.hasKind
  · exact (hg.dfaStates q hq).accept s haccept
  · exact (hg.groups group hgroup).container

theorem getElem?_groups (hg : g.WellFormed) {group : Group} (h : group ∈ g.groups.toList) :
    g.groups[group.index]? = some group := by
  obtain ⟨i, hi⟩ := Array.getElem?_of_mem (Array.mem_toList_iff.1 h)
  rw [hg.groupIndex i group hi, hi]

end Grammar.WellFormed

namespace Lexer.Fits

variable {g : Grammar} {l : Lexer}

theorem peek (hg : g.WellFormed) (h : l.Fits g) :
    (l.peek g).1.Fits g l.buffer ∧ (l.peek g).2.In l.buffer.chars := by
  have hafter : (l.peek g).2.In l.buffer.chars := h.cursor.advanceBy _ _
  exact ⟨⟨hg.lt_of_mem_scanned symbol_peek_mem, h.cursor.isBoundary, hafter.isBoundary,
    offset_le_advanceBy _ _ _⟩, hafter⟩

/-- Groups that are open stay behind the cursor when it moves on. -/
theorem move (h : l.Fits g) {cursor : Cursor} (hcursor : cursor.In l.buffer.chars)
    (hle : l.cursor.offset ≤ cursor.offset) : { l with cursor }.Fits g where
  cursor := hcursor
  groups o ho := { h.groups o ho with before := Nat.lt_of_lt_of_le (h.groups o ho).before hle }

theorem scanStep (hg : g.WellFormed) (h : l.Fits g) : (l.scanStep g).Fits g l.buffer := by
  obtain ⟨htoken, hafter⟩ := h.peek hg
  have hle : l.cursor.offset ≤ (l.peek g).2.offset := offset_le_advanceBy _ _ _
  have hspan := span_peek (g := g) (l := l)
  have hstep := scans_scanStep (g := g) (l := l)
  generalize l.peek g = peeked at htoken hafter hle hspan hstep
  obtain ⟨token, after⟩ := peeked
  dsimp only at htoken hafter hle hspan hstep
  -- the cursor stays where it is or moves on
  have hmove {cursor : Cursor} (hcursor : cursor = after ∨ cursor = l.cursor) :
      { l with cursor }.Fits g := by
    rcases hcursor with rfl | rfl
    · exact h.move hafter hle
    · exact h
  generalize l.scanStep g = step at hstep
  cases hstep with
  | @opens group hopens =>
    have hempty := isEmpty_of_opens? hopens
    rw [hspan, Span.isEmpty, beq_eq_false_iff_ne] at hempty
    refine ⟨htoken, hafter, List.forall_mem_cons.2 ⟨⟨?_, htoken.start, ?_⟩, ?_⟩⟩
    · exact hg.getElem?_groups (mem_groups_of_opens? hopens)
    · rw [hspan]
      exact Nat.lt_of_le_of_ne hle hempty
    · exact (h.move hafter hle).groups
  | single hgroups => exact ⟨htoken, h.move hafter hle⟩
  | @closes top cursor hgroups _ hcursor =>
    have hfits := hmove hcursor
    have htop := hfits.groups top (by simp [hgroups])
    refine ⟨⟨?_, htop.start, hfits.cursor.isBoundary, Nat.le_of_lt htop.before⟩, hfits.cursor,
      fun o ho => absurd ho List.not_mem_nil⟩
    exact (hg.groups top.group (Array.mem_of_getElem? htop.group)).container
  | @leaves top outer cursor hgroups _ _ hcursor =>
    have hfits := hmove hcursor
    refine ⟨htoken, hfits.cursor, fun o ho => hfits.groups o ?_⟩
    simp [hgroups, ho]
  | ends => exact ⟨htoken, h⟩
  | @skips cursor _ _ hcursor =>
    rcases hcursor with rfl | rfl
    · exact ⟨htoken, h.move hafter hle⟩
    · exact ⟨htoken, h.move (h.cursor.advance _) (offset_le_advance _ _)⟩

theorem reset (g : Grammar) (l : Lexer) : l.reset.Fits g :=
  ⟨Cursor.in_start _, nofun⟩

/-- Tokens cover whole characters of the input, which stays the same. -/
theorem scanToken (hg : g.WellFormed) (h : l.Fits g) :
    (l.scanToken g).1.Fits g l.buffer ∧ (l.scanToken g).2.Fits g ∧
      (l.scanToken g).2.buffer = l.buffer := by
  fun_induction Lexer.scanToken g l with
  | case1 l token next hstep =>
    have hfits := h.scanStep hg
    have hbuffer := buffer_scanStep (g := g) (l := l)
    rw [hstep] at hfits hbuffer
    exact ⟨hfits.1, hfits.2, hbuffer⟩
  | case2 l _ next hstep _ ih =>
    have hfits := h.scanStep hg
    have hbuffer := buffer_scanStep (g := g) (l := l)
    rw [hstep] at hfits hbuffer
    rw [← show next.buffer = l.buffer from hbuffer]
    exact ih hfits.2

theorem readToken (hg : g.WellFormed) (h : l.Fits g) :
    (l.readToken g).1.Fits g l.buffer ∧ (l.readToken g).2.Fits g ∧
      (l.readToken g).2.buffer = l.buffer := by
  fun_induction Lexer.readToken g l with
  | case1 l token next hscan _ _ ih =>
    have hscanned := h.scanToken hg
    rw [hscan] at hscanned
    rw [← show next.buffer = l.buffer from hscanned.2.2]
    exact ih hscanned.2.1
  | case2 l token next hscan _ =>
    have hscanned := h.scanToken hg
    rwa [hscan] at hscanned

end Lexer.Fits

end CompiledGrammar
