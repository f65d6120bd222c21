import CompiledGrammar.Proofs.Lexer.Scan
import CompiledGrammar.Table.Sample

/-!
# Tokens cover the input

Scanning token after token, noise included, leaves nothing of the input out.

* `Lexer.settled` is the offset up to which the input has been given as tokens: the start of the
  outermost open group, or the cursor if no group is open.
* `Lexer.Gives` says what the next token can be: it covers the input from there on, or it is the end
  of the input, which stays the next token for good (`Lexer.Fits.gives_scanToken`).
* From that, `Lexer.progress` says how far the first `n` tokens have come, by induction on `n`.
* `Lexer.lossless` draws the conclusions.
-/

namespace CompiledGrammar

/-! ### Tokens one after the other -/

/-- The tokens follow one another from an offset to another, and none of them is empty. -/
def Tiles : Nat → List Token → Nat → Prop
  | start, [], stop => start = stop
  | start, t :: ts, stop => t.span.start = start ∧ start < t.span.stop ∧ Tiles t.span.stop ts stop

namespace Tiles

variable {ts : List Token} {t : Token} {i j : Nat}

theorem concat (h : Tiles i ts j) (hstart : t.span.start = j) (hlt : j < t.span.stop) :
    Tiles i (ts ++ [t]) t.span.stop := by
  induction ts generalizing i with
  | nil =>
    have hij : i = j := h
    exact ⟨hij ▸ hstart, hij ▸ hlt, rfl⟩
  | cons first ts ih =>
    obtain ⟨hfirst, hfirstlt, hrest⟩ := h
    exact ⟨hfirst, hfirstlt, ih hrest⟩

theorem span_start_lt (h : Tiles i ts j) (ht : t ∈ ts) : t.span.start < t.span.stop := by
  induction ts generalizing i with
  | nil => cases ht
  | cons first ts ih =>
    obtain ⟨rfl, hlt, hrest⟩ := h
    rcases List.mem_cons.1 ht with rfl | ht
    · exact hlt
    · exact ih hrest ht

theorem le (h : Tiles i ts j) : i ≤ j := by
  induction ts generalizing i with
  | nil => exact Nat.le_of_eq h
  | cons first ts ih =>
    obtain ⟨-, hlt, hrest⟩ := h
    exact Nat.le_trans (Nat.le_of_lt hlt) (ih hrest)

/-- The lexemes of tokens that follow one another are a slice of the input. -/
theorem exists_lexemes {g : Grammar} {input : Buffer} (h : Tiles i ts j)
    (hi : Utf8.IsBoundary input.chars i) (hfits : ∀ t ∈ ts, t.Fits g input) :
    ∃ lexemes, ts.mapM (·.lexeme? input) = some lexemes ∧
      input.slice? ⟨i, j⟩ = some (String.join lexemes) := by
  induction ts generalizing i with
  | nil =>
    obtain rfl : i = j := h
    obtain ⟨before, after, happend, hlen⟩ := hi
    exact ⟨[], rfl, Buffer.slice?_eq_some.2 ⟨before, [], after, happend, hlen, by simp, rfl⟩⟩
  | cons first ts ih =>
    obtain ⟨rfl, hlt, hrest⟩ := h
    have hfirst := hfits first List.mem_cons_self
    obtain ⟨s, hs⟩ := hfirst.exists_lexeme?
    obtain ⟨lexemes, hlexemes, hslice⟩ :=
      ih hrest hfirst.stop fun t ht => hfits t (List.mem_cons_of_mem _ ht)
    refine ⟨s :: lexemes, ?_, ?_⟩
    · rw [List.mapM_cons, hs, hlexemes]
      rfl
    · rw [String.join_cons]
      exact Buffer.slice?_append hs hslice hfirst.ordered hrest.le

end Tiles

namespace Lexer

/-! ### Scanning token after token -/

section

variable (g : Grammar) (l : Lexer)

/-- The lexer after `n` tokens, noise included. -/
def afterScans : Nat → Lexer
  | 0 => l
  | n + 1 => ((afterScans n).scanToken g).2

/-- The token after `n` others, noise included. -/
def scanAt (n : Nat) : Token := ((l.afterScans g n).scanToken g).1

/-- The first `n` tokens, noise included. -/
def scans (n : Nat) : List Token := (List.range n).map (l.scanAt g)

end

/-- The offset up to which the input has been given as tokens. -/
def settled (l : Lexer) : Nat :=
  match l.groups.getLast? with
  | some outermost => outermost.start
  | none => l.cursor.offset

variable {g : Grammar} {l next : Lexer} {token : Token}

theorem scanToken_afterScans (n : Nat) :
    (l.afterScans g n).scanToken g = (l.scanAt g n, l.afterScans g (n + 1)) := rfl

theorem scans_succ (n : Nat) : l.scans g (n + 1) = l.scans g n ++ [l.scanAt g n] := by
  simp only [scans, List.range_succ, List.map_append, List.map_cons, List.map_nil]

theorem mem_scans {n : Nat} : token ∈ l.scans g n ↔ ∃ i < n, l.scanAt g i = token := by
  simp only [scans, List.mem_map, List.mem_range]

theorem settled_of_groups_eq_nil (h : l.groups = []) : l.settled = l.cursor.offset := by
  simp only [settled, h, List.getLast?_nil]

theorem scanToken_of_emit (h : l.scanStep g = .emit token next) :
    l.scanToken g = (token, next) := by
  unfold scanToken
  split
  · rename_i heq
    rw [h] at heq
    cases heq; rfl
  · rename_i heq
    rw [h] at heq
    cases heq

theorem scanToken_of_resume (h : l.scanStep g = .resume token next) :
    l.scanToken g = next.scanToken g := by
  rw [scanToken]
  split
  · rename_i heq
    rw [h] at heq
    cases heq
  · rename_i heq
    rw [h] at heq
    cases heq
    rfl

theorem Fits.afterScans (hg : g.WellFormed) (h : l.Fits g) (n : Nat) :
    (l.afterScans g n).Fits g ∧ (l.afterScans g n).buffer = l.buffer := by
  induction n with
  | zero => exact ⟨h, rfl⟩
  | succ n ih => exact ⟨(ih.1.scanToken hg).2.1, (ih.1.scanToken hg).2.2.trans ih.2⟩

theorem Fits.scanAt (hg : g.WellFormed) (h : l.Fits g) (n : Nat) :
    (l.scanAt g n).Fits g l.buffer := by
  obtain ⟨hfits, hbuffer⟩ := h.afterScans hg n
  rw [← hbuffer]
  exact (hfits.scanToken hg).1

/-! ### The next token -/

/-- What the next token, and the lexer after it, can be. -/
inductive Gives (g : Grammar) (l : Lexer) (token : Token) (next : Lexer) : Prop where
  /-- The token covers the input from where it has been given up to the cursor. -/
  | piece :
      token.span = ⟨l.settled, next.cursor.offset⟩ → l.settled < next.cursor.offset →
      next.groups = [] → Gives g l token next
  /-- The token is the end of the input, and will be so again. -/
  | ends :
      g.hasKind token.symbol .endOfFile = true → next.settled = l.settled →
      next.scanStep g = .emit token next → Gives g l token next

/-- As long as there is no token, there is nothing more of the input that has been given. -/
theorem settled_of_resume (h : l.scanStep g = .resume token next) : next.settled = l.settled := by
  have hstep := scans_scanStep (g := g) (l := l)
  rw [h] at hstep
  cases hstep with
  | @opens group hopens =>
    simp only [settled, List.getLast?_cons]
    cases l.groups.getLast? <;> rfl
  | @leaves top outer cursor hgroups houter _ _ =>
    obtain ⟨outermost, houtermost⟩ := Option.isSome_iff_exists.1 (List.getLast?_isSome.2 houter)
    simp only [settled, hgroups, List.getLast?_cons, houtermost, Option.getD_some]
  | @skips cursor hgroups _ _ =>
    obtain ⟨outermost, houtermost⟩ := Option.isSome_iff_exists.1 (List.getLast?_isSome.2 hgroups)
    simp only [settled, houtermost]

theorem Fits.gives_of_emit (hg : g.WellFormed) (h : l.Fits g)
    (hstep : l.scanStep g = .emit token next) : Gives g l token next := by
  have heof := hg.eofSymbol.hasKind
  have hle : l.cursor.offset ≤ (l.peek g).2.offset := offset_le_advanceBy _ _ _
  have hscans := scans_scanStep (g := g) (l := l)
  rw [hstep] at hscans
  cases hscans with
  | single hgroups =>
    by_cases hrest : l.cursor.rest = []
    · -- at the end of the input nothing moves
      have hafter : (l.peek g).2 = l.cursor := congrArg Prod.snd (peek_of_rest_eq_nil hrest)
      have hempty := (isEmpty_peek_iff hg.dfaInitial).2 hrest
      rw [hafter] at hstep ⊢
      exact .ends (endOfFile_of_isEnd heof (by rw [isEnd, hempty, Bool.or_true])) rfl hstep
    · have hne := mt (isEmpty_peek_iff (g := g) hg.dfaInitial).1 hrest
      rw [span_peek, Span.isEmpty, beq_iff_eq] at hne
      have hsettled := settled_of_groups_eq_nil hgroups
      refine .piece ?_ ?_ hgroups
      · rw [hsettled, span_peek]
      · rw [hsettled]
        exact Nat.lt_of_le_of_ne hle hne
  | @closes top cursor hgroups _ hcursor =>
    have hsettled : l.settled = top.start := by
      simp only [settled, hgroups, List.getLast?_singleton]
    have hbefore := (h.groups top (by simp [hgroups])).before
    refine .piece ?_ ?_ rfl
    · rw [hsettled]
    · rw [hsettled]
      rcases hcursor with rfl | rfl
      · exact Nat.lt_of_lt_of_le hbefore hle
      · exact hbefore
  | ends hgroups hend => exact .ends (endOfFile_of_isEnd heof hend) rfl hstep

/-- **The next token** goes on where the last one ended, or is the end of the input. -/
theorem Fits.gives_scanToken (hg : g.WellFormed) (h : l.Fits g) :
    Gives g l (l.scanToken g).1 (l.scanToken g).2 := by
  fun_induction Lexer.scanToken g l with
  | case1 l token next hstep => exact h.gives_of_emit hg hstep
  | case2 l _ next hstep _ ih =>
    have hfits := h.scanStep hg
    rw [hstep] at hfits
    have hsettled := settled_of_resume hstep
    cases ih hfits.2 with
    | piece hspan hlt hgroups => exact .piece (hsettled ▸ hspan) (hsettled ▸ hlt) hgroups
    | ends hkind hnext hagain => exact .ends hkind (hnext.trans hsettled) hagain

theorem eq_peek_of_emit (hstep : l.scanStep g = .emit token next) (hnext : next.groups = l.groups) :
    token = (l.peek g).1 := by
  have hscans := scans_scanStep (g := g) (l := l)
  rw [hstep] at hscans
  cases hscans with
  | single => rfl
  | ends => rfl
  | closes hgroups =>
    -- closing a group changes the groups
    rw [hgroups] at hnext
    cases hnext

/-- An empty token that comes again and again is the end of the input, and the cursor is there. -/
theorem Fits.eof_of_scanStep_self (hg : g.WellFormed) (h : l.Fits g)
    (hstep : l.scanStep g = .emit token l) (hempty : token.span.isEmpty = true) :
    token.symbol = g.eofSymbol ∧ token.span = .empty l.buffer.byteLength ∧
      l.cursor.offset = l.buffer.byteLength := by
  obtain rfl := eq_peek_of_emit hstep rfl
  have hrest := (isEmpty_peek_iff hg.dfaInitial).1 hempty
  have hoffset : l.cursor.offset = l.buffer.byteLength := h.cursor.offset_eq hrest
  rw [peek_of_rest_eq_nil hrest, hoffset]
  exact ⟨rfl, rfl, rfl⟩

/-! ### All tokens -/

/-- How far the first `n` tokens have come. -/
inductive Progress (g : Grammar) (l : Lexer) (n : Nat) : Prop where
  /-- They cover the input up to the cursor. -/
  | going :
      (l.afterScans g n).groups = [] → Tiles 0 (l.scans g n) (l.afterScans g n).cursor.offset →
      Progress g l n
  /-- From one of them on, all of them are the same end of the input. -/
  | ended {k : Nat} {token : Token} :
      k < n → Tiles 0 (l.scans g k) (l.afterScans g n).settled →
      (∀ i, k ≤ i → i < n → l.scanAt g i = token) →
      g.hasKind token.symbol .endOfFile = true →
      (l.afterScans g n).scanStep g = .emit token (l.afterScans g n) → Progress g l n

theorem progress (hg : g.WellFormed) (l : Lexer) (n : Nat) : Progress g l.reset n := by
  induction n with
  | zero => exact .going rfl rfl
  | succ n ih =>
    have hgives := ((Fits.reset g l).afterScans hg n).1.gives_scanToken hg
    rw [scanToken_afterScans] at hgives
    cases ih with
    | going hgroups htiles =>
      have hsettled := settled_of_groups_eq_nil hgroups
      cases hgives with
      | piece hspan hlt hnext =>
        refine .going hnext ?_
        rw [hsettled] at hspan hlt
        have hconcat := htiles.concat (t := l.reset.scanAt g n) (by rw [hspan]) (by rwa [hspan])
        rw [hspan] at hconcat
        rwa [scans_succ]
      | ends hkind hnext hagain =>
        refine .ended (Nat.lt_succ_self n) ?_ (fun i hle hlt => ?_) hkind hagain
        · rwa [hnext, hsettled]
        · rw [Nat.le_antisymm hle (Nat.le_of_lt_succ hlt)]
    | @ended k token hk htiles hsame hkind hagain =>
      -- the lexer does not move any more
      have hscan := scanToken_of_emit hagain
      rw [scanToken_afterScans] at hscan
      obtain ⟨htoken, hnext⟩ := Prod.mk.inj hscan
      refine .ended (Nat.lt_succ_of_lt hk) (by rwa [hnext]) (fun i hle hlt => ?_) hkind
        (by rwa [hnext])
      rcases Nat.lt_succ_iff_lt_or_eq.1 hlt with hlt | rfl
      · exact hsame i hle hlt
      · exact htoken

/-- The first `n` tokens cover the input up to an offset: they follow one another from the start of
the input, none of them is empty, and their lexemes together are the text up to the offset. -/
structure Covers (g : Grammar) (l : Lexer) (n stop : Nat) : Prop where
  tiles : Tiles 0 (l.scans g n) stop
  lexemes : ∃ lexemes, (l.scans g n).mapM (·.lexeme? l.buffer) = some lexemes ∧
    l.buffer.slice? ⟨0, stop⟩ = some (String.join lexemes)

theorem covers_of_tiles (hg : g.WellFormed) {n stop : Nat}
    (h : Tiles 0 (l.reset.scans g n) stop) : Covers g l.reset n stop := by
  have hfits : ∀ t ∈ l.reset.scans g n, t.Fits g l.buffer := by
    intro t ht
    obtain ⟨i, -, rfl⟩ := mem_scans.1 ht
    exact (Fits.reset g l).scanAt hg i
  exact ⟨h, h.exists_lexemes ⟨[], l.buffer.chars, rfl, rfl⟩ hfits⟩

theorem afterScans_of_scanStep_self {n : Nat}
    (hagain : (l.afterScans g n).scanStep g = .emit token (l.afterScans g n)) (d : Nat) :
    l.scanAt g (n + d) = token ∧ l.afterScans g (n + d) = l.afterScans g n := by
  have hscan := scanToken_of_emit hagain
  induction d with
  | zero => exact ⟨congrArg Prod.fst hscan, rfl⟩
  | succ d ih =>
    have hnext : l.afterScans g (n + (d + 1)) = l.afterScans g n := by
      have hstep : l.afterScans g (n + (d + 1)) = ((l.afterScans g (n + d)).scanToken g).2 := rfl
      rw [hstep, ih.2, hscan]
    refine ⟨?_, hnext⟩
    rw [scanAt, hnext, hscan]

/-- **Scanning is lossless.**  As long as no token is of an end of the input, the tokens cover the
input up to the cursor, and no group is open.  An empty token is the end of the input, and so are
all tokens after it; those before it cover the input up to the outermost open group. -/
theorem lossless (hg : g.Loaded) (l : Lexer) (n : Nat) :
    ((∀ i, i < n → g.hasKind (l.reset.scanAt g i).symbol .endOfFile = false) →
      Covers g l.reset n (l.reset.afterScans g n).cursor.offset ∧
        (l.reset.afterScans g n).groups = []) ∧
    ((l.reset.scanAt g n).span.isEmpty = true →
      (l.reset.scanAt g n).symbol = g.eofSymbol ∧
      (l.reset.scanAt g n).span = .empty l.buffer.byteLength ∧
      (l.reset.afterScans g (n + 1)).cursor.offset = l.buffer.byteLength ∧
      (∃ k, k ≤ n ∧ Covers g l.reset k (l.reset.afterScans g (n + 1)).settled ∧
        ∀ i, k ≤ i → i ≤ n → l.reset.scanAt g i = l.reset.scanAt g n) ∧
      ∀ m, n < m → l.reset.scanAt g m = l.reset.scanAt g n ∧
        l.reset.afterScans g m = l.reset.afterScans g (n + 1)) := by
  have hwf := hg.wellFormed
  constructor
  · intro hkinds
    cases progress hwf l n with
    | going hgroups htiles => exact ⟨covers_of_tiles hwf htiles, hgroups⟩
    | @ended k token hk _ hsame hkind _ =>
      have hnot := hkinds k hk
      rw [hsame k (Nat.le_refl k) hk, hkind] at hnot
      cases hnot
  · intro hempty
    cases progress hwf l (n + 1) with
    | going _ htiles =>
      -- no token of a cover is empty
      have hmem : l.reset.scanAt g n ∈ l.reset.scans g (n + 1) :=
        mem_scans.2 ⟨n, Nat.lt_succ_self n, rfl⟩
      have hlt := htiles.span_start_lt hmem
      rw [Span.isEmpty, beq_iff_eq] at hempty
      exact absurd hempty (Nat.ne_of_lt hlt)
    | @ended k token hk htiles hsame _ hagain =>
      have htoken := hsame n (Nat.le_of_lt_succ hk) (Nat.lt_succ_self n)
      obtain ⟨hfits, hbuffer⟩ := (Fits.reset g l).afterScans hwf (n + 1)
      have heof := hfits.eof_of_scanStep_self hwf hagain (htoken ▸ hempty)
      rw [hbuffer] at heof
      rw [htoken]
      refine ⟨heof.1, heof.2.1, heof.2.2, ⟨k, Nat.le_of_lt_succ hk, covers_of_tiles hwf htiles,
        fun i hle hlt => hsame i hle (Nat.lt_succ_of_le hlt)⟩, fun m hm => ?_⟩
      obtain ⟨d, rfl⟩ := Nat.exists_eq_add_of_le (Nat.succ_le_of_lt hm)
      exact afterScans_of_scanStep_self hagain d

set_option maxRecDepth 10000 in
/-- A word and a blank before a comment that is not closed: two tokens cover the input up to the
comment, and then comes the end of the input. -/
theorem lossless_comments :
    ∃ g, Grammar.ofBytes Sample.comments.toBytes = .ok g ∧ ∃ l : Lexer,
      l = ({} : Lexer).load (.owned "a /*é") ∧
      (Covers g l.reset 2 2 ∧ (l.reset.afterScans g 2).groups = []) ∧
      (l.reset.scanAt g 2).symbol = g.eofSymbol ∧ (l.reset.scanAt g 2).span = .empty 6 ∧
      (l.reset.afterScans g 3).settled = 2 ∧
      ∀ m, 2 < m → l.reset.afterScans g m = l.reset.afterScans g 3 := by
  generalize hl : ({} : Lexer).load (.owned "a /*é") = l
  have hcheck : Grammar.loadsWith Sample.comments.toBytes (fun g =>
      ((List.range 2).all fun i => !g.hasKind (l.reset.scanAt g i).symbol .endOfFile) &&
        (l.reset.scanAt g 2).span.isEmpty && (l.reset.afterScans g 2).cursor.offset == 2 &&
        (l.reset.afterScans g 3).settled == 2) = true := by
    rw [← hl]
    decide +kernel
  obtain ⟨g, hload, hg⟩ := Grammar.exists_of_loadsWith hcheck
  simp only [Bool.and_eq_true, beq_iff_eq, List.all_eq_true, List.mem_range,
    Bool.not_eq_true'] at hg
  obtain ⟨⟨⟨hkinds, hempty⟩, hoffset⟩, hsettled⟩ := hg
  obtain ⟨hcovers, hends⟩ := lossless (.ofBytes hload) l 2
  obtain ⟨hsymbol, hspan, -, -, hlater⟩ := hends hempty
  have hfront := hcovers hkinds
  rw [hoffset] at hfront
  have hlength : l.buffer.byteLength = 6 := by
    rw [← hl]
    decide
  rw [hlength] at hspan
  exact ⟨g, hload, l, rfl, hfront, hsymbol, hspan, hsettled, fun m hm => (hlater m hm).2⟩

end Lexer

end CompiledGrammar
