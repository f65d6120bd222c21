import CompiledGrammar.Proofs.Lexer.Reachable

/-!
# Scanning comes to an end

`Lexer.scanToken` and `Lexer.readToken` stop where going on would be of no use: at a match that is
empty.  The loops of this module do not.  A round of `Lexer.scanWithin?` considers one match by its
symbol alone (`Lexer.scanStep?`), and a round of `Lexer.readWithin?` scans one token and goes on if
it is noise; all that stops them is the number of rounds they are given.

What makes them come to an end is `Lexer.pending`: two for each character that is left, and one for
each open group.  Opening a group adds to the groups and takes a match that is not empty from the
input, closing one may leave the input as it is, and noise is never empty.  So each round of either
loop that does not end it lessens what is pending, and more rounds than that are never needed
(`Lexer.loops_end`).
-/

namespace CompiledGrammar

namespace Lexer

/-- The next token, noise included, if at most `n` matches need to be considered for it. -/
def scanWithin? (g : Grammar) : Nat → Lexer → Option (Token × Lexer)
  | 0, _ => none
  | n + 1, l =>
    match l.scanStep? g with
    | none => none
    | some (.emit token next) => some (token, next)
    | some (.resume _ next) => scanWithin? g n next

/-- The next token that is not noise, if it is among the next `n` tokens and none of those takes
more than `m` matches. -/
def readWithin? (g : Grammar) (m : Nat) : Nat → Lexer → Option (Token × Lexer)
  | 0, _ => none
  | n + 1, l =>
    match scanWithin? g m l with
    | none => none
    | some (token, next) =>
      match g.symbols[token.symbol]? with
      | none => none
      | some symbol =>
        if symbol.kind = .noise then readWithin? g m n next else some (token, next)

variable {g : Grammar} {l : Lexer} {m n : Nat}

/-- Scanning takes no more rounds than there is pending, and one. -/
theorem Fits.scanWithin?_eq (hg : g.WellFormed) (h : l.Fits g) (hn : l.pending < n) :
    scanWithin? g n l = some (l.scanToken g) := by
  induction n generalizing l with
  | zero => exact absurd hn (Nat.not_lt_zero _)
  | succ n ih =>
    have hfits := h.scanStep hg
    rw [scanWithin?, scanStep?_eq hg h]
    cases hstep : l.scanStep g with
    | emit token next => rw [scanToken_of_emit hstep]
    | resume token next =>
      rw [hstep] at hfits
      have hlt := pending_lt_of_scanStep hstep
      rw [scanToken_of_resume hstep]
      exact ih hfits.2 (Nat.lt_of_lt_of_le hlt (Nat.le_of_lt_succ hn))

/-- Noise is never empty, so that reading goes on after a token exactly if its symbol is noise. -/
theorem Fits.goesOn_iff (hg : g.WellFormed) (h : l.Fits g) {symbol : Symbol}
    (hsymbol : g.symbols[(l.scanToken g).1.symbol]? = some symbol) :
    (g.hasKind (l.scanToken g).1.symbol .noise = true ∧
      (l.scanToken g).1.span.isEmpty = false) ↔ symbol.kind = .noise := by
  have hempty := isEmpty_scanToken_of_noise hg h
  rw [Grammar.hasKind_of_getElem? hsymbol, beq_iff_eq] at hempty ⊢
  exact ⟨And.left, fun hnoise => ⟨hnoise, hempty hnoise⟩⟩

/-- Reading takes no more tokens than there is pending, and one. -/
theorem Fits.readWithin?_eq (hg : g.WellFormed) (h : l.Fits g) (hm : l.pending < m)
    (hn : l.pending < n) : readWithin? g m n l = some (l.readToken g) := by
  induction n generalizing l with
  | zero => exact absurd hn (Nat.not_lt_zero _)
  | succ n ih =>
    obtain ⟨htoken, hnext, -⟩ := h.scanToken hg
    obtain ⟨symbol, hsymbol⟩ : ∃ symbol, g.symbols[(l.scanToken g).1.symbol]? = some symbol :=
      ⟨_, Array.getElem?_eq_getElem htoken.symbol⟩
    have hiff := h.goesOn_iff hg hsymbol
    rw [readWithin?, h.scanWithin?_eq hg hm]
    dsimp only
    rw [hsymbol, Lexer.readToken]
    dsimp only
    by_cases hnoise : symbol.kind = .noise
    · obtain ⟨hkind, hspan⟩ := hiff.2 hnoise
      have hlt := pending_lt_of_scanToken rfl hkind hspan
      rw [if_pos hnoise, dif_pos (hiff.2 hnoise)]
      exact ih hnext (Nat.lt_trans hlt hm) (Nat.lt_of_lt_of_le hlt (Nat.le_of_lt_succ hn))
    · rw [if_neg hnoise, dif_neg (mt hiff.1 hnoise)]

/-- **Both loops come to an end.**  Whatever the lexical automaton and the groups of a loaded
grammar are like, and wherever a lexer has come to, two rounds for each character that is left of
the input, one for each open group and one more are enough for scanning, and as many tokens for
reading. -/
theorem loops_end (hg : g.Loaded) {lineTerminator : UInt8} (h : l.Reachable g lineTerminator)
    (hm : 2 * l.cursor.rest.length + l.groups.length < m)
    (hn : 2 * l.cursor.rest.length + l.groups.length < n) :
    scanWithin? g m l = some (l.scanToken g) ∧ readWithin? g m n l = some (l.readToken g) := by
  have hfits := h.fits hg.wellFormed
  exact ⟨hfits.scanWithin?_eq hg.wellFormed hm, hfits.readWithin?_eq hg.wellFormed hm hn⟩

set_option maxRecDepth 10000 in
/-- Inside of a line comment, right before the newline that closes it and is left in the input: four
rounds are enough to scan the comment, and four tokens to read the newline after it. -/
theorem loops_end_newline :
    ∃ g, Grammar.ofBytes Sample.comments.toBytes = .ok g ∧ ∃ l : Lexer,
      l = ((({} : Lexer).load (.owned "//\n")).scanStep g).next ∧
      2 * l.cursor.rest.length + l.groups.length = 3 ∧
      (∃ next, scanWithin? g 4 l = some (⟨8, ⟨0, 2⟩, .first⟩, next)) ∧
      ∃ next, readWithin? g 4 4 l = some (⟨3, ⟨2, 3⟩, ⟨1, 3⟩⟩, next) := by
  generalize hstart : ({} : Lexer).load (.owned "//\n") = start
  have hcheck : Grammar.loadsWith Sample.comments.toBytes (fun g =>
      let l := (start.scanStep g).next
      2 * l.cursor.rest.length + l.groups.length == 3 &&
        ((l.scanToken g).1 == ⟨8, ⟨0, 2⟩, .first⟩ &&
          (l.readToken g).1 == ⟨3, ⟨2, 3⟩, ⟨1, 3⟩⟩)) = true := by
    rw [← hstart]
    decide +kernel
  obtain ⟨g, hload, hg⟩ := Grammar.exists_of_loadsWith hcheck
  simp only [Bool.and_eq_true, beq_iff_eq] at hg
  obtain ⟨hpending, hscan, hread⟩ := hg
  have hreachable : (start.scanStep g).next.Reachable g defaultLineTerminator :=
    hstart ▸ (Reachable.new.load _).scanStep
  generalize hl : (start.scanStep g).next = l at hpending hscan hread hreachable
  have hlt : 2 * l.cursor.rest.length + l.groups.length < 4 := hpending ▸ Nat.lt_succ_self 3
  obtain ⟨hscans, hreads⟩ := loops_end (.ofBytes hload) hreachable hlt hlt
  refine ⟨g, hload, l, hl.symm, hpending, ⟨(l.scanToken g).2, ?_⟩, (l.readToken g).2, ?_⟩
  · rw [hscans, ← hscan]
  · rw [hreads, ← hread]

end Lexer

end CompiledGrammar
