import CompiledGrammar.Proofs.Lexer.SingleLexeme

/-!
# Delimiters

The longest match at a place depends on the whole lexical automaton.  For some symbols it does not:
if a symbol has a single lexeme, and no lexeme of any symbol goes on after it, then the symbol
matches where the text goes on with the lexeme (`Grammar.IsDelimiter.nextMatch_eq`), and nowhere
else (`Grammar.IsDelimiter.isPrefix`).

`Grammar.checkDelimiter` is a check for this, given the walk of the automaton that spells the
lexeme.
-/

namespace CompiledGrammar

namespace Grammar

variable {g : Grammar} {q next : DfaState} {symbol : SymbolIdx} {w v cs : List Char}
  {walk : List Nat} {i : DfaStateIdx}

/-- The text is accepted as the symbol, no other text is, and no text that goes on after it is
accepted at all. -/
structure IsDelimiter (g : Grammar) (q : DfaState) (symbol : SymbolIdx) (w : List Char) :
    Prop where
  ne_nil : w ≠ []
  ne_error : symbol ≠ g.errorSymbol
  ne_eof : symbol ≠ g.eofSymbol
  accepted : g.symbolOf? q w = some symbol
  only : ∀ v, v ≠ [] → g.symbolOf? q v = some symbol → v = w
  last : ∀ v, v ≠ [] → g.symbolOf? q (w ++ v) = none

theorem reach_append : g.reach q (w ++ v) = (g.reach q w).bind fun next => g.reach next v :=
  List.foldlM_append

/-- A state without edges leads nowhere. -/
theorem Loaded.dfaStep_of_edges_eq_nil (hg : g.Loaded) (hq : q ∈ g.dfaStates) (h : q.edges = [])
    {c : Char} : g.dfaStep q c = none := by
  by_contra hlive
  obtain ⟨next, hnext⟩ := Option.ne_none_iff_exists'.1 hlive
  obtain ⟨k, e, hedge, -, -⟩ := hg.exists_edge_of_dfaStep hq hnext
  rw [SinglePath.edge?, getElem?_dfaRows, hg.wellFormed.getElem?_dfaStates hq, Option.map_some,
    Option.bind_some, h] at hedge
  cases hedge

/-- A delimiter is what matches where the text goes on with it. -/
theorem IsDelimiter.nextMatch_eq (h : g.IsDelimiter q symbol w)
    (hq : g.dfaStates[g.dfaInitial]? = some q) (cs : List Char) :
    g.nextMatch (w ++ cs) = (symbol, w.length) := by
  have hlongest : g.IsLongest q (w ++ cs) w symbol := by
    refine ⟨List.prefix_append w cs, h.ne_nil, h.accepted, fun v hv hlt => ?_⟩
    obtain ⟨u, rfl⟩ :=
      List.prefix_of_prefix_length_le (List.prefix_append w cs) hv (Nat.le_of_lt hlt)
    refine h.last u fun hu => ?_
    rw [hu, List.append_nil] at hlt
    exact Nat.lt_irrefl _ hlt
  obtain ⟨s, v, hmatch, hnext⟩ := exists_match hq (w ++ cs)
  obtain ⟨rfl, rfl⟩ := (Match.accepted hlongest).unique hmatch
  exact hnext

/-- The symbol of a delimiter matches nowhere else. -/
theorem IsDelimiter.isPrefix (h : g.IsDelimiter q symbol w)
    (hq : g.dfaStates[g.dfaInitial]? = some q) (hsymbol : (g.nextMatch cs).1 = symbol) :
    w <+: cs := by
  obtain ⟨s, v, hmatch, hnext⟩ := exists_match hq cs
  rw [hnext] at hsymbol
  subst hsymbol
  cases hmatch with
  | accepted hlongest =>
    rw [← h.only v hlongest.ne_nil hlongest.symbol]
    exact hlongest.isPrefix
  | error => exact absurd rfl h.ne_error
  | ends => exact absurd rfl h.ne_eof

/-- The only walk to a state spells a delimiter if it spells the symbol and leads no further. -/
theorem Spells.isDelimiter (h : g.Spells symbol walk i) (hg : g.Loaded)
    (hwalk : SinglePath.IsOnlyWalk g.dfaRows g.dfaInitial walk i)
    (hstuck : ∀ q, g.dfaStates[i]? = some q → q.edges = [])
    (hq : g.dfaStates[g.dfaInitial]? = some q) (hne : w ≠ []) (herror : symbol ≠ g.errorSymbol)
    (heof : symbol ≠ g.eofSymbol) (haccepted : g.symbolOf? q w = some symbol) :
    g.IsDelimiter q symbol w := by
  have hlexeme (v : List Char) (hv : v ≠ []) (hsymbol : g.symbolOf? q v = some symbol) :
      g.HasLexeme symbol (String.ofList v) :=
    (hasLexeme_iff hq).2 ⟨by simpa using hv, by simpa using hsymbol⟩
  refine ⟨hne, herror, heof, haccepted, fun v hv hsymbol => ?_, fun v hv => ?_⟩
  · exact String.ofList_injective (hg.lexemesAgree hwalk h _ _ (hlexeme v hv hsymbol)
      (hlexeme w hne haccepted))
  · -- the state that the text leads to has no edges
    obtain ⟨last, hreach, hlast⟩ := Option.bind_eq_some_iff.1 haccepted
    obtain ⟨hmem, path, hfollow, -⟩ :=
      hg.exists_walk_of_reach (Array.mem_of_getElem? hq) hreach
    have hget := hg.wellFormed.getElem?_dfaStates hmem
    rw [hg.wellFormed.dfaIndex _ _ hq] at hfollow
    have hindex : last.index = i := by
      refine h.only _ ⟨path, hfollow⟩ ?_
      rw [SinglePath.Accepts, getElem?_dfaRows, hget]
      exact hlast
    have hedges := hstuck last (hindex ▸ hget)
    obtain ⟨c, v, rfl⟩ := List.exists_cons_of_ne_nil hv
    rw [symbolOf?, reach_append, hreach, Option.bind_some, reach_cons,
      hg.dfaStep_of_edges_eq_nil hmem hedges]
    rfl

/-- A check for delimiters: the symbol counts as having a single lexeme, only the state that the
walk leads to accepts it, and leads no further, and the edges of the walk are of one character
each. -/
def checkDelimiter (g : Grammar) (symbol : SymbolIdx) (w : List Char) (walk : List Nat) : Bool :=
  g.symbols[symbol]?.any (·.singleLexeme) && symbol != g.errorSymbol && symbol != g.eofSymbol &&
    ((SinglePath.follow g.dfaRows g.dfaInitial walk).any fun i =>
      (g.dfaStates[i]?.any fun q => q.edges.isEmpty) &&
        (List.range g.dfaRows.length).all fun j =>
          decide (SinglePath.Accepts g.dfaRows symbol j → j = i)) &&
    ((SinglePath.edgesAlong g.dfaRows g.dfaInitial walk).all fun e =>
      (g.charsetRanges e.charset).head?.any fun r =>
        g.charsetRanges e.charset == [⟨r.first, r.first⟩] && decide (r.first.toNat < 0xFFFF)) &&
    g.dfaStates[g.dfaInitial]?.any fun q => !w.isEmpty && g.symbolOf? q w == some symbol

theorem isDelimiter_of_check (hg : g.Loaded) (hq : g.dfaStates[g.dfaInitial]? = some q)
    (h : g.checkDelimiter symbol w walk = true) : g.IsDelimiter q symbol w := by
  simp only [checkDelimiter, Bool.and_eq_true, Option.any_eq_true, bne_iff_ne, List.all_eq_true,
    List.mem_range, decide_eq_true_eq, beq_iff_eq, hq, Option.some.injEq] at h
  obtain ⟨⟨⟨⟨⟨⟨s, hs, hsingle⟩, herror⟩, heof⟩, i, hfollow, ⟨last, hlast, hedges⟩, honly⟩,
    hnarrow⟩, _, rfl, hne, haccepted⟩ := h
  have hindex : s.index = symbol := hg.wellFormed.symbolIndex symbol s hs
  have haccepts {j : DfaStateIdx} (hj : SinglePath.Accepts g.dfaRows symbol j) : j = i := by
    obtain ⟨row, hrow, -⟩ := Option.bind_eq_some_iff.1 hj
    exact honly j (List.getElem?_eq_some_iff.1 hrow).1 hj
  obtain ⟨j, ⟨hj, path, hwalk⟩, -⟩ :=
    (hg.singleLexeme_iff (Array.mem_of_getElem? hs)).1 hsingle
  rw [hindex] at hj
  obtain rfl := haccepts hj
  obtain rfl := hwalk.2 walk hfollow
  have hspells : g.Spells symbol walk j := by
    refine ⟨fun k _ hk => haccepts hk, fun e he => ?_⟩
    obtain ⟨r, -, hr, hlt⟩ := hnarrow e he
    exact isNarrow_of_charsetRanges hr hlt
  refine hspells.isDelimiter hg hwalk (fun p hp => ?_) hq (by simpa using hne) herror heof haccepted
  obtain rfl := Option.some.inj (hlast.symm.trans hp)
  simpa using hedges

end Grammar

end CompiledGrammar
