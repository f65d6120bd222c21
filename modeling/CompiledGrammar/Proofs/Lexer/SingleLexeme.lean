import CompiledGrammar.Proofs.Lexer.LongestMatch

/-!
# Symbols with a single lexeme

A symbol counts as having a single lexeme if one state that a single walk leads to accepts it, and
no other such state does (`Grammar.Loaded.singleLexeme_iff`).  Here that is compared with the
lexemes of its tokens.

* The lexemes of a symbol are the texts that the automaton accepts as the symbol
  (`Grammar.hasLexeme_iff`).
* A text takes the edges of a walk, one for each of its characters (`Grammar.Takes`), and it is
  accepted where the walk leads (`Grammar.Loaded.exists_walk_of_reach`).

So a single walk fixes a lexeme as far as its edges do, and says nothing about walks to other states
that accept the symbol.  `Grammar.Spells` asks for both: no other state, and edges of one character
each.  Then the lexemes are equal, and if every edge can be taken and no two overlap
(`Grammar.IsProper`), they are equal only then (`Grammar.Loaded.lexemes_of_singleLexeme`).

What is not asked for leaves room for a second lexeme: a class of characters, a second state, and
the last code point that a table can name, by which all characters beyond it go as well
(`Grammar.lexemes_marks`).
-/

namespace CompiledGrammar

namespace SinglePath

/-- The edges along a walk. -/
def edgesAlong (states : List DfaRow) : DfaStateIdx → List Nat → List Edge
  | _, [] => []
  | i, k :: walk =>
    match edge? states i k with
    | some e => e :: edgesAlong states e.target walk
    | none => []

end SinglePath

namespace Grammar

variable {g : Grammar} {q next : DfaState} {c : Char} {w v : List Char} {i : DfaStateIdx}
  {walk : List Nat}

/-! ### Texts along walks -/

/-- The text takes the edges of a walk from a state, one for each character. -/
inductive Takes (g : Grammar) : DfaStateIdx → List Nat → List Char → Prop where
  /-- No character takes no edge. -/
  | nil {i : DfaStateIdx} : Takes g i [] []
  /-- A character takes an edge whose set it is in. -/
  | cons {i : DfaStateIdx} {k : Nat} {walk : List Nat} {e : Edge} {c : Char} {cs : List Char} :
      SinglePath.edge? g.dfaRows i k = some e → g.InCharset e.charset (dfaCode c) →
      Takes g e.target walk cs → Takes g i (k :: walk) (c :: cs)

/-- The set is of one character at most. -/
def IsNarrow (g : Grammar) (i : CharSetIdx) : Prop :=
  ∀ c d : Char, g.InCharset i (dfaCode c) → g.InCharset i (dfaCode d) → c = d

/-- A set of one code point is of one character, unless it is the code point by which all characters
beyond it go. -/
theorem isNarrow_of_charsetRanges {i : CharSetIdx} {x : UInt16} (h : g.charsetRanges i = [⟨x, x⟩])
    (hx : x.toNat < 0xFFFF) : g.IsNarrow i := by
  have hcode (c : Char) (hc : g.InCharset i (dfaCode c)) : c.toNat = x.toNat := by
    obtain ⟨r, hr, hfirst, hlast⟩ := hc
    rw [h, List.mem_singleton] at hr
    subst hr
    simp only [dfaCode] at hfirst hlast
    omega
  intro c d hc hd
  exact Char.toNat_inj.1 ((hcode c hc).trans (hcode d hd).symm)

theorem Takes.ne_nil (h : g.Takes i walk w) (hwalk : walk ≠ []) : w ≠ [] := by
  rintro rfl
  cases h
  exact hwalk rfl

/-- If its edges are of one character each, only one text takes a walk. -/
theorem Takes.unique (h : g.Takes i walk w) (h' : g.Takes i walk v)
    (hnarrow : ∀ e ∈ SinglePath.edgesAlong g.dfaRows i walk, g.IsNarrow e.charset) : w = v := by
  induction h generalizing v with
  | nil =>
    cases h'
    rfl
  | cons hedge hc _ ih =>
    rw [SinglePath.edgesAlong, hedge] at hnarrow
    cases h' with
    | cons hedge' hd hrest' =>
      obtain rfl := Option.some.inj (hedge.symm.trans hedge')
      obtain ⟨hfirst, hothers⟩ := List.forall_mem_cons.1 hnarrow
      rw [hfirst _ _ hc hd, ih hrest' hothers]

theorem WellFormed.getElem?_dfaStates (hg : g.WellFormed) (hq : q ∈ g.dfaStates) :
    g.dfaStates[q.index]? = some q := by
  obtain ⟨i, hi⟩ := Array.getElem?_of_mem hq
  rw [hg.dfaIndex i q hi, hi]

/-- A character that leads to a state takes an edge to it. -/
theorem Loaded.exists_edge_of_dfaStep (hg : g.Loaded) (hq : q ∈ g.dfaStates)
    (h : g.dfaStep q c = some next) : ∃ k e, SinglePath.edge? g.dfaRows q.index k = some e ∧
      g.InCharset e.charset (dfaCode c) ∧ e.target = next.index := by
  have hlive : q.lookup.transition (dfaCode c) ≠ .dead := by
    intro hdead
    rw [(hg.wellFormed.dfaStep_eq_none_iff hq).2 hdead] at h
    cases h
  obtain ⟨e, he, hmem, hedge⟩ := hg.exists_edge_of_ne_dead hq hlive
  obtain ⟨k, hk⟩ := List.mem_iff_getElem?.1 he
  refine ⟨k, e, ?_, hmem, ?_⟩
  · rw [SinglePath.edge?, getElem?_dfaRows, hg.wellFormed.getElem?_dfaStates hq]
    exact hk
  · by_cases hloop : e.target = q.index
    · have hstay : some q = some next := by
        rw [← h, dfaStep, hedge, Lookup.edgeTransition, if_pos hloop]
        cases q.accept.isSome <;> rfl
      rw [hloop, Option.some.inj hstay]
    · rw [dfaStep, hedge, Lookup.edgeTransition, if_neg hloop] at h
      exact (hg.wellFormed.dfaIndex _ _ h).symm

/-- A text that leads to a state takes the edges of a walk there. -/
theorem Loaded.exists_walk_of_reach (hg : g.Loaded) (hq : q ∈ g.dfaStates)
    (h : g.reach q w = some next) : next ∈ g.dfaStates ∧
      ∃ walk, SinglePath.follow g.dfaRows q.index walk = some next.index ∧
        g.Takes q.index walk w := by
  induction w generalizing q with
  | nil =>
    obtain rfl : q = next := Option.some.inj h
    exact ⟨hq, [], rfl, .nil⟩
  | cons c w ih =>
    rw [reach_cons, Option.bind_eq_some_iff] at h
    obtain ⟨mid, hstep, hrest⟩ := h
    have hmid : mid ∈ g.dfaStates :=
      Array.mem_toList_iff.1 (Lexer.dfaStep_mem (Array.mem_toList_iff.2 hq) hstep)
    obtain ⟨hnext, walk, hfollow, htakes⟩ := ih hmid hrest
    obtain ⟨k, e, hedge, hc, htarget⟩ := hg.exists_edge_of_dfaStep hq hstep
    rw [← htarget] at hfollow htakes
    refine ⟨hnext, k :: walk, ?_, .cons hedge hc htakes⟩
    rw [SinglePath.follow, hedge]
    exact hfollow

/-! ### Proper automata -/

/-- Every edge of the lexical automaton can be taken, and no code point is in two ranges of a
state. -/
structure IsProper (g : Grammar) : Prop where
  apart : ∀ s ∈ g.dfaRows,
    (Lookup.edgeRanges g.charsetRanges s).Pairwise TransitionRange.Apart
  inhabited : ∀ s ∈ g.dfaRows, ∀ e ∈ s.edges, ∃ c : Char, g.InCharset e.charset (dfaCode c)

/-- A check for proper automata: of two ranges of a state one ends before the other starts, and each
set has the first character of a range. -/
def checkProper (g : Grammar) : Bool :=
  g.dfaRows.all fun s =>
    decide ((Lookup.edgeRanges g.charsetRanges s).Pairwise fun r s =>
      r.last < s.first ∨ s.last < r.first) &&
    s.edges.all fun e => (g.charsetRanges e.charset).any fun r =>
      decide (g.InCharset e.charset (dfaCode (Char.ofNat r.first.toNat)))

theorem isProper_of_check (h : g.checkProper = true) : g.IsProper := by
  simp only [checkProper, List.all_eq_true, Bool.and_eq_true, decide_eq_true_eq,
    List.any_eq_true] at h
  refine ⟨fun s hs => (h s hs).1.imp TransitionRange.apart_of_lt, fun s hs e he => ?_⟩
  obtain ⟨r, -, hr⟩ := (h s hs).2 e he
  exact ⟨_, hr⟩

namespace IsProper

variable {k k' : Nat} {e e' : Edge} {j : DfaStateIdx} {other : List Nat}

theorem exists_char (h : g.IsProper) (hedge : SinglePath.edge? g.dfaRows i k = some e) :
    ∃ c : Char, g.InCharset e.charset (dfaCode c) := by
  obtain ⟨s, hs, hk⟩ := Option.bind_eq_some_iff.1 hedge
  exact h.inhabited s (List.mem_of_getElem? hs) e (List.mem_of_getElem? hk)

/-- A code point is in the set of one edge only. -/
theorem unique_edge (h : g.IsProper) (hedge : SinglePath.edge? g.dfaRows i k = some e)
    (hedge' : SinglePath.edge? g.dfaRows i k' = some e') {c : Nat}
    (hc : g.InCharset e.charset c) (hc' : g.InCharset e'.charset c) : k' = k := by
  obtain ⟨s, hs, hk⟩ := Option.bind_eq_some_iff.1 hedge
  obtain ⟨s', hs', hk'⟩ := Option.bind_eq_some_iff.1 hedge'
  obtain rfl := Option.some.inj (hs.symm.trans hs')
  have hapart := (List.pairwise_flatMap.1 (h.apart s (List.mem_of_getElem? hs))).2
  have hnot {k k' : Nat} {e e' : Edge} (hk : s.edges[k]? = some e) (hk' : s.edges[k']? = some e')
      (hc : g.InCharset e.charset c) (hc' : g.InCharset e'.charset c) : ¬ k < k' := by
    intro hlt
    obtain ⟨hlen, rfl⟩ := List.getElem?_eq_some_iff.1 hk
    obtain ⟨hlen', rfl⟩ := List.getElem?_eq_some_iff.1 hk'
    obtain ⟨r, hr, hholds, -⟩ := hc.exists_holds (Lookup.edgeTransition s s.edges[k])
    obtain ⟨r', hr', hholds', -⟩ := hc'.exists_holds (Lookup.edgeTransition s s.edges[k'])
    exact List.pairwise_iff_getElem.1 hapart k k' hlen hlen' hlt r hr r' hr' c hholds hholds'
  exact Nat.le_antisymm (Nat.le_of_not_lt (hnot hk hk' hc hc'))
    (Nat.le_of_not_lt (hnot hk' hk hc' hc))

/-- A character leads along the edge whose set has it. -/
theorem dfaStep_eq (h : g.IsProper) (hg : g.Loaded)
    (hedge : SinglePath.edge? g.dfaRows q.index k = some e) (hq : q ∈ g.dfaStates)
    (hc : g.InCharset e.charset (dfaCode c)) : g.dfaStep q c = g.dfaStates[e.target]? := by
  have hget := hg.wellFormed.getElem?_dfaStates hq
  have hrow : g.dfaRows[q.index]? = some q.toDfaRow := by rw [getElem?_dfaRows, hget]; rfl
  rw [SinglePath.edge?, hrow, Option.bind_some] at hedge
  obtain ⟨r, hr, hholds, htarget⟩ := exists_holds_iff.2 ⟨e, List.mem_of_getElem? hedge, hc, rfl⟩
  rw [dfaStep, hg.lookup_eq hq,
    Lookup.transition_of_holds (h.apart _ (List.mem_of_getElem? hrow)) hr hholds, htarget,
    Lookup.edgeTransition]
  by_cases hloop : e.target = q.index
  · rw [if_pos hloop, hloop, hget]
    cases q.accept.isSome <;> rfl
  · rw [if_neg hloop]

/-- A text leads where a walk does whose edges it takes. -/
theorem reach_of_takes (h : g.IsProper) (hg : g.Loaded) (hq : q ∈ g.dfaStates)
    (htakes : g.Takes q.index walk w)
    (hfollow : SinglePath.follow g.dfaRows q.index walk = some j) :
    g.reach q w = g.dfaStates[j]? := by
  generalize hi : q.index = i at htakes hfollow
  induction htakes generalizing q with
  | nil =>
    rw [← Option.some.inj hfollow, ← hi, hg.wellFormed.getElem?_dfaStates hq]
    rfl
  | cons hedge hc _ ih =>
    subst hi
    rw [SinglePath.follow, hedge, Option.bind_some] at hfollow
    rw [reach_cons, h.dfaStep_eq hg hedge hq hc]
    have htarget := hg.wellFormed.lt_of_mem_targets q.index _
      (List.mem_of_getElem? (by rw [SinglePath.getElem?_targets, hedge]; rfl))
    rw [dfaRows, List.length_map, Array.length_toList] at htarget
    have hnext := Array.getElem?_eq_getElem htarget
    rw [hnext, Option.bind_some]
    exact ih (Array.getElem_mem htarget) (hg.wellFormed.dfaIndex _ _ hnext) hfollow

/-- A text takes the edges of one walk only. -/
theorem unique_walk (h : g.IsProper) (htakes : g.Takes i walk w) (hother : g.Takes i other w) :
    other = walk := by
  induction htakes generalizing other with
  | nil =>
    cases hother
    rfl
  | cons hedge hc _ ih =>
    cases hother with
    | cons hedge' hc' hrest' =>
      obtain rfl := h.unique_edge hedge hedge' hc hc'
      obtain rfl := Option.some.inj (hedge.symm.trans hedge')
      rw [ih hrest']

/-- Some text takes the edges of a walk. -/
theorem exists_takes (h : g.IsProper) (hfollow : SinglePath.follow g.dfaRows i walk = some j) :
    ∃ w, g.Takes i walk w := by
  induction walk generalizing i with
  | nil => exact ⟨[], .nil⟩
  | cons k walk ih =>
    rw [SinglePath.follow, Option.bind_eq_some_iff] at hfollow
    obtain ⟨e, hedge, hrest⟩ := hfollow
    obtain ⟨w, hw⟩ := ih hrest
    obtain ⟨c, hc⟩ := h.exists_char hedge
    exact ⟨c :: w, .cons hedge hc hw⟩

/-- Two texts take a walk along an edge of more than one character. -/
theorem exists_takes_ne (h : g.IsProper) (hfollow : SinglePath.follow g.dfaRows i walk = some j)
    (he : e ∈ SinglePath.edgesAlong g.dfaRows i walk) (hwide : ¬ g.IsNarrow e.charset) :
    ∃ w v, w ≠ v ∧ g.Takes i walk w ∧ g.Takes i walk v := by
  induction walk generalizing i with
  | nil => cases he
  | cons k walk ih =>
    rw [SinglePath.follow, Option.bind_eq_some_iff] at hfollow
    obtain ⟨e', hedge, hrest⟩ := hfollow
    rw [SinglePath.edgesAlong, hedge] at he
    rcases List.mem_cons.1 he with rfl | he
    · obtain ⟨w, hw⟩ := h.exists_takes hrest
      simp only [IsNarrow, not_forall] at hwide
      obtain ⟨c, d, hc, hd, hne⟩ := hwide
      exact ⟨c :: w, d :: w, fun heq => hne (List.cons.inj heq).1, .cons hedge hc hw,
        .cons hedge hd hw⟩
    · obtain ⟨w, v, hne, hw, hv⟩ := ih hrest he
      obtain ⟨c, hc⟩ := h.exists_char hedge
      exact ⟨c :: w, c :: v, fun heq => hne (List.cons.inj heq).2, .cons hedge hc hw,
        .cons hedge hc hv⟩

end IsProper

end Grammar

/-! ### Lexemes -/

/-- The next token is of a text that the automaton accepts, and neither an error nor the end of the
input. -/
def Lexer.Hits (g : Grammar) (l : Lexer) : Prop :=
  ∃ q found, g.dfaStates[g.dfaInitial]? = some q ∧
    (g.walk q l.cursor.rest).accepted = some found

namespace Grammar

variable {g : Grammar} {q : DfaState} {symbol : SymbolIdx} {lexeme : String}

/-- Somewhere in some input, the next token is of the symbol and has the lexeme. -/
def HasLexeme (g : Grammar) (symbol : SymbolIdx) (lexeme : String) : Prop :=
  ∃ l : Lexer, l.cursor.In l.buffer.chars ∧ l.Hits g ∧ (l.peek g).1.symbol = symbol ∧
    (l.peek g).1.lexeme? l.buffer = some lexeme

/-- The lexemes of a symbol are the texts that are accepted as it, and not empty. -/
theorem hasLexeme_iff (hq : g.dfaStates[g.dfaInitial]? = some q) :
    g.HasLexeme symbol lexeme ↔
      lexeme.toList ≠ [] ∧ g.symbolOf? q lexeme.toList = some symbol := by
  constructor
  · rintro ⟨l, hin, ⟨p, found, hp, hfound⟩, hsymbol, hlexeme⟩
    obtain rfl : p = q := Option.some.inj (hp.symm.trans hq)
    have haccepted := accepted_walk (g := g) p l.cursor.rest
    rw [hfound] at haccepted
    obtain ⟨w, hlen, hlongest⟩ := haccepted
    obtain ⟨rest, hrest⟩ := hlongest.isPrefix
    have hnext : g.nextMatch l.cursor.rest = (found.1, w.length) := by
      simp only [nextMatch, hq, hfound, hlen]
    rw [(Lexer.peek_of_nextMatch hrest.symm hnext).1] at hsymbol
    rw [Lexer.lexeme?_peek hin hrest.symm hnext, Option.some.injEq] at hlexeme
    rw [← hlexeme, String.toList_ofList, ← hsymbol]
    exact ⟨hlongest.ne_nil, hlongest.symbol⟩
  · rintro ⟨hne, hsymbol⟩
    -- the text on its own is an input with that token
    have hlongest : g.IsLongest q lexeme.toList lexeme.toList symbol :=
      ⟨List.prefix_rfl, hne, hsymbol, fun v hv hlt => absurd hv.length_le (Nat.not_le.2 hlt)⟩
    obtain ⟨t, v, hmatch, hnext⟩ := exists_match hq lexeme.toList
    obtain ⟨rfl, rfl⟩ := (Match.accepted hlongest).unique hmatch
    let l : Lexer := ({} : Lexer).load (.shared lexeme)
    have hrest : l.cursor.rest = lexeme.toList ++ [] := (List.append_nil _).symm
    have hin : l.cursor.In l.buffer.chars := Cursor.in_start _
    refine ⟨l, hin, ?_, ?_, ?_⟩
    · have haccepted := accepted_walk (g := g) q lexeme.toList
      cases hfound : (g.walk q lexeme.toList).accepted with
      | some found => exact ⟨q, found, hq, hfound⟩
      | none =>
        rw [hfound] at haccepted
        rw [haccepted _ List.prefix_rfl hne] at hsymbol
        cases hsymbol
    · rw [(Lexer.peek_of_nextMatch hrest hnext).1]
    · rw [Lexer.lexeme?_peek hin hrest hnext, String.ofList_toList]

/-- The texts that take a walk to a state that accepts the symbol are lexemes of it. -/
theorem IsProper.hasLexeme (h : g.IsProper) (hg : g.Loaded) {i : DfaStateIdx} {walk : List Nat}
    {w : List Char} (hfollow : SinglePath.follow g.dfaRows g.dfaInitial walk = some i)
    (haccept : SinglePath.Accepts g.dfaRows symbol i) (htakes : g.Takes g.dfaInitial walk w)
    (hwalk : walk ≠ []) : g.HasLexeme symbol (String.ofList w) := by
  have hq := Array.getElem?_eq_getElem hg.wellFormed.dfaInitial
  refine (hasLexeme_iff hq).2 ⟨by simpa using htakes.ne_nil hwalk, ?_⟩
  have hindex := hg.wellFormed.dfaIndex _ _ hq
  rw [← hindex] at hfollow htakes
  rw [String.toList_ofList, symbolOf?,
    h.reach_of_takes hg (Array.mem_of_getElem? hq) htakes hfollow]
  rwa [SinglePath.Accepts, getElem?_dfaRows, Option.bind_map] at haccept

/-- All lexemes of the symbol are equal. -/
def LexemesAgree (g : Grammar) (symbol : SymbolIdx) : Prop :=
  ∀ lexeme lexeme', g.HasLexeme symbol lexeme → g.HasLexeme symbol lexeme' → lexeme = lexeme'

/-- The walk spells the symbol: only the state that it leads to accepts the symbol, and its edges
are of one character each. -/
structure Spells (g : Grammar) (symbol : SymbolIdx) (walk : List Nat) (i : DfaStateIdx) : Prop where
  only : ∀ j, SinglePath.Leads g.dfaRows g.dfaInitial j →
    SinglePath.Accepts g.dfaRows symbol j → j = i
  narrow : ∀ e ∈ SinglePath.edgesAlong g.dfaRows g.dfaInitial walk, g.IsNarrow e.charset

/-- No walk leads back to the start, if there is only one to some state. -/
theorem eq_nil_of_isOnlyWalk {walk other : List Nat} {i : DfaStateIdx}
    (h : SinglePath.IsOnlyWalk g.dfaRows g.dfaInitial walk i)
    (hother : SinglePath.follow g.dfaRows g.dfaInitial other = some g.dfaInitial) :
    other = [] := by
  have hlonger : SinglePath.follow g.dfaRows g.dfaInitial (other ++ walk) = some i := by
    rw [SinglePath.follow_append, hother, Option.bind_some, h.1]
  exact List.append_left_eq_self.1 (h.2 _ hlonger)

/-- In a proper automaton, a state with several walks to it gives several lexemes, and so does an
edge of several characters. -/
theorem IsProper.spells (h : g.IsProper) (hg : g.Loaded) {walk : List Nat} {i : DfaStateIdx}
    (hwalk : SinglePath.IsOnlyWalk g.dfaRows g.dfaInitial walk i)
    (hi : SinglePath.IsSingleAccept g.dfaRows g.dfaInitial symbol i)
    (hunique : ∀ j, SinglePath.IsSingleAccept g.dfaRows g.dfaInitial symbol j → j = i)
    (hagree : g.LexemesAgree symbol) : g.Spells symbol walk i := by
  have hequal {path other : List Nat} {w v : List Char} {j : DfaStateIdx}
      (hj : SinglePath.Accepts g.dfaRows symbol j)
      (hpath : SinglePath.follow g.dfaRows g.dfaInitial path = some j)
      (hother : SinglePath.follow g.dfaRows g.dfaInitial other = some j)
      (hw : g.Takes g.dfaInitial path w) (hv : g.Takes g.dfaInitial other v)
      (hne : path ≠ []) (hne' : other ≠ []) : w = v :=
    String.ofList_injective (hagree _ _ (h.hasLexeme hg hpath hj hw hne)
      (h.hasLexeme hg hother hj hv hne'))
  refine ⟨fun j ⟨path, hpath⟩ hj => ?_, fun e he => ?_⟩
  · refine hunique j ⟨hj, path, hpath, fun other hother => ?_⟩
    obtain ⟨w, hw⟩ := h.exists_takes hpath
    obtain ⟨v, hv⟩ := h.exists_takes hother
    -- no walk is empty, unless both are
    by_cases hnil : path = []
    · subst hnil
      obtain rfl := Option.some.inj hpath
      exact eq_nil_of_isOnlyWalk hwalk hother
    by_cases hnil' : other = []
    · subst hnil'
      obtain rfl := Option.some.inj hother
      exact (eq_nil_of_isOnlyWalk hwalk hpath).symm
    obtain rfl := hequal hj hpath hother hw hv hnil hnil'
    exact h.unique_walk hw hv
  · by_contra hwide
    obtain ⟨w, v, hne, hw, hv⟩ := h.exists_takes_ne hwalk.1 he hwide
    have hnil : walk ≠ [] := by
      rintro rfl
      cases he
    exact hne (hequal hi.1 hwalk.1 hwalk.1 hw hv hnil hnil)

/-- A lexeme takes the edges of a walk to a state that accepts its symbol. -/
theorem Loaded.exists_walk_of_hasLexeme (hg : g.Loaded) (h : g.HasLexeme symbol lexeme) :
    ∃ j path, SinglePath.follow g.dfaRows g.dfaInitial path = some j ∧
      SinglePath.Accepts g.dfaRows symbol j ∧ g.Takes g.dfaInitial path lexeme.toList := by
  have hwf := hg.wellFormed
  have hq := Array.getElem?_eq_getElem hwf.dfaInitial
  obtain ⟨-, hsymbol⟩ := (hasLexeme_iff hq).1 h
  obtain ⟨last, hreach, hlast⟩ := Option.bind_eq_some_iff.1 hsymbol
  obtain ⟨hmem, path, hfollow, htakes⟩ :=
    hg.exists_walk_of_reach (Array.mem_of_getElem? hq) hreach
  rw [hwf.dfaIndex _ _ hq] at hfollow htakes
  refine ⟨last.index, path, hfollow, ?_, htakes⟩
  rw [SinglePath.Accepts, getElem?_dfaRows, hwf.getElem?_dfaStates hmem]
  exact hlast

/-- The lexemes of a symbol that is spelled by the only walk to a state are equal. -/
theorem Loaded.lexemesAgree (hg : g.Loaded) {walk : List Nat} {i : DfaStateIdx}
    (hwalk : SinglePath.IsOnlyWalk g.dfaRows g.dfaInitial walk i)
    (hspells : g.Spells symbol walk i) : g.LexemesAgree symbol := by
  have htakes {lexeme : String} (h : g.HasLexeme symbol lexeme) :
      g.Takes g.dfaInitial walk lexeme.toList := by
    obtain ⟨j, path, hfollow, hj, htakes⟩ := hg.exists_walk_of_hasLexeme h
    obtain rfl := hspells.only j ⟨path, hfollow⟩ hj
    rwa [← hwalk.2 path hfollow]
  exact fun lexeme lexeme' h h' =>
    String.toList_injective ((htakes h).unique (htakes h') hspells.narrow)

/-- **What a single lexeme comes to.**  A symbol that counts as having a single lexeme is accepted
in a state that a single walk leads to.  Each of its lexemes takes the edges of that walk, or of one
of several walks to another state.  If the walk spells the symbol, all lexemes of the symbol are
equal, and in a proper automaton they are equal only if it does. -/
theorem Loaded.lexemes_of_singleLexeme (hg : g.Loaded) {s : Symbol} (hs : s ∈ g.symbols)
    (hsingle : s.singleLexeme = true) :
    ∃ i walk, SinglePath.IsOnlyWalk g.dfaRows g.dfaInitial walk i ∧
      SinglePath.Accepts g.dfaRows s.index i ∧
      (∀ lexeme, g.HasLexeme s.index lexeme → ∃ j path,
        SinglePath.follow g.dfaRows g.dfaInitial path = some j ∧
        SinglePath.Accepts g.dfaRows s.index j ∧
        g.Takes g.dfaInitial path lexeme.toList ∧
        (j = i → path = walk) ∧
        (j ≠ i → ∃ other, other ≠ path ∧
          SinglePath.follow g.dfaRows g.dfaInitial other = some j)) ∧
      (g.Spells s.index walk i → g.LexemesAgree s.index) ∧
      (g.IsProper → g.LexemesAgree s.index → g.Spells s.index walk i) := by
  obtain ⟨i, hi, hunique⟩ := (hg.singleLexeme_iff hs).1 hsingle
  obtain ⟨haccept, walk, hwalk⟩ := hi
  refine ⟨i, walk, hwalk, haccept, fun lexeme h => ?_, hg.lexemesAgree hwalk,
    fun hproper => hproper.spells hg hwalk ⟨haccept, walk, hwalk⟩ hunique⟩
  obtain ⟨j, path, hfollow, hj, htakes⟩ := hg.exists_walk_of_hasLexeme h
  refine ⟨j, path, hfollow, hj, htakes, ?_, fun hne => ?_⟩
  · rintro rfl
    exact hwalk.2 path hfollow
  · -- a state with a single walk to it would be `i`
    by_contra hnone
    refine hne (hunique j ⟨hj, path, hfollow, fun other hother => ?_⟩)
    by_contra hother'
    exact hnone ⟨other, hother', hother⟩

set_option maxRecDepth 10000 in
/-- What starts a line comment is always `//`. -/
theorem lexemes_of_singleLexeme_slashes :
    ∃ g, ofBytes Sample.comments.toBytes = .ok g ∧ g.IsProper ∧
      ∃ s ∈ g.symbols, s.index = 9 ∧ s.singleLexeme = true ∧ g.HasLexeme 9 "//" ∧
        ∀ lexeme, g.HasLexeme 9 lexeme → lexeme = "//" := by
  have hcheck : loadsWith Sample.comments.toBytes (fun g =>
      (g.checkProper && g.symbols[9]?.any (·.singleLexeme) &&
        g.dfaStates[g.dfaInitial]?.any fun q => g.symbolOf? q ['/', '/'] == some 9) &&
      ((SinglePath.follow g.dfaRows g.dfaInitial [3, 1] == some 8 &&
        (List.range g.dfaRows.length).all fun j =>
          decide (SinglePath.Accepts g.dfaRows 9 j → j = 8)) &&
        (SinglePath.edgesAlong g.dfaRows g.dfaInitial [3, 1]).all fun e =>
          g.charsetRanges e.charset == [⟨47, 47⟩])) = true := by
    decide +kernel
  obtain ⟨g, hload, hg⟩ := exists_of_loadsWith hcheck
  simp only [Bool.and_eq_true, Option.any_eq_true, beq_iff_eq, List.all_eq_true, List.mem_range,
    decide_eq_true_eq] at hg
  obtain ⟨⟨⟨hproper, s, hs, hsingle⟩, q, hq, hsymbol⟩, ⟨hfollow, honly⟩, hslashes⟩ := hg
  have hindex : s.index = 9 := (wellFormed_of_ofBytes hload).1.symbolIndex 9 s hs
  have hlexeme : g.HasLexeme 9 "//" := (hasLexeme_iff hq).2 ⟨by decide, hsymbol⟩
  have haccepts {j : DfaStateIdx} (h : SinglePath.Accepts g.dfaRows s.index j) : j = 8 := by
    rw [hindex] at h
    obtain ⟨row, hrow, -⟩ := Option.bind_eq_some_iff.1 h
    exact honly j (List.getElem?_eq_some_iff.1 hrow).1 h
  obtain ⟨i, walk, hwalk, hi, -, hagree, -⟩ :=
    (Loaded.ofBytes hload).lexemes_of_singleLexeme (Array.mem_of_getElem? hs) hsingle
  obtain rfl := haccepts hi
  obtain rfl := hwalk.2 [3, 1] hfollow
  have hspells : g.Spells s.index [3, 1] 8 :=
    ⟨fun j _ hj => haccepts hj, fun e he => isNarrow_of_charsetRanges (hslashes e he) (by decide)⟩
  have hequal := hagree hspells
  rw [hindex] at hequal
  exact ⟨g, hload, isProper_of_check hproper, s, Array.mem_of_getElem? hs, hindex, hsingle, hlexeme,
    fun lexeme h => hequal lexeme "//" h hlexeme⟩

set_option maxRecDepth 10000 in
/-- Symbols that count as having a single lexeme and have two, in a proper automaton: one that is a
class of two characters, one that is accepted in a state with several walks to it as well, and one
that is the last character a table can name. -/
theorem lexemes_marks : ∃ g, ofBytes Sample.marks.toBytes = .ok g ∧ g.IsProper ∧
    (∀ i ∈ [2, 4, 5], ∃ s ∈ g.symbols, s.index = i ∧ s.singleLexeme = true) ∧
    (g.HasLexeme 2 "+" ∧ g.HasLexeme 2 "-") ∧ (g.HasLexeme 4 "_" ∧ g.HasLexeme 4 "a") ∧
      g.HasLexeme 5 "\uffff" ∧ g.HasLexeme 5 "𝒳" := by
  have hcheck : loadsWith Sample.marks.toBytes (fun g =>
      (g.checkProper && [2, 4, 5].all fun i => g.symbols[i]?.any (·.singleLexeme)) &&
        g.dfaStates[g.dfaInitial]?.any fun q =>
          [(2, "+"), (2, "-"), (4, "_"), (4, "a"), (5, "\uffff"), (5, "𝒳")].all fun found =>
            g.symbolOf? q found.2.toList == some found.1) = true := by
    decide +kernel
  obtain ⟨g, hload, hg⟩ := exists_of_loadsWith hcheck
  simp only [Bool.and_eq_true, Option.any_eq_true, beq_iff_eq, List.all_eq_true] at hg
  obtain ⟨⟨hproper, hsingle⟩, q, hq, hfound⟩ := hg
  have hlexeme (symbol : SymbolIdx) (lexeme : String) (hne : lexeme.toList ≠ [])
      (h : (symbol, lexeme) ∈
        [(2, "+"), (2, "-"), (4, "_"), (4, "a"), (5, "\uffff"), (5, "𝒳")]) :
      g.HasLexeme symbol lexeme :=
    (hasLexeme_iff hq).2 ⟨hne, hfound _ h⟩
  refine ⟨g, hload, isProper_of_check hproper, fun i hi => ?_, ⟨?_, ?_⟩, ⟨?_, ?_⟩, ?_, ?_⟩
  · obtain ⟨s, hs, hflag⟩ := hsingle i hi
    exact ⟨s, Array.mem_of_getElem? hs, (wellFormed_of_ofBytes hload).1.symbolIndex i s hs, hflag⟩
  all_goals exact hlexeme _ _ (by decide) (by decide)

end Grammar

end CompiledGrammar
