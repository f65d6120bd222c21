import CompiledGrammar.Proofs.Lexer.LongestMatch
import CompiledGrammar.Proofs.Lexer.Lossless
import CompiledGrammar.Proofs.Table.Linked
import CompiledGrammar.Proofs.Table.Trie

/-!
# Literals end to end

What is drafted as literals is scanned as literals.

* `Draft.NextText` says what the next text of an input is, by the literals alone: the longest one
  that the input starts with, else an error up to the character with which no literal can start any
  more, else the end of the input.  There is only one such text (`Draft.NextText.unique`).
* In the grammar of a draft whose lexical automaton is a trie, a text leads to the state of that
  word, if it is one, and else nowhere (`Draft.IsTrie.reach_of_mem`,
  `Draft.IsTrie.reach_of_notMem`).
* So the longest match is the next text (`Draft.IsTrie.nextText_of_match`).  As there are no groups,
  every token is a match (`Lexer.scanToken_of_groups_eq_nil`).

`Draft.scans_literals` puts this together, from the calls that draft a grammar to the tokens of any
input.
-/

namespace CompiledGrammar

namespace Draft

/-! ### The next text -/

/-- A literal can start with the text. -/
def IsBeginning (ls : List (SymbolIdx × List Char)) (w : List Char) : Prop :=
  ∃ l ∈ ls, w <+: l.2

/-- The text that comes next in an input, and the symbol that it is scanned as. -/
inductive NextText (d : Draft) (ls : List (SymbolIdx × List Char)) (rest : List Char) :
    SymbolIdx → List Char → Prop where
  /-- The longest literal that comes next, as the symbol of the last such literal. -/
  | literal {symbol : SymbolIdx} {w : List Char} :
      w ≠ [] → w <+: rest → symbolOf? ls w = some symbol →
      (∀ l ∈ ls, l.2 <+: rest → l.2.length ≤ w.length) → NextText d ls rest symbol w
  /-- If there is none, everything up to the first character with which no literal can start any
  more, or the rest of the input. -/
  | error {symbol : SymbolIdx} {w : List Char} :
      (∀ l ∈ ls, l.2 <+: rest → l.2 = []) → d.symbolOfKind? .error = some symbol →
      w ≠ [] → w <+: rest → (∀ v, v <+: w → v ≠ w → v = [] ∨ IsBeginning ls v) →
      (w = rest ∨ ¬ IsBeginning ls w) → NextText d ls rest symbol w
  /-- The end of the input. -/
  | ends {symbol : SymbolIdx} :
      rest = [] → d.symbolOfKind? .endOfFile = some symbol → NextText d ls rest symbol []

theorem exists_mem_of_symbolOf? {ls : List (SymbolIdx × List Char)} {w : List Char}
    {symbol : SymbolIdx} (h : symbolOf? ls w = some symbol) : (symbol, w) ∈ ls := by
  obtain ⟨l, hfind, rfl⟩ := Option.map_eq_some_iff.1 h
  have hmem := List.mem_reverse.1 (List.mem_of_find?_eq_some hfind)
  have heq : l.2 = w := by simpa using List.find?_some hfind
  exact heq ▸ hmem

theorem symbolOf?_eq_none {ls : List (SymbolIdx × List Char)} {w : List Char} :
    symbolOf? ls w = none ↔ ∀ l ∈ ls, l.2 ≠ w := by
  simp [symbolOf?]

/-- Of two errors neither is shorter. -/
theorem length_le_of_error {ls : List (SymbolIdx × List Char)} {rest v w : List Char}
    (hv : v <+: rest) (hw : w <+: rest) (hne : v ≠ [])
    (hlast : v = rest ∨ ¬ IsBeginning ls v)
    (hbefore : ∀ u, u <+: w → u ≠ w → u = [] ∨ IsBeginning ls u) : w.length ≤ v.length := by
  rcases hlast with rfl | hlast
  · exact hw.length_le
  · by_contra hlt
    have hvw := List.prefix_of_prefix_length_le hv hw (Nat.le_of_not_le hlt)
    have hneq : v ≠ w := fun heq => hlt (heq ▸ Nat.le_refl _)
    rcases hbefore v hvw hneq with hnil | hbeginning
    · exact hne hnil
    · exact hlast hbeginning

/-- Only one text comes next. -/
theorem NextText.unique {d : Draft} {ls : List (SymbolIdx × List Char)} {rest w w' : List Char}
    {symbol symbol' : SymbolIdx} (h : d.NextText ls rest symbol w)
    (h' : d.NextText ls rest symbol' w') : symbol = symbol' ∧ w = w' := by
  have hsame {v v' : List Char} (hv : v <+: rest) (hv' : v' <+: rest)
      (hle : v.length ≤ v'.length) (hge : v'.length ≤ v.length) : v = v' :=
    (List.prefix_of_prefix_length_le hv hv' hle).eq_of_length (Nat.le_antisymm hle hge)
  cases h with
  | literal hne hw hsymbol hlongest =>
    have hmem := exists_mem_of_symbolOf? hsymbol
    cases h' with
    | literal hne' hw' hsymbol' hlongest' =>
      obtain rfl := hsame hw hw' (hlongest' _ hmem hw)
        (hlongest _ (exists_mem_of_symbolOf? hsymbol') hw')
      exact ⟨Option.some.inj (hsymbol.symm.trans hsymbol'), rfl⟩
    | error hnone => exact absurd (hnone _ hmem hw) hne
    | ends hrest => exact absurd (List.prefix_nil.1 (hrest ▸ hw)) hne
  | error hnone hsymbol hne hw hbefore hlast =>
    cases h' with
    | literal hne' hw' hsymbol' _ =>
      exact absurd (hnone _ (exists_mem_of_symbolOf? hsymbol') hw') hne'
    | error _ hsymbol' hne' hw' hbefore' hlast' =>
      obtain rfl := hsame hw hw' (length_le_of_error hw' hw hne' hlast' hbefore)
        (length_le_of_error hw hw' hne hlast hbefore')
      exact ⟨Option.some.inj (hsymbol.symm.trans hsymbol'), rfl⟩
    | ends hrest => exact absurd (List.prefix_nil.1 (hrest ▸ hw)) hne
  | ends hrest hsymbol =>
    cases h' with
    | literal hne' hw' => exact absurd (List.prefix_nil.1 (hrest ▸ hw')) hne'
    | error _ _ hne' hw' => exact absurd (List.prefix_nil.1 (hrest ▸ hw')) hne'
    | ends _ hsymbol' => exact ⟨Option.some.inj (hsymbol.symm.trans hsymbol'), rfl⟩

/-! ### Transitions of a trie -/

namespace IsTrie

variable {d : Draft} {words : List (List Char)} {accept : List Char → Option SymbolIdx}
  {i j : DfaStateIdx} {s : DraftState} {w v : List Char} {c : Char} {g : Grammar}

/-- The only range of an edge is that of its character. -/
theorem ranges_of_edge (h : d.IsTrie words accept) (hi : words[i]? = some w)
    (hs : d.dfa[i]? = some s) {e : Edge} (he : e ∈ s.edges) :
    ∃ c : Char, c.toNat < 0xFFFF ∧ words[e.target]? = some (w ++ [c]) ∧
      (((d.charsetRanges e.charset).filter fun r => r.first ≤ r.last).map fun r =>
        (⟨r.first.toNat, r.last.toNat, Lookup.edgeTransition ⟨i, s.accept, s.edges⟩ e⟩ :
          TransitionRange)) = [⟨c.toNat, c.toNat, .goto e.target⟩] := by
  obtain ⟨c, hc, hcharset, htarget⟩ := (h.spells i s w hs hi).edge e he
  have hne : e.target ≠ i := by
    intro heq
    rw [heq, hi, Option.some.injEq] at htarget
    simpa using congrArg List.length htarget
  have hcode : (UInt16.ofNat c.toNat).toNat = c.toNat := by
    rw [UInt16.toNat_ofNat', Nat.mod_eq_of_lt (Nat.lt_succ_of_lt hc)]
  refine ⟨c, hc, htarget, ?_⟩
  simp [charsetRanges, hcharset, Atom.ofChar, Atom.ranges, Lookup.edgeTransition, hne, hcode]

theorem mem_edgeRanges (h : d.IsTrie words accept) (hi : words[i]? = some w)
    (hs : d.dfa[i]? = some s) {r : TransitionRange} :
    r ∈ Lookup.edgeRanges d.charsetRanges ⟨i, s.accept, s.edges⟩ ↔
      ∃ (j : DfaStateIdx) (c : Char), c.toNat < 0xFFFF ∧ words[j]? = some (w ++ [c]) ∧
        r = ⟨c.toNat, c.toNat, .goto j⟩ := by
  rw [Lookup.edgeRanges, List.mem_flatMap]
  constructor
  · rintro ⟨e, he, hr⟩
    obtain ⟨c, hc, htarget, hranges⟩ := h.ranges_of_edge hi hs he
    rw [hranges, List.mem_singleton] at hr
    exact ⟨e.target, c, hc, htarget, hr⟩
  · rintro ⟨j, c, -, hj, rfl⟩
    obtain ⟨e, he, rfl⟩ := (h.spells i s w hs hi).entered j c hj
    obtain ⟨c', -, htarget, hranges⟩ := h.ranges_of_edge hi hs he
    rw [hj, Option.some.injEq] at htarget
    obtain rfl := (List.append_singleton_inj.1 htarget).2
    exact ⟨e, he, hranges ▸ List.mem_singleton.2 rfl⟩

/-- Edges of different characters have no code point in common. -/
theorem pairwise_edgeRanges (h : d.IsTrie words accept) (hi : words[i]? = some w)
    (hs : d.dfa[i]? = some s) :
    (Lookup.edgeRanges d.charsetRanges ⟨i, s.accept, s.edges⟩).Pairwise TransitionRange.Apart := by
  have htargets := List.pairwise_map.1 (h.spells i s w hs hi).targets
  refine List.pairwise_flatMap.2 ⟨fun e he => ?_, htargets.imp_of_mem fun {e e'} he he' hne => ?_⟩
  · obtain ⟨c, -, -, hranges⟩ := h.ranges_of_edge hi hs he
    rw [hranges]
    exact List.pairwise_singleton _ _
  · obtain ⟨c, -, htarget, hranges⟩ := h.ranges_of_edge hi hs he
    obtain ⟨c', -, htarget', hranges'⟩ := h.ranges_of_edge hi hs he'
    rw [hranges, hranges']
    simp only [List.mem_singleton, forall_eq]
    -- a code point in both would be that of both characters
    intro n hn hn'
    have hcode : c.toNat = c'.toNat := by
      simp only [TransitionRange.Holds] at hn hn'
      omega
    rw [Char.toNat_inj.1 hcode] at htarget
    exact hne (h.index_eq htarget htarget')

/-- A character leads to the state of the word that is longer by it. -/
theorem dfaStep_of_getElem? (h : d.IsTrie words accept) (hi : words[i]? = some w)
    (hs : d.dfa[i]? = some s) (hj : words[j]? = some (w ++ [c])) :
    g.dfaStep (d.linkedState i s) c = g.dfaStates[j]? := by
  obtain ⟨e, he, rfl⟩ := (h.spells i s w hs hi).entered j c hj
  obtain ⟨c', hc, htarget, -⟩ := h.ranges_of_edge hi hs he
  rw [hj, Option.some.injEq] at htarget
  obtain rfl := (List.append_singleton_inj.1 htarget).2
  have hrange := (h.mem_edgeRanges hi hs).2 ⟨e.target, c, hc, hj, rfl⟩
  have htransition := Lookup.transition_of_holds (h.pairwise_edgeRanges hi hs) hrange
    ((holds_dfaCode_iff hc).2 rfl)
  rw [Grammar.dfaStep, linkedState, htransition]

/-- Where there is no longer word, a character leads nowhere. -/
theorem dfaStep_of_notMem (h : d.IsTrie words accept) (hi : words[i]? = some w)
    (hs : d.dfa[i]? = some s) (hc : w ++ [c] ∉ words) :
    g.dfaStep (d.linkedState i s) c = none := by
  have htransition : (d.linkedState i s).lookup.transition (dfaCode c) = .dead := by
    refine Lookup.transition_eq_dead fun r hr hholds => ?_
    obtain ⟨j, c', hc', hj, rfl⟩ := (h.mem_edgeRanges hi hs).1 hr
    obtain rfl := (holds_dfaCode_iff hc').1 hholds
    exact hc (List.mem_of_getElem? hj)
  rw [Grammar.dfaStep, htransition]

/-! ### Texts in a trie -/

/-- A word leads to its state. -/
theorem reach_of_mem (h : d.IsTrie words accept) (hg : d.Links g) {start : DraftState}
    (hstart : d.dfa[0]? = some start) (hv : v ∈ words) :
    ∃ i s, words[i]? = some v ∧ d.dfa[i]? = some s ∧
      g.reach (d.linkedState 0 start) v = some (d.linkedState i s) := by
  induction v using List.reverseRecOn with
  | nil => exact ⟨0, start, h.initial, hstart, rfl⟩
  | append_singleton v c ih =>
    obtain ⟨i, before, hi, hbefore, hreach⟩ := ih (h.closed v c hv)
    obtain ⟨j, hj⟩ := List.mem_iff_getElem?.1 hv
    obtain ⟨s, hs, -⟩ := h.exists_state hj
    refine ⟨j, s, hj, hs, ?_⟩
    rw [Grammar.reach_concat, hreach, Option.bind_some, h.dfaStep_of_getElem? hi hbefore hj,
      hg.dfaStates, hs, Option.map_some]

/-- What is not a word leads nowhere. -/
theorem reach_of_notMem (h : d.IsTrie words accept) (hg : d.Links g) {start : DraftState}
    (hstart : d.dfa[0]? = some start) (hv : v ∉ words) :
    g.reach (d.linkedState 0 start) v = none := by
  induction v using List.reverseRecOn with
  | nil => exact absurd (List.mem_of_getElem? h.initial) hv
  | append_singleton v c ih =>
    rw [Grammar.reach_concat]
    by_cases hmem : v ∈ words
    · obtain ⟨i, s, hi, hs, hreach⟩ := h.reach_of_mem hg hstart hmem
      rw [hreach, Option.bind_some, h.dfaStep_of_notMem hi hs hv]
    · rw [ih hmem, Option.bind_none]

theorem isSome_reach_iff (h : d.IsTrie words accept) (hg : d.Links g) {start : DraftState}
    (hstart : d.dfa[0]? = some start) :
    (g.reach (d.linkedState 0 start) v).isSome = true ↔ v ∈ words := by
  by_cases hv : v ∈ words
  · obtain ⟨_, _, -, -, hreach⟩ := h.reach_of_mem hg hstart hv
    simp [hreach, hv]
  · simp [h.reach_of_notMem hg hstart hv, hv]

/-- A text is accepted as the symbol that its word has. -/
theorem symbolOf?_eq (h : d.IsTrie words accept) (hg : d.Links g) {start : DraftState}
    (hstart : d.dfa[0]? = some start) (v : List Char) :
    g.symbolOf? (d.linkedState 0 start) v = accept v := by
  by_cases hv : v ∈ words
  · obtain ⟨i, s, hi, hs, hreach⟩ := h.reach_of_mem hg hstart hv
    rw [Grammar.symbolOf?, hreach]
    exact (h.spells i s v hs hi).accept
  · rw [Grammar.symbolOf?, h.reach_of_notMem hg hstart hv, h.none_of_notMem v hv, Option.bind_none]

/-- **The longest match is the next text**, where the words are the beginnings of literals. -/
theorem nextText_of_match {ls : List (SymbolIdx × List Char)} (h : d.IsTrie words (symbolOf? ls))
    (hwords : ∀ v, v ∈ words ↔ v = [] ∨ IsBeginning ls v) (hg : d.Links g) {start : DraftState}
    (hstart : d.dfa[0]? = some start) {rest : List Char} {symbol : SymbolIdx}
    (hmatch : g.Match (d.linkedState 0 start) rest symbol w) : d.NextText ls rest symbol w := by
  -- what is not accepted is no literal
  have hliteral {v : List Char} (hnone : g.symbolOf? (d.linkedState 0 start) v = none)
      {l : SymbolIdx × List Char} (hl : l ∈ ls) : l.2 ≠ v :=
    symbolOf?_eq_none.1 ((h.symbolOf?_eq hg hstart v).symm.trans hnone) l hl
  cases hmatch with
  | accepted hlongest =>
    have hsymbol := hlongest.symbol
    rw [h.symbolOf?_eq hg hstart] at hsymbol
    refine .literal hlongest.ne_nil hlongest.isPrefix hsymbol fun l hl hprefix => ?_
    by_contra hlt
    exact hliteral (hlongest.longest l.2 hprefix (Nat.lt_of_not_le hlt)) hl rfl
  | error hnone hne hread =>
    refine .error (fun l hl hprefix => ?_) hg.errorSymbol hne hread.isPrefix (fun v hv hlt => ?_)
      (hread.last.imp id fun hdead hbeginning => ?_)
    · by_contra hnil
      exact hliteral (hnone l.2 hprefix hnil) hl rfl
    · have hlen : v.length < w.length :=
        Nat.lt_of_le_of_ne hv.length_le fun heq => hlt (hv.eq_of_length heq)
      exact (hwords v).1 ((h.isSome_reach_iff hg hstart).1
        (hread.before v (hv.trans hread.isPrefix) hlen))
    · have hsome := (h.isSome_reach_iff hg hstart).2 ((hwords w).2 (.inr hbeginning))
      rw [hdead] at hsome
      cases hsome
  | ends hrest => exact .ends hrest hg.eofSymbol

end IsTrie

end Draft

/-! ### Tokens -/

namespace Lexer

variable {g : Grammar} {l : Lexer}

/-- Without groups, every match is a token. -/
theorem scanToken_of_groups_eq_nil (hg : g.groups.size = 0) (hl : l.groups = []) :
    l.scanToken g = ((l.peek g).1, { l with cursor := (l.peek g).2 }) := by
  have hopens : l.opens? g (l.peek g).1 = none := by
    cases h : l.opens? g (l.peek g).1 with
    | none => rfl
    | some group =>
      have hmem := mem_groups_of_opens? h
      rw [Array.eq_empty_of_size_eq_zero hg] at hmem
      cases hmem
  refine scanToken_of_emit ?_
  simp only [scanStep, hopens, hl]

theorem groups_afterScans (hg : g.groups.size = 0) (hl : l.groups = []) (n : Nat) :
    (l.afterScans g n).groups = [] := by
  induction n with
  | zero => exact hl
  | succ n ih => rw [afterScans, scanToken_of_groups_eq_nil hg ih, ih]

end Lexer

namespace Draft

/-- The lexical automaton of literals refers to what exists. -/
theorem IsTrie.within {d : Draft} {words : List (List Char)}
    {accept : List Char → Option SymbolIdx} (h : d.IsTrie words accept)
    (haccept : ∀ w symbol, accept w = some symbol → symbol < d.symbols.length) :
    ∀ s ∈ d.dfa, (∀ symbol ∈ s.accept, symbol < d.symbols.length) ∧
      (∀ e ∈ s.edges, e.charset < d.charsets.length) ∧ ∀ e ∈ s.edges, e.target < d.dfa.length := by
  intro s hs
  obtain ⟨i, hi⟩ := List.mem_iff_getElem?.1 hs
  have hlt : i < words.length := h.length ▸ (List.getElem?_eq_some_iff.1 hi).1
  have hspells := h.spells i s _ hi (List.getElem?_eq_getElem hlt)
  refine ⟨fun symbol hsymbol => haccept _ symbol (hspells.accept ▸ hsymbol), fun e he => ?_,
    fun e he => ?_⟩
  · obtain ⟨c, -, hcharset, -⟩ := hspells.edge e he
    exact (List.getElem?_eq_some_iff.1 hcharset).1
  · obtain ⟨c, -, -, htarget⟩ := hspells.edge e he
    exact h.length ▸ (List.getElem?_eq_some_iff.1 htarget).1

/-- **What is drafted as literals is scanned as literals.**  The bytes of the draft are a grammar,
and wherever scanning an input has come to, the next token is of the text that comes next by the
literals. -/
theorem scans_literals {calls : List Call} (h : (ofCalls calls).IsLinkable)
    (hvalues : (ofCalls calls).HasPlainValues) (hcalls : ∀ c ∈ calls, c.IsPlain)
    (hsymbols : ∀ l ∈ literals calls, l.1 < (ofCalls calls).symbols.length) :
    ∃ g, Grammar.ofBytes (ofCalls calls).toBytes = .ok g ∧
      ∀ (lineTerminator : UInt8) (input : Buffer) (n : Nat) (l : Lexer),
        (({ lineTerminator } : Lexer).load input).afterScans g n = l →
        Utf8.dropBytes? l.cursor.offset input.chars = some l.cursor.rest ∧
        ∃ symbol w, (ofCalls calls).NextText (literals calls) l.cursor.rest symbol w ∧
          (l.scanToken g).1 = ⟨symbol, ⟨l.cursor.offset, l.cursor.offset + Utf8.byteLength w⟩,
            l.cursor.position⟩ ∧
          (l.scanToken g).1.lexeme? input = some (String.ofList w) ∧
          l.cursor.rest = w ++ (l.scanToken g).2.cursor.rest := by
  obtain ⟨words, htrie, hwords⟩ := exists_isTrie hcalls
  have hwithin := htrie.within fun w symbol hw => hsymbols _ (exists_mem_of_symbolOf? hw)
  obtain ⟨start, hstart, -⟩ := htrie.exists_state htrie.initial
  have hdfa : (ofCalls calls).dfa ≠ [] := List.ne_nil_of_mem (List.mem_of_getElem? hstart)
  have hwf := h.wellFormed hvalues fun s hs => ⟨fun symbol hsymbol =>
    ((hwithin s hs).1 symbol hsymbol).trans h.room.symbols, (hwithin s hs).2.1, (hwithin s hs).2.2⟩
  obtain ⟨g, hload, hlinks⟩ := h.exists_ofBytes hwf hdfa fun s hs => (hwithin s hs).1
  have hgroups : g.groups.size = 0 := by rw [hlinks.groups, h.groups, List.length_nil]
  have hq : g.dfaStates[g.dfaInitial]? = some ((ofCalls calls).linkedState 0 start) := by
    rw [hlinks.dfaInitial, hlinks.dfaStates, hstart, Option.map_some]
  refine ⟨g, hload, fun lineTerminator input n l hl => ?_⟩
  have hnone : l.groups = [] := hl ▸ Lexer.groups_afterScans hgroups rfl n
  have hfits : l.cursor.In input.chars := by
    obtain ⟨hfits, hbuffer⟩ := (Lexer.Fits.reset g { buffer := input, lineTerminator }).afterScans
      (Grammar.wellFormed_of_ofBytes hload).1 n
    rw [← show l.buffer = input from hl ▸ hbuffer]
    exact hl ▸ hfits.cursor
  -- the next token is of the longest match
  obtain ⟨symbol, w, hmatch, hnext⟩ := Grammar.exists_match hq l.cursor.rest
  obtain ⟨rest, hrest⟩ := hmatch.isPrefix
  obtain ⟨htoken, -, hafter⟩ := Lexer.peek_of_nextMatch hrest.symm hnext
  rw [Lexer.scanToken_of_groups_eq_nil hgroups hnone]
  refine ⟨hfits, symbol, w, htrie.nextText_of_match hwords hlinks hstart hmatch, htoken, ?_, ?_⟩
  · obtain ⟨before, hbefore, hoffset⟩ := Utf8.dropBytes?_eq_some.1 hfits
    rw [htoken]
    exact Buffer.slice?_eq_some.2 ⟨before, w, rest, by rw [hrest, hbefore], hoffset,
      (Nat.add_sub_cancel_left _ _).symm, rfl⟩
  · rw [hafter, hrest]

/-- Calls that draft `=` twice, each time as another symbol, and a longer literal that starts with
it and is not all in ASCII. -/
def arrowCalls : List Call :=
  [.symbol "EOF" 3, .symbol "Error" 7, .symbol "Is" 1, .symbol "Arrow" 1, .symbol "Equals" 1,
    .literal 2 "=", .literal 3 "==é>", .literal 4 "=", .lalrState [⟨0, 4, 0⟩]]

set_option maxRecDepth 10000 in
/-- The first token of `==é=` is the first `=`, although the automaton goes on up to `é`. -/
theorem scans_literals_arrow :
    ∃ g, Grammar.ofBytes (ofCalls arrowCalls).toBytes = .ok g ∧ ∃ l : Lexer,
      l = ({} : Lexer).load (.owned "==é=") ∧
      (l.scanToken g).1 = ⟨4, ⟨0, 1⟩, .first⟩ ∧
      (l.scanToken g).1.lexeme? (.owned "==é=") = some "=" ∧
      (l.scanToken g).2.cursor.rest = ['=', 'é', '='] := by
  have hlinkable : (ofCalls arrowCalls).IsLinkable := by decide
  obtain ⟨g, hload, hscans⟩ := scans_literals hlinkable (by decide) (by decide) (by decide)
  obtain ⟨-, symbol, w, hnext, htoken, hlexeme, hrest⟩ :=
    hscans defaultLineTerminator (.owned "==é=") 0 _ rfl
  have hequals : (ofCalls arrowCalls).NextText (literals arrowCalls) ['=', '=', 'é', '='] 4 ['='] :=
    .literal (by decide) (by decide) (by decide) (by decide)
  obtain ⟨rfl, rfl⟩ := hnext.unique hequals
  exact ⟨g, hload, _, rfl, htoken, hlexeme, (List.cons.inj hrest).2.symm⟩

/-- Calls that draft a property with a `U+0000` in its value. -/
def zeroValueCalls : List Call :=
  [.property "Name" "a\x00b", .symbol "EOF" 3, .symbol "Error" 7, .lalrState []]

/-- Calls that draft an accepting action with a target that is not a number of the format. -/
def farAcceptCalls : List Call :=
  [.symbol "EOF" 3, .symbol "Error" 7, .lalrState [⟨0, 4, 0x8000⟩]]

set_option maxRecDepth 10000 in
/-- Values of properties and targets of accepting actions are written as well, and can make bytes
that are no grammar. -/
theorem not_scans_literals :
    ((ofCalls zeroValueCalls).IsLinkable ∧ (∀ c ∈ zeroValueCalls, c.IsPlain) ∧
      literals zeroValueCalls = [] ∧
      Grammar.ofBytes (ofCalls zeroValueCalls).toBytes = .error ⟨.unknownRecordTag 98, some 72⟩) ∧
    (ofCalls farAcceptCalls).IsLinkable ∧ (∀ c ∈ farAcceptCalls, c.IsPlain) ∧
      literals farAcceptCalls = [] ∧
      Grammar.ofBytes (ofCalls farAcceptCalls).toBytes =
        .error ⟨.indexOutOfRange .actionTargets (-32768), some 140⟩ := by
  refine ⟨⟨by decide, by decide, by decide, ?_⟩, by decide, by decide, by decide, ?_⟩
  · decide +kernel
  · decide +kernel

end Draft

end CompiledGrammar
