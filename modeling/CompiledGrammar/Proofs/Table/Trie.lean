import CompiledGrammar.Proofs.Table.Draft
import Mathlib.Data.List.Infix
import Mathlib.Data.List.Nodup
import Mathlib.Logic.Function.Basic

/-!
# The trie of literals

The lexical automaton of a draft that has been given literals only is a trie: its states stand for
the beginnings of the literals, each for another one.

* `Draft.IsTrie` gives each state its word.  An edge adds one character to a word, and every word
  that is not empty is entered by an edge.
* A character takes a trie to the state of the longer word, which is a new one if there was none
  (`Draft.IsTrie.step`), and the last state of a literal is told its symbol
  (`Draft.IsTrie.modifyState`).  So a literal keeps a trie a trie (`Draft.IsTrie.literal`).
* After any calls that add no other patterns, the words are the beginnings of the literals, and a
  state accepts the symbol that its word was last given (`Draft.exists_isTrie`).
-/

namespace CompiledGrammar

theorem getElem?_concat_eq_some {α : Type} {as : List α} {a x : α} {i : Nat} :
    (as ++ [a])[i]? = some x ↔ as[i]? = some x ∨ i = as.length ∧ a = x := by
  rcases Nat.lt_trichotomy i as.length with hlt | rfl | hgt
  · rw [List.getElem?_append_left hlt, or_iff_left fun h => Nat.ne_of_lt hlt h.1]
  · simp
  · have hlen : (as ++ [a]).length ≤ i := by
      rw [List.length_append]
      exact hgt
    rw [List.getElem?_eq_none hlen, List.getElem?_eq_none (Nat.le_of_lt hgt)]
    simp [Nat.ne_of_gt hgt]

/-- Characters that have room in a table have classes of their own. -/
theorem Atom.eq_of_ranges_ofChar {c c' : Char} (hc : c.toNat < 0xFFFF) (hc' : c'.toNat < 0xFFFF)
    (h : (ofChar c).ranges = (ofChar c').ranges) : c = c' := by
  have hcode : UInt16.ofNat c.toNat = UInt16.ofNat c'.toNat :=
    congrArg CodeRange.first (List.cons.inj h).1
  have hnat := congrArg UInt16.toNat hcode
  rw [UInt16.toNat_ofNat', UInt16.toNat_ofNat', Nat.mod_eq_of_lt (Nat.lt_succ_of_lt hc),
    Nat.mod_eq_of_lt (Nat.lt_succ_of_lt hc')] at hnat
  exact Char.toNat_inj.1 hnat

/-! ### Words of states -/

namespace DraftState

/-- The state stands for a word: its edges lead to the words that are longer by a character. -/
structure Spells (charsets : List (List CodeRange)) (words : List (List Char))
    (accept : List Char → Option SymbolIdx) (w : List Char) (s : DraftState) : Prop where
  /-- It accepts the symbol of the word. -/
  accept : s.accept = accept w
  /-- Its edges add one character. -/
  edge : ∀ e ∈ s.edges, ∃ c : Char, c.toNat < 0xFFFF ∧
    charsets[e.charset]? = some (Atom.ofChar c).ranges ∧ words[e.target]? = some (w ++ [c])
  /-- They lead to different states. -/
  targets : (s.edges.map Edge.target).Nodup
  /-- Every word that is longer by a character is where an edge leads. -/
  entered : ∀ (j : DfaStateIdx) (c : Char), words[j]? = some (w ++ [c]) →
    ∃ e ∈ s.edges, e.target = j

namespace Spells

variable {charsets : List (List CodeRange)} {words : List (List Char)}
  {accept : List Char → Option SymbolIdx} {w : List Char} {s : DraftState}

/-- A state without edges stands for a word that no other goes on from. -/
theorem of_empty (haccept : accept w = none) (hlast : ∀ c, w ++ [c] ∉ words) :
    Spells charsets words accept w {} where
  accept := haccept.symm
  edge _ he := absurd he List.not_mem_nil
  targets := List.nodup_nil
  entered _ c hj := absurd (List.mem_of_getElem? hj) (hlast c)

/-- More character sets change nothing. -/
theorem concat_charset (h : s.Spells charsets words accept w) (ranges : List CodeRange) :
    s.Spells (charsets ++ [ranges]) words accept w := by
  refine { h with edge := fun e he => ?_ }
  obtain ⟨c, hc, hcharset, htarget⟩ := h.edge e he
  exact ⟨c, hc, getElem?_concat_eq_some.2 (.inl hcharset), htarget⟩

/-- A new word that does not go on from this one changes nothing. -/
theorem concat_word (h : s.Spells charsets words accept w) {v : List Char}
    (hv : ∀ c, v ≠ w ++ [c]) : s.Spells charsets (words ++ [v]) accept w where
  accept := h.accept
  edge e he := by
    obtain ⟨c, hc, hcharset, htarget⟩ := h.edge e he
    exact ⟨c, hc, hcharset, getElem?_concat_eq_some.2 (.inl htarget)⟩
  targets := h.targets
  entered j c hj := by
    rcases getElem?_concat_eq_some.1 hj with hj | ⟨-, heq⟩
    · exact h.entered j c hj
    · exact absurd heq (hv c)

/-- A new word that goes on from this one is entered by a new edge. -/
theorem addEdge (h : s.Spells charsets words accept w) {c : Char} (hc : c.toNat < 0xFFFF)
    {k : CharSetIdx} (hk : charsets[k]? = some (Atom.ofChar c).ranges) :
    Spells charsets (words ++ [w ++ [c]]) accept w
      { s with edges := s.edges ++ [⟨k, words.length⟩] } where
  accept := h.accept
  edge e he := by
    rcases List.mem_append.1 he with he | he
    · obtain ⟨c, hc, hcharset, htarget⟩ := h.edge e he
      exact ⟨c, hc, hcharset, getElem?_concat_eq_some.2 (.inl htarget)⟩
    · obtain rfl := List.mem_singleton.1 he
      exact ⟨c, hc, hk, List.getElem?_concat_length⟩
  targets := by
    rw [List.map_append, List.map_singleton]
    refine h.targets.append (List.nodup_singleton _) fun j hj hlast => ?_
    -- the old edges lead to old states
    obtain ⟨e, he, rfl⟩ := List.mem_map.1 hj
    obtain ⟨_, -, -, htarget⟩ := h.edge e he
    have hlt := (List.getElem?_eq_some_iff.1 htarget).1
    exact absurd (List.mem_singleton.1 hlast) (Nat.ne_of_lt hlt)
  entered j c' hj := by
    rcases getElem?_concat_eq_some.1 hj with hj | ⟨rfl, -⟩
    · obtain ⟨e, he, heq⟩ := h.entered j c' hj
      exact ⟨e, List.mem_append_left _ he, heq⟩
    · exact ⟨_, List.mem_append_right _ List.mem_cons_self, rfl⟩

end Spells

end DraftState

namespace Draft

/-- The lexical automaton is a trie with a word for each state. -/
structure IsTrie (d : Draft) (words : List (List Char)) (accept : List Char → Option SymbolIdx) :
    Prop where
  /-- Each state has a word. -/
  length : words.length = d.dfa.length
  /-- No two states have the same. -/
  nodup : words.Nodup
  /-- That of the first state is empty. -/
  initial : words[0]? = some []
  /-- With a word, its beginnings are words. -/
  closed : ∀ (w : List Char) (c : Char), w ++ [c] ∈ words → w ∈ words
  /-- What is not a word has no symbol. -/
  none_of_notMem : ∀ w, w ∉ words → accept w = none
  /-- No class has two character sets. -/
  charsets : d.charsets.Nodup
  /-- Each state stands for its word. -/
  spells : ∀ (i : DfaStateIdx) (s : DraftState) (w : List Char), d.dfa[i]? = some s →
    words[i]? = some w → s.Spells d.charsets words accept w

namespace IsTrie

variable {d : Draft} {words : List (List Char)} {accept : List Char → Option SymbolIdx}
  {i j : DfaStateIdx} {w : List Char} {c : Char} {k : CharSetIdx}

theorem of_empty : ({} : Draft).IsTrie [[]] fun _ => none where
  length := rfl
  nodup := List.nodup_singleton _
  initial := rfl
  closed w c h := by simp at h
  none_of_notMem _ _ := rfl
  charsets := List.nodup_nil
  spells i s w hs hw := by
    obtain ⟨rfl, rfl⟩ : i = 0 ∧ {} = s := by simpa using List.getElem?_eq_some_iff.1 hs
    obtain rfl : [] = w := by simpa using hw
    exact .of_empty rfl fun c => by simp

theorem exists_state (h : d.IsTrie words accept) (hi : words[i]? = some w) :
    ∃ s, d.dfa[i]? = some s ∧ s.Spells d.charsets words accept w := by
  have hlt := (List.getElem?_eq_some_iff.1 hi).1
  have hs := List.getElem?_eq_getElem (h.length ▸ hlt)
  exact ⟨_, hs, h.spells i _ w hs hi⟩

theorem index_eq (h : d.IsTrie words accept) (hi : words[i]? = some w) (hj : words[j]? = some w) :
    i = j :=
  (List.getElem?_inj (List.getElem?_eq_some_iff.1 hi).1 h.nodup).1 (hi.trans hj.symm)

/-! ### A character -/

/-- The class of a character has a character set from now on. -/
theorem charset (h : d.IsTrie words accept) (ranges : List CodeRange) :
    (d.charset ranges).1.IsTrie words accept ∧
      (d.charset ranges).1.charsets[(d.charset ranges).2]? = some ranges := by
  unfold Draft.charset
  cases hfind : d.charsets.findIdx? (· == ranges) with
  | some k =>
    obtain ⟨hlt, heq, -⟩ := List.findIdx?_eq_some_iff_getElem.1 hfind
    exact ⟨h, (List.getElem?_eq_getElem hlt).trans (congrArg some (beq_iff_eq.1 heq))⟩
  | none =>
    have hnew : ranges ∉ d.charsets := fun hmem => by
      simpa using List.findIdx?_eq_none_iff.1 hfind ranges hmem
    refine ⟨{ h with charsets := ?_, spells := ?_ }, List.getElem?_concat_length⟩
    · exact List.nodup_append.2 ⟨h.charsets, List.nodup_singleton _,
        fun a ha b hb heq => hnew (List.mem_singleton.1 hb ▸ heq ▸ ha)⟩
    · exact fun i s w hs hw => (h.spells i s w hs hw).concat_charset ranges

/-- The edge of a character leads to the word that is longer by it. -/
theorem getElem?_of_next? (h : d.IsTrie words accept) (hi : words[i]? = some w)
    (hc : c.toNat < 0xFFFF) (hk : d.charsets[k]? = some (Atom.ofChar c).ranges)
    (hnext : d.next? i k = some j) : words[j]? = some (w ++ [c]) := by
  obtain ⟨s, hs, hspells⟩ := h.exists_state hi
  obtain ⟨e, hfind, rfl⟩ := Option.map_eq_some_iff.1 hnext
  have hmem := List.mem_of_find?_eq_some hfind
  rw [edgesAt, hs] at hmem
  obtain ⟨c', hc', hcharset, htarget⟩ := hspells.edge e hmem
  have hpred := List.find?_some hfind
  rw [Bool.and_eq_true, beq_iff_eq] at hpred
  rw [hpred.1, hk, Option.some.injEq] at hcharset
  rw [htarget, Atom.eq_of_ranges_ofChar hc hc' hcharset]

/-- Without an edge of a character there is no word that is longer by it. -/
theorem notMem_of_next? (h : d.IsTrie words accept) (hi : words[i]? = some w)
    (hk : d.charsets[k]? = some (Atom.ofChar c).ranges) (hnext : d.next? i k = none) :
    w ++ [c] ∉ words := by
  intro hmem
  obtain ⟨s, hs, hspells⟩ := h.exists_state hi
  obtain ⟨j, hj⟩ := List.mem_iff_getElem?.1 hmem
  obtain ⟨e, he, rfl⟩ := hspells.entered j c hj
  obtain ⟨c', -, hcharset, htarget⟩ := hspells.edge e he
  rw [hj, Option.some.injEq] at htarget
  obtain rfl := (List.append_singleton_inj.1 htarget).2
  have hkey : e.charset = k :=
    (List.getElem?_inj (List.getElem?_eq_some_iff.1 hcharset).1 h.charsets).1
      (hcharset.trans hk.symm)
  have hother : e.target ≠ i := by
    intro heq
    rw [heq, hi, Option.some.injEq] at hj
    simpa using congrArg List.length hj
  rw [next?, Option.map_eq_none_iff, edgesAt, hs] at hnext
  have hnot := List.find?_eq_none.1 hnext e he
  rw [hkey, beq_self_eq_true, Bool.true_and, bne_iff_ne] at hnot
  exact hnot hother

/-- A new state is that of a word which is longer by a character. -/
theorem grow (h : d.IsTrie words accept) (hi : words[i]? = some w) (hc : c.toNat < 0xFFFF)
    (hk : d.charsets[k]? = some (Atom.ofChar c).ranges) (hnew : w ++ [c] ∉ words) :
    (d.addState.addEdge i ⟨k, d.dfa.length⟩).IsTrie (words ++ [w ++ [c]]) accept where
  length := by
    simp only [Draft.addEdge, Draft.modifyState, Draft.addState, List.length_modify,
      List.length_append, h.length, List.length_singleton]
  nodup := List.nodup_append.2 ⟨h.nodup, List.nodup_singleton _,
    fun a ha b hb heq => hnew (List.mem_singleton.1 hb ▸ heq ▸ ha)⟩
  initial := getElem?_concat_eq_some.2 (.inl h.initial)
  closed v c' hv := by
    refine List.mem_append_left _ ?_
    rcases List.mem_append.1 hv with hv | hv
    · exact h.closed v c' hv
    · rw [(List.append_singleton_inj.1 (List.mem_singleton.1 hv)).1]
      exact List.mem_of_getElem? hi
  none_of_notMem v hv := h.none_of_notMem v fun hmem => hv (List.mem_append_left _ hmem)
  charsets := h.charsets
  spells j s v hs hv := by
    simp only [Draft.addEdge, Draft.modifyState, Draft.addState, List.getElem?_modify,
      Option.map_eq_map, Option.map_eq_some_iff, getElem?_concat_eq_some] at hs
    have hlt := (List.getElem?_eq_some_iff.1 hi).1
    obtain ⟨old, hold, rfl⟩ := hs
    rcases getElem?_concat_eq_some.1 hv with hv | ⟨rfl, rfl⟩
    · -- an old state, which gets the new edge if it is the one of the shorter word
      have hjlt := (List.getElem?_eq_some_iff.1 hv).1
      rw [or_iff_left fun h' => Nat.ne_of_lt hjlt (h'.1.trans h.length.symm)] at hold
      have hspells := h.spells j old v hold hv
      by_cases hij : i = j
      · subst hij
        rw [hi, Option.some.injEq] at hv
        subst hv
        rw [if_pos rfl, ← h.length]
        exact hspells.addEdge hc hk
      · rw [if_neg hij]
        refine hspells.concat_word fun c' heq => hij (h.index_eq hi ?_)
        rw [hv, (List.append_singleton_inj.1 heq).1]
    · -- the new state, which no word goes on from
      have hnone : d.dfa[words.length]? = none := List.getElem?_eq_none h.length.ge
      rw [hnone, or_iff_right (Option.some_ne_none old).symm] at hold
      obtain ⟨-, rfl⟩ := hold
      rw [if_neg (Nat.ne_of_lt hlt)]
      refine .of_empty (h.none_of_notMem _ hnew) fun c' hmem => ?_
      rcases List.mem_append.1 hmem with hmem | hmem
      · exact hnew (h.closed _ c' hmem)
      · simpa using congrArg List.length (List.mem_singleton.1 hmem)

/-- A character leads to the state of the word that is longer by it. -/
theorem step (h : d.IsTrie words accept) (hi : words[i]? = some w) (hc : c.toNat < 0xFFFF) :
    ∃ words', (d.step i (.ofChar c)).1.IsTrie words' accept ∧
      words'[(d.step i (.ofChar c)).2]? = some (w ++ [c]) ∧
      ∀ v, v ∈ words' ↔ v ∈ words ∨ v = w ++ [c] := by
  obtain ⟨h, hk⟩ := h.charset (Atom.ofChar c).ranges
  have hrepeats : (Atom.ofChar c).repeats = false := rfl
  simp only [Draft.step, hrepeats, Bool.false_eq_true, if_false]
  generalize d.charset (Atom.ofChar c).ranges = found at h hk
  obtain ⟨d', k⟩ := found
  dsimp only at h hk ⊢
  cases hnext : d'.next? i k with
  | some j =>
    have hj := h.getElem?_of_next? hi hc hk hnext
    exact ⟨words, h, hj, fun v => (or_iff_left_of_imp fun hv =>
      hv ▸ List.mem_of_getElem? hj).symm⟩
  | none =>
    refine ⟨_, h.grow hi hc hk (h.notMem_of_next? hi hk hnext), ?_, fun v => ?_⟩
    · rw [← h.length]
      exact List.getElem?_concat_length
    · rw [List.mem_append, List.mem_singleton]

/-! ### A literal -/

/-- The characters of a text lead to the state of the word that is longer by the text. -/
theorem path {cs : List Char} (h : d.IsTrie words accept) (hi : words[i]? = some w)
    (hcs : ∀ c ∈ cs, c.toNat < 0xFFFF) :
    ∃ words', (d.path i (cs.map .ofChar)).1.IsTrie words' accept ∧
      words'[(d.path i (cs.map .ofChar)).2]? = some (w ++ cs) ∧
      ∀ v, v ∈ words' ↔ v ∈ words ∨ ∃ u, u <+: cs ∧ v = w ++ u := by
  induction cs generalizing d words w i with
  | nil =>
    refine ⟨words, h, by rwa [List.append_nil], fun v => (or_iff_left_of_imp ?_).symm⟩
    rintro ⟨u, hu, rfl⟩
    rw [List.prefix_nil.1 hu, List.append_nil]
    exact List.mem_of_getElem? hi
  | cons c cs ih =>
    obtain ⟨hc, hcs⟩ := List.forall_mem_cons.1 hcs
    obtain ⟨longer, h', hj, hlonger⟩ := h.step hi hc
    obtain ⟨words', h'', hlast, hwords⟩ := ih h' hj hcs
    refine ⟨words', h'', ?_, fun v => ?_⟩
    · rw [List.append_cons]
      exact hlast
    · rw [hwords, hlonger]
      constructor
      · rintro ((hv | rfl) | ⟨u, hu, rfl⟩)
        · exact .inl hv
        · exact .inr ⟨[c], by simp, rfl⟩
        · exact .inr ⟨c :: u, List.cons_prefix_cons.2 ⟨rfl, hu⟩, (List.append_cons _ _ _).symm⟩
      · rintro (hv | ⟨u, hu, rfl⟩)
        · exact .inl (.inl hv)
        · rcases List.prefix_cons_iff.1 hu with rfl | ⟨u, rfl, hrest⟩
          · rw [List.append_nil]
            exact .inl (.inl (List.mem_of_getElem? hi))
          · exact .inr ⟨u, hrest, List.append_cons _ _ _⟩

/-- A state may be told another symbol for its word. -/
theorem modifyState (h : d.IsTrie words accept) (hi : words[i]? = some w) (symbol : SymbolIdx) :
    (d.modifyState i fun s => { s with accept := some symbol }).IsTrie words
      (Function.update accept w (some symbol)) where
  length := by rw [Draft.modifyState, List.length_modify, h.length]
  nodup := h.nodup
  initial := h.initial
  closed := h.closed
  none_of_notMem v hv := by
    have hne : v ≠ w := fun heq => hv (heq ▸ List.mem_of_getElem? hi)
    rw [Function.update_of_ne hne, h.none_of_notMem v hv]
  charsets := h.charsets
  spells j s v hs hv := by
    simp only [Draft.modifyState, List.getElem?_modify, Option.map_eq_map,
      Option.map_eq_some_iff] at hs
    obtain ⟨old, hold, rfl⟩ := hs
    have hspells := h.spells j old v hold hv
    by_cases hij : i = j
    · subst hij
      rw [hi, Option.some.injEq] at hv
      subst hv
      rw [if_pos rfl]
      refine { hspells with accept := ?_ }
      rw [Function.update_self]
    · have hne : v ≠ w := fun heq => hij (h.index_eq hi (heq ▸ hv))
      rw [if_neg hij]
      exact { hspells with accept := by rw [Function.update_of_ne hne, hspells.accept] }

/-- A literal keeps a trie a trie, adds its beginnings as words, and gives its text a symbol. -/
theorem literal (h : d.IsTrie words accept) (symbol : SymbolIdx) {text : String}
    (htext : ∀ c ∈ text.toList, c.toNat < 0xFFFF) :
    ∃ words', (d.literal symbol text).IsTrie words'
        (Function.update accept text.toList (some symbol)) ∧
      ∀ v, v ∈ words' ↔ v ∈ words ∨ v <+: text.toList := by
  obtain ⟨words', h', hlast, hwords⟩ := h.path h.initial htext
  refine ⟨words', h'.modifyState hlast symbol, fun v => ?_⟩
  simp only [hwords, List.nil_append, exists_eq_right']

end IsTrie

/-! ### Calls -/

/-- The symbol and the text of a literal. -/
def Call.literal? : Call → Option (SymbolIdx × List Char)
  | literal target text => some (target, text.toList)
  | _ => none

/-- The literals of some calls, in order. -/
def literals (calls : List Call) : List (SymbolIdx × List Char) :=
  calls.filterMap Call.literal?

/-- The symbol of a text, by the last literal of it. -/
def symbolOf? (literals : List (SymbolIdx × List Char)) (w : List Char) : Option SymbolIdx :=
  (literals.reverse.find? (·.2 == w)).map Prod.fst

/-- The call adds no pattern, or one that is a literal of characters for which a table has room. -/
def Call.IsPlain : Call → Prop
  | pattern _ _ => False
  | literal _ text => ∀ c ∈ text.toList, c.toNat < 0xFFFF
  | _ => True

instance : DecidablePred Call.IsPlain
  | .pattern _ _ => inferInstanceAs (Decidable False)
  | .literal _ text => List.decidableBAll (fun c : Char => c.toNat < 0xFFFF) text.toList
  | .property _ _ => inferInstanceAs (Decidable True)
  | .symbol _ _ => inferInstanceAs (Decidable True)
  | .production _ _ => inferInstanceAs (Decidable True)
  | .group _ => inferInstanceAs (Decidable True)
  | .lalrState _ => inferInstanceAs (Decidable True)

theorem symbolOf?_concat (literals : List (SymbolIdx × List Char)) (l : SymbolIdx × List Char) :
    symbolOf? (literals ++ [l]) = Function.update (symbolOf? literals) l.2 (some l.1) := by
  funext w
  unfold symbolOf?
  rw [List.reverse_append, List.reverse_singleton, List.singleton_append, List.find?_cons]
  by_cases hw : w = l.2
  · rw [hw, Function.update_self, beq_self_eq_true]
    rfl
  · rw [Function.update_of_ne hw, beq_false_of_ne (Ne.symm hw)]

/-- **Literals make a trie.**  Its words are the empty word and the beginnings of literals. -/
theorem exists_isTrie {calls : List Call} (h : ∀ c ∈ calls, c.IsPlain) :
    ∃ words, (ofCalls calls).IsTrie words (symbolOf? (literals calls)) ∧
      ∀ v, v ∈ words ↔ v = [] ∨ ∃ l ∈ literals calls, v <+: l.2 := by
  induction calls using List.reverseRecOn with
  | nil => exact ⟨[[]], .of_empty, fun v => by simp [literals]⟩
  | append_singleton calls c ih =>
    obtain ⟨hcalls, hc⟩ := List.forall_mem_append.1 h
    obtain ⟨words, htrie, hwords⟩ := ih hcalls
    have hofCalls : ofCalls (calls ++ [c]) = c.run (ofCalls calls) := by
      rw [ofCalls, List.foldl_append]
      rfl
    have hliterals : literals (calls ++ [c]) = literals calls ++ c.literal?.toList := by
      rw [literals, List.filterMap_append]
      cases hliteral : c.literal? <;> simp [literals, hliteral]
    rw [hofCalls, hliterals]
    cases c with
    | literal symbol text =>
      obtain ⟨words', htrie', hwords'⟩ := htrie.literal symbol (hc _ List.mem_cons_self)
      refine ⟨words', ?_, fun v => ?_⟩
      · exact (symbolOf?_concat _ (symbol, text.toList)) ▸ htrie'
      · rw [hwords', hwords]
        simp only [Call.literal?, Option.toList_some, List.mem_append, List.mem_singleton,
          or_and_right, exists_or, exists_eq_left, or_assoc]
    | pattern => exact (hc _ List.mem_cons_self).elim
    | property | symbol | production | group | lalrState =>
      simp only [Call.literal?, Option.toList_none, List.append_nil]
      exact ⟨words, { htrie with }, hwords⟩

end Draft

end CompiledGrammar
