import CompiledGrammar.Proofs.Grammar.Derived
import CompiledGrammar.Proofs.Lexer.Scan
import CompiledGrammar.Table.Sample
import Mathlib.Data.List.Infix

/-!
# The longest match

`Grammar.walk` goes through a text once, and keeps the last accepted beginning in mind.  Here it is
compared with the plain definition, in which each beginning of the text is followed on its own.

* `Grammar.reach` is the state that a text leads to, and `Grammar.symbolOf?` the symbol that it is
  accepted as.
* `Grammar.Match` lists what a match can be: the longest accepted beginning of the text, else
  everything up to the character that leads nowhere, else the end of the input.  There is only one
  match (`Grammar.Match.unique`).
* The next match is one (`Grammar.exists_match`), and the next token of a lexer is of that text
  (`Lexer.peek_of_nextMatch`).
* A walk can be made in one pass, in which a loop leaves the state, and one that does not accept
  leaves what has been found (`Grammar.onePass_eq`).

`Lexer.longest_match` puts these together for every loaded grammar and every place in an input.
-/

namespace CompiledGrammar

/-! ### Characters by their code points -/

theorem holds_dfaCode_iff {c c' : Char} (hc : c.toNat < 0xFFFF) {t : Transition} :
    TransitionRange.Holds ⟨c.toNat, c.toNat, t⟩ (dfaCode c') ↔ c' = c := by
  rw [← Char.toNat_inj]
  simp only [TransitionRange.Holds, dfaCode]
  omega

/-- The automaton knows a character by its code point, up to the last one that it can name. -/
theorem holds_dfaCode_iff_le {first last c : Char} (h : last.toNat < 0xFFFF) {t : Transition} :
    TransitionRange.Holds ⟨first.toNat, last.toNat, t⟩ (dfaCode c) ↔ first ≤ c ∧ c ≤ last := by
  have hle (a b : Char) : a ≤ b ↔ a.toNat ≤ b.toNat := by
    rw [Char.le_def, UInt32.le_iff_toNat_le]
    rfl
  simp only [TransitionRange.Holds, dfaCode, hle]
  omega

namespace Grammar

/-- The state that a text leads to, if it leads anywhere. -/
def reach (g : Grammar) (q : DfaState) (cs : List Char) : Option DfaState :=
  cs.foldlM g.dfaStep q

/-- The symbol that a text is accepted as. -/
def symbolOf? (g : Grammar) (q : DfaState) (cs : List Char) : Option SymbolIdx :=
  (g.reach q cs).bind (·.accept)

variable {g : Grammar} {q next : DfaState} {c : Char} {cs w : List Char} {s : SymbolIdx}

theorem reach_cons : g.reach q (c :: cs) = (g.dfaStep q c).bind fun next => g.reach next cs := rfl

theorem reach_concat :
    g.reach q (cs ++ [c]) = (g.reach q cs).bind fun next => g.dfaStep next c := by
  simp only [reach, List.foldlM_append, List.foldlM_cons, List.foldlM_nil, bind_pure]
  rfl

theorem symbolOf?_cons_of_step (h : g.dfaStep q c = some next) :
    g.symbolOf? q (c :: cs) = g.symbolOf? next cs := by
  rw [symbolOf?, reach_cons, h]
  rfl

theorem symbolOf?_cons_of_dead (h : g.dfaStep q c = none) : g.symbolOf? q (c :: cs) = none := by
  rw [symbolOf?, reach_cons, h]
  rfl

/-! ### What a walk finds -/

/-- The text is the longest beginning of another that is accepted, and not empty. -/
structure IsLongest (g : Grammar) (q : DfaState) (cs w : List Char) (s : SymbolIdx) : Prop where
  isPrefix : w <+: cs
  ne_nil : w ≠ []
  symbol : g.symbolOf? q w = some s
  longest : ∀ v, v <+: cs → w.length < v.length → g.symbolOf? q v = none

theorem IsLongest.cons (h : g.IsLongest next cs w s) (hstep : g.dfaStep q c = some next) :
    g.IsLongest q (c :: cs) (c :: w) s where
  isPrefix := List.cons_prefix_cons.2 ⟨rfl, h.isPrefix⟩
  ne_nil := List.cons_ne_nil _ _
  symbol := (symbolOf?_cons_of_step hstep).trans h.symbol
  longest v hv hlen := by
    rcases List.prefix_cons_iff.1 hv with rfl | ⟨v, rfl, hrest⟩
    · cases hlen
    · rw [symbolOf?_cons_of_step hstep]
      exact h.longest v hrest (Nat.lt_of_succ_lt_succ hlen)

/-- A walk finds the longest accepted beginning, if there is one. -/
theorem accepted_walk (q : DfaState) (cs : List Char) :
    match (g.walk q cs).accepted with
    | some (s, n) => ∃ w, w.length = n ∧ g.IsLongest q cs w s
    | none => ∀ w, w <+: cs → w ≠ [] → g.symbolOf? q w = none := by
  induction cs generalizing q with
  | nil => exact fun w hw hne => absurd (List.prefix_nil.1 hw) hne
  | cons c cs ih =>
    rw [walk]
    cases hstep : g.dfaStep q c with
    | none =>
      intro w hw hne
      rcases List.prefix_cons_iff.1 hw with rfl | ⟨w, rfl, -⟩
      · contradiction
      · exact symbolOf?_cons_of_dead hstep
    | some next =>
      have ih := ih next
      dsimp only
      cases haccepted : (g.walk next cs).accepted with
      | some found =>
        rw [haccepted] at ih
        obtain ⟨w, hlen, hlongest⟩ := ih
        exact ⟨c :: w, congrArg Nat.succ hlen, hlongest.cons hstep⟩
      | none =>
        rw [haccepted] at ih
        -- nothing longer than the one character is accepted
        have hlonger (v : List Char) (hv : v <+: c :: cs) (hlen : 1 < v.length) :
            g.symbolOf? q v = none := by
          rcases List.prefix_cons_iff.1 hv with rfl | ⟨v, rfl, hrest⟩
          · cases hlen
          · rw [symbolOf?_cons_of_step hstep]
            exact ih v hrest (List.ne_nil_of_length_pos (Nat.lt_of_succ_lt_succ hlen))
        have hone : g.symbolOf? q [c] = next.accept := symbolOf?_cons_of_step hstep
        cases haccept : next.accept with
        | some s =>
          exact ⟨[c], rfl, List.cons_prefix_cons.2 ⟨rfl, List.nil_prefix⟩, List.cons_ne_nil _ _,
            hone.trans haccept, hlonger⟩
        | none =>
          intro w hw hne
          by_cases hlen : 1 < w.length
          · exact hlonger w hw hlen
          · rcases List.prefix_cons_iff.1 hw with rfl | ⟨w, rfl, -⟩
            · contradiction
            · obtain rfl : w = [] := List.eq_nil_of_length_eq_zero (by simpa using hlen)
              exact hone.trans haccept

/-- The text is the beginning of another up to the character that leads nowhere, or all of it. -/
structure IsRead (g : Grammar) (q : DfaState) (cs w : List Char) : Prop where
  isPrefix : w <+: cs
  before : ∀ v, v <+: cs → v.length < w.length → (g.reach q v).isSome = true
  last : w = cs ∨ g.reach q w = none

/-- A walk reads up to the character that leads nowhere. -/
theorem read_walk (q : DfaState) (cs : List Char) :
    ∃ w, w.length = (g.walk q cs).read ∧ g.IsRead q cs w := by
  induction cs generalizing q with
  | nil =>
    exact ⟨[], rfl, List.nil_prefix, fun v _ hlen => absurd hlen (Nat.not_lt_zero _), .inl rfl⟩
  | cons c cs ih =>
    rw [walk]
    cases hstep : g.dfaStep q c with
    | none =>
      refine ⟨[c], rfl, List.cons_prefix_cons.2 ⟨rfl, List.nil_prefix⟩, fun v _ hlen => ?_, .inr ?_⟩
      · rw [List.eq_nil_of_length_eq_zero (Nat.lt_one_iff.1 hlen)]
        rfl
      · rw [reach_cons, hstep]
        rfl
    | some next =>
      obtain ⟨w, hlen, hprefix, hbefore, hlast⟩ := ih next
      refine ⟨c :: w, congrArg Nat.succ hlen, List.cons_prefix_cons.2 ⟨rfl, hprefix⟩,
        fun v hv hlt => ?_, ?_⟩
      · rcases List.prefix_cons_iff.1 hv with rfl | ⟨v, rfl, hrest⟩
        · rfl
        · rw [reach_cons, hstep]
          exact hbefore v hrest (Nat.lt_of_succ_lt_succ hlt)
      · rw [reach_cons, hstep]
        exact hlast.imp (congrArg _) id

/-! ### The next match -/

/-- What the next match of a text can be. -/
inductive Match (g : Grammar) (q : DfaState) (cs : List Char) : SymbolIdx → List Char → Prop where
  /-- The longest accepted beginning. -/
  | accepted {s : SymbolIdx} {w : List Char} : g.IsLongest q cs w s → Match g q cs s w
  /-- Everything up to the character that leads nowhere, if no beginning is accepted. -/
  | error {w : List Char} :
      (∀ v, v <+: cs → v ≠ [] → g.symbolOf? q v = none) → w ≠ [] → g.IsRead q cs w →
      Match g q cs g.errorSymbol w
  /-- The end of the input. -/
  | ends : cs = [] → Match g q cs g.eofSymbol []

/-- **The next match is the longest accepted beginning**, an error or the end of the input. -/
theorem exists_match (hq : g.dfaStates[g.dfaInitial]? = some q) (cs : List Char) :
    ∃ s w, g.Match q cs s w ∧ g.nextMatch cs = (s, w.length) := by
  have haccepted := accepted_walk (g := g) q cs
  obtain ⟨w, hlen, hread⟩ := read_walk (g := g) q cs
  simp only [nextMatch, hq]
  cases hfound : (g.walk q cs).accepted with
  | some found =>
    rw [hfound] at haccepted
    obtain ⟨v, hv, hlongest⟩ := haccepted
    exact ⟨found.1, v, .accepted hlongest, Prod.ext rfl hv.symm⟩
  | none =>
    rw [hfound] at haccepted
    dsimp only
    by_cases hcs : cs = []
    · exact ⟨g.eofSymbol, [], .ends hcs, by rw [hcs]; rfl⟩
    · have hpos := read_walk_pos (g := g) (q := q) hcs
      rw [if_neg (Nat.ne_of_gt hpos)]
      refine ⟨g.errorSymbol, w, .error haccepted ?_ hread, by rw [hlen]⟩
      exact List.ne_nil_of_length_pos (by rwa [hlen])

theorem Match.isPrefix (h : g.Match q cs s w) : w <+: cs := by
  cases h with
  | accepted hlongest => exact hlongest.isPrefix
  | error _ _ hread => exact hread.isPrefix
  | ends => exact List.nil_prefix

/-! ### One match -/

variable {t : SymbolIdx} {v : List Char}

theorem IsLongest.length_le (h : g.IsLongest q cs w s) (h' : g.IsLongest q cs v t) :
    v.length ≤ w.length := by
  by_contra hlt
  have hnone := h.longest v h'.isPrefix (Nat.lt_of_not_le hlt)
  rw [h'.symbol] at hnone
  cases hnone

theorem IsRead.length_le (h : g.IsRead q cs w) (h' : g.IsRead q cs v) : v.length ≤ w.length := by
  rcases h.last with rfl | hdead
  · exact h'.isPrefix.length_le
  · by_contra hlt
    have hsome := h'.before w h.isPrefix (Nat.lt_of_not_le hlt)
    rw [hdead] at hsome
    cases hsome

/-- Beginnings of a text that are of the same length are equal. -/
theorem eq_of_prefix (hw : w <+: cs) (hv : v <+: cs) (hwv : w.length ≤ v.length)
    (hvw : v.length ≤ w.length) : v = w :=
  (List.prefix_of_prefix_length_le hv hw hvw).eq_of_length (Nat.le_antisymm hvw hwv)

/-- A text has only one match. -/
theorem Match.unique (h : g.Match q cs s w) (h' : g.Match q cs t v) : t = s ∧ v = w := by
  -- where a beginning is accepted, there is neither an error nor the end of the input
  have haccepted {s : SymbolIdx} {w : List Char} (hlongest : g.IsLongest q cs w s) :
      (¬ ∀ v, v <+: cs → v ≠ [] → g.symbolOf? q v = none) ∧ cs ≠ [] := by
    refine ⟨fun hnone => ?_, ?_⟩
    · have hsymbol := hlongest.symbol
      rw [hnone w hlongest.isPrefix hlongest.ne_nil] at hsymbol
      cases hsymbol
    · rintro rfl
      exact hlongest.ne_nil (List.prefix_nil.1 hlongest.isPrefix)
  have herror {w : List Char} (hne : w ≠ []) (hread : g.IsRead q cs w) : cs ≠ [] := by
    rintro rfl
    exact hne (List.prefix_nil.1 hread.isPrefix)
  cases h with
  | accepted hlongest =>
    cases h' with
    | accepted hlongest' =>
      obtain rfl := eq_of_prefix hlongest.isPrefix hlongest'.isPrefix
        (hlongest'.length_le hlongest) (hlongest.length_le hlongest')
      exact ⟨Option.some.inj (hlongest'.symbol.symm.trans hlongest.symbol), rfl⟩
    | error hnone _ _ => exact absurd hnone (haccepted hlongest).1
    | ends hnil => exact absurd hnil (haccepted hlongest).2
  | error hnone hne hread =>
    cases h' with
    | accepted hlongest' => exact absurd hnone (haccepted hlongest').1
    | error _ _ hread' =>
      exact ⟨rfl, eq_of_prefix hread.isPrefix hread'.isPrefix (hread'.length_le hread)
        (hread.length_le hread')⟩
    | ends hnil => exact absurd hnil (herror hne hread)
  | ends hnil =>
    cases h' with
    | accepted hlongest' => exact absurd hnil (haccepted hlongest').2
    | error _ hne' hread' => exact absurd hnil (herror hne' hread')
    | ends _ => exact ⟨rfl, rfl⟩

/-! ### One pass -/

/-- A character leads nowhere exactly if its transition says so: all states that transitions name
are there. -/
theorem WellFormed.dfaStep_eq_none_iff (hg : g.WellFormed) (hq : q ∈ g.dfaStates) :
    g.dfaStep q c = none ↔ q.lookup.transition (dfaCode c) = .dead := by
  have hmem := Lookup.transition_mem q.lookup (dfaCode c)
  unfold dfaStep
  generalize q.lookup.transition (dfaCode c) = t at hmem
  cases t with
  | goto t =>
    have hlt : t < g.dfaStates.size := hg.transitions q hq _ (hmem.resolve_left nofun)
    simp [Array.getElem?_eq_getElem hlt]
  | acceptLoop => simp
  | loop => simp
  | dead => simp

/-- Walk from a state in one pass, after `n` characters of which the last accepted beginning is
`hit`. -/
def onePass (g : Grammar) (q : DfaState) (hit : Option (SymbolIdx × Nat)) (n : Nat) :
    List Char → Walk
  | [] => ⟨hit, n⟩
  | c :: cs =>
    match q.lookup.transition (dfaCode c) with
    | .goto t =>
      match g.dfaStates[t]? with
      | some next =>
        match next.accept with
        | some symbol => onePass g next (some (symbol, n + 1)) (n + 1) cs
        | none => onePass g next hit (n + 1) cs
      | none => ⟨hit, n + 1⟩
    | .acceptLoop => onePass g q (q.accept.map fun symbol => (symbol, n + 1)) (n + 1) cs
    | .loop => onePass g q hit (n + 1) cs
    | .dead => ⟨hit, n + 1⟩

/-- The pass stops where a walk does. -/
theorem onePass_cons_of_dead (hg : g.WellFormed) (hq : q ∈ g.dfaStates)
    (h : g.dfaStep q c = none) (hit : Option (SymbolIdx × Nat)) (n : Nat) :
    g.onePass q hit n (c :: cs) = ⟨hit, n + 1⟩ := by
  rw [onePass, (hg.dfaStep_eq_none_iff hq).1 h]

/-- A step of the pass changes what has been found if it comes to a state that accepts. -/
theorem onePass_cons_of_step (hg : g.Loaded) (hq : q ∈ g.dfaStates)
    (h : g.dfaStep q c = some next) (hit : Option (SymbolIdx × Nat)) (n : Nat) :
    g.onePass q hit n (c :: cs) =
      g.onePass next ((next.accept.map fun symbol => (symbol, n + 1)).or hit) (n + 1) cs := by
  rw [onePass]
  rw [dfaStep] at h
  cases htransition : q.lookup.transition (dfaCode c) with
  | goto t =>
    rw [htransition] at h
    dsimp only at h ⊢
    rw [h]
    dsimp only
    cases next.accept <;> rfl
  | acceptLoop =>
    rw [htransition] at h
    cases h
    have hwithin : Transition.acceptLoop.Within g.size q.toDfaRow := by
      refine hg.wellFormed.transitions q hq _ ?_
      rw [← htransition]
      exact (Lookup.transition_mem _ _).resolve_left (by rw [htransition]; nofun)
    obtain ⟨symbol, hsymbol⟩ := Option.isSome_iff_exists.1 hwithin
    rw [hsymbol]
    rfl
  | loop =>
    rw [htransition] at h
    cases h
    rw [hg.accept_eq_none_of_loop hq htransition]
    rfl
  | dead =>
    rw [htransition] at h
    cases h

/-- One pass finds what a walk finds, or else what it had found before. -/
theorem onePass_eq (hg : g.Loaded) (hq : q ∈ g.dfaStates) (hit : Option (SymbolIdx × Nat))
    (n : Nat) : g.onePass q hit n cs =
      ⟨((g.walk q cs).accepted.map fun found => (found.1, found.2 + n)).or hit,
        (g.walk q cs).read + n⟩ := by
  induction cs generalizing q hit n with
  | nil => rw [onePass, walk, Option.map_none, Option.none_or, Nat.zero_add]
  | cons c cs ih =>
    rw [walk]
    cases hstep : g.dfaStep q c with
    | none =>
      rw [onePass_cons_of_dead hg.wellFormed hq hstep, Option.map_none, Option.none_or,
        Nat.add_comm]
    | some next =>
      have hnext : next ∈ g.dfaStates :=
        Array.mem_toList_iff.1 (Lexer.dfaStep_mem (Array.mem_toList_iff.2 hq) hstep)
      rw [onePass_cons_of_step hg hq hstep, ih hnext]
      dsimp only
      -- both count the character that has just been read
      cases (g.walk next cs).accepted with
      | some found => simp [Nat.add_assoc, Nat.add_comm 1]
      | none => cases next.accept <;> simp [Nat.add_assoc, Nat.add_comm 1]

end Grammar

namespace Lexer

variable {g : Grammar} {l : Lexer}

/-- The next token is of the text that is matched, and what comes after it is left. -/
theorem peek_of_nextMatch {s : SymbolIdx} {w rest : List Char} (hrest : l.cursor.rest = w ++ rest)
    (h : g.nextMatch l.cursor.rest = (s, w.length)) :
    (l.peek g).1 =
        ⟨s, ⟨l.cursor.offset, l.cursor.offset + Utf8.byteLength w⟩, l.cursor.position⟩ ∧
      (l.peek g).2.offset = l.cursor.offset + Utf8.byteLength w ∧ (l.peek g).2.rest = rest := by
  have htake : l.cursor.rest.take w.length = w := by rw [hrest, List.take_left]
  have hdrop : l.cursor.rest.drop w.length = rest := by rw [hrest, List.drop_left]
  have hafter : (l.peek g).2 = l.cursor.advanceBy l.lineTerminator w.length := by
    rw [peek, h]
  have hoffset : (l.peek g).2.offset = l.cursor.offset + Utf8.byteLength w := by
    rw [hafter, Cursor.advanceBy_eq, htake]
  refine ⟨?_, hoffset, ?_⟩
  · rw [← hoffset, peek, h]
  · rw [hafter, Cursor.advanceBy_eq, hdrop]

/-- The lexeme of the next token is the text that is matched. -/
theorem lexeme?_peek {s : SymbolIdx} {w rest : List Char} (hin : l.cursor.In l.buffer.chars)
    (hrest : l.cursor.rest = w ++ rest) (h : g.nextMatch l.cursor.rest = (s, w.length)) :
    (l.peek g).1.lexeme? l.buffer = some (String.ofList w) := by
  obtain ⟨before, hbefore, hstart⟩ := Utf8.dropBytes?_eq_some.1 hin
  rw [(peek_of_nextMatch hrest h).1]
  exact Buffer.slice?_eq_some.2 ⟨before, w, rest, by rw [← hrest, hbefore], hstart,
    (Nat.add_sub_cancel_left _ _).symm, rfl⟩

/-- **The next token is of the longest match.**  In a loaded grammar a character leads nowhere
exactly if its transition is dead, and one pass over what is left of the input does for a walk.  The
next token is of the only text that `Grammar.Match` allows: the longest beginning that is accepted
and not empty, else everything up to the character that leads nowhere, else the end of the input. -/
theorem longest_match (hg : g.Loaded) (l : Lexer) :
    (∀ p ∈ g.dfaStates, ∀ c, g.dfaStep p c = none ↔ p.lookup.transition (dfaCode c) = .dead) ∧
    ∃ q, g.dfaStates[g.dfaInitial]? = some q ∧
      g.onePass q none 0 l.cursor.rest = g.walk q l.cursor.rest ∧
      ∃ s w rest, l.cursor.rest = w ++ rest ∧
        (∀ t v, g.Match q l.cursor.rest t v ↔ t = s ∧ v = w) ∧
        (l.peek g).1 =
          ⟨s, ⟨l.cursor.offset, l.cursor.offset + Utf8.byteLength w⟩, l.cursor.position⟩ ∧
        (l.peek g).2.offset = l.cursor.offset + Utf8.byteLength w ∧ (l.peek g).2.rest = rest ∧
        (l.cursor.In l.buffer.chars →
          (l.peek g).1.lexeme? l.buffer = some (String.ofList w)) := by
  have hwf := hg.wellFormed
  have hq := Array.getElem?_eq_getElem hwf.dfaInitial
  refine ⟨fun p hp c => hwf.dfaStep_eq_none_iff hp, _, hq, ?_, ?_⟩
  · rw [Grammar.onePass_eq hg (Array.mem_of_getElem? hq)]
    simp
  obtain ⟨s, w, hmatch, hnext⟩ := Grammar.exists_match hq l.cursor.rest
  obtain ⟨rest, hrest⟩ := hmatch.isPrefix
  obtain ⟨htoken, hoffset, hafter⟩ := peek_of_nextMatch hrest.symm hnext
  refine ⟨s, w, rest, hrest.symm, fun t v => ⟨hmatch.unique, ?_⟩, htoken, hoffset, hafter,
    fun hin => lexeme?_peek hin hrest.symm hnext⟩
  rintro ⟨rfl, rfl⟩
  exact hmatch

set_option maxRecDepth 10000 in
/-- A `«` that opens no name is a token of its own, although the automaton loops through the letters
after it, up to a character beyond all character sets. -/
theorem longest_match_unclosed :
    ∃ g, Grammar.ofBytes Sample.accented.toBytes = .ok g ∧ ∃ l : Lexer,
      l = ({} : Lexer).load (.owned "«éé𝒳") ∧ ∃ q, g.dfaStates[g.dfaInitial]? = some q ∧
      g.onePass q none 0 l.cursor.rest = ⟨some (4, 1), 4⟩ ∧
      (∀ t v, g.Match q l.cursor.rest t v ↔ t = 4 ∧ v = ['«']) ∧
      (l.peek g).1 = ⟨4, ⟨0, 2⟩, .first⟩ ∧ (l.peek g).2.rest = ['é', 'é', '𝒳'] ∧
      (l.peek g).1.lexeme? l.buffer = some "«" := by
  generalize hl : ({} : Lexer).load (.owned "«éé𝒳") = l
  have hcursor : l.cursor = .start ['«', 'é', 'é', '𝒳'] := by
    rw [← hl]
    decide
  have hcheck : Grammar.loadsWith Sample.accented.toBytes (fun g =>
      (l.peek g).1.symbol == 4 && ((l.peek g).2.rest == ['é', 'é', '𝒳'] &&
        g.dfaStates[g.dfaInitial]?.any fun q =>
          g.walk q l.cursor.rest == ⟨some (4, 1), 4⟩)) = true := by
    rw [← hl]
    decide +kernel
  obtain ⟨g, hload, hg⟩ := Grammar.exists_of_loadsWith hcheck
  simp only [Bool.and_eq_true, beq_iff_eq, Option.any_eq_true] at hg
  obtain ⟨hsymbol, hleft, p, hp, hwalk⟩ := hg
  obtain ⟨-, q, hq, hpass, s, w, rest, hrest, hmatch, htoken, -, hafter, hlexeme⟩ :=
    longest_match (.ofBytes hload) l
  obtain rfl : p = q := Option.some.inj (hp.symm.trans hq)
  obtain rfl : s = 4 := by rw [← hsymbol, htoken]
  obtain rfl : w = ['«'] := by
    rw [← hafter, hleft, hcursor] at hrest
    have heq : ['«'] ++ ['é', 'é', '𝒳'] = w ++ ['é', 'é', '𝒳'] := hrest
    exact (List.append_cancel_right heq).symm
  have hin : l.cursor.In l.buffer.chars := by
    rw [← hl]
    exact Cursor.in_start _
  refine ⟨g, hload, l, rfl, p, hp, hpass.trans hwalk, hmatch, ?_, hleft, hlexeme hin⟩
  rw [htoken, hcursor]
  rfl

end Lexer

end CompiledGrammar
