import CompiledGrammar.Proofs.Lexer.LongestMatch
import CompiledGrammar.Proofs.Lexer.Lossless

/-!
# Line comments

In the grammar of `Sample.comments` a line comment starts with `//`, takes in one match after the
other, and is closed by a newline, which is left to be scanned.  Whether it ends with its line is up
to the matches in it.  Most of them end before the newline.  But `/` and `*` begin delimiters of two
characters, and one that is not completed is an error, which takes the next character with it: a
newline too.

* Inside a group that lets nothing nest, a match that does not close the group is passed over
  (`Lexer.scanStep_of_skips`).
* `Sample.ScansComments` describes the lexical automaton of the grammar, and
  `Sample.ScansComments.exists_nextMatch` the matches inside a line.
* `Sample.dangles` tells whether a text ends in half a delimiter, reading from its start.
* `Sample.line_comment_iff` is what this comes to, and `Sample.line_comment_slash` a comment that
  goes on in the next line.
-/

namespace CompiledGrammar

theorem Cursor.advanceBy_add (terminator : UInt8) (m n : Nat) (c : Cursor) :
    c.advanceBy terminator (m + n) = (c.advanceBy terminator m).advanceBy terminator n := by
  induction m generalizing c with
  | zero => rw [Nat.zero_add, advanceBy]
  | succ m ih => rw [Nat.succ_add, advanceBy, ih, advanceBy]

namespace Lexer

variable {g : Grammar} {l next : Lexer} {token : Token} {top : OpenGroup} {outer : List OpenGroup}

theorem symbol_peek : (l.peek g).1.symbol = (g.nextMatch l.cursor.rest).1 := rfl

/-! ### Groups that let nothing nest -/

theorem opens?_of_nesting_eq_nil (hgroups : l.groups = top :: outer)
    (hnesting : top.group.nesting = []) (token : Token) : l.opens? g token = none := by
  unfold opens?
  split
  · simp [hgroups, Group.nests, hnesting]
  · rfl

/-- A match that neither closes the group nor is the end of the input is passed over. -/
theorem scanStep_of_skips (hgroups : l.groups = [top]) (hnesting : top.group.nesting = [])
    (hadvance : top.group.advance = .token) (hsymbol : top.group.endSymbol ≠ (l.peek g).1.symbol)
    (hend : isEnd g (l.peek g).1 = false) :
    l.scanStep g = .resume (l.peek g).1 { l with cursor := (l.peek g).2 } := by
  simp [scanStep, opens?_of_nesting_eq_nil hgroups hnesting, hgroups, hsymbol, hend, hadvance]

/-- A match that closes the group ends the token, and may be left to be scanned. -/
theorem scanStep_of_closes (hgroups : l.groups = [top]) (hnesting : top.group.nesting = [])
    (hending : top.group.ending = .opened)
    (hsymbol : top.group.endSymbol = (l.peek g).1.symbol) :
    l.scanStep g = .emit ⟨top.group.container, ⟨top.start, l.cursor.offset⟩, top.position⟩
      { l with groups := [] } := by
  simp [scanStep, opens?_of_nesting_eq_nil hgroups hnesting, hgroups, hsymbol, hending]

/-- Scanning never goes back. -/
theorem length_rest_scanStep_le :
    (l.scanStep g).next.cursor.rest.length ≤ l.cursor.rest.length := by
  have hafter := length_rest_peek_le g l
  have hscans := scans_scanStep (g := g) (l := l)
  generalize l.scanStep g = step at hscans
  cases hscans with
  | opens => exact hafter
  | single => exact hafter
  | closes _ _ hcursor => rcases hcursor with rfl | rfl <;> simp [Step.next, hafter]
  | leaves _ _ _ hcursor => rcases hcursor with rfl | rfl <;> simp [Step.next, hafter]
  | ends => exact Nat.le_refl _
  | skips _ _ hcursor =>
    rcases hcursor with rfl | rfl
    · exact hafter
    · simp [Step.next, Cursor.length_rest_advance]

theorem length_rest_scanToken_le : (l.scanToken g).2.cursor.rest.length ≤ l.cursor.rest.length := by
  fun_induction Lexer.scanToken g l with
  | case1 l token next hstep =>
    have hle := length_rest_scanStep_le (g := g) (l := l)
    rwa [hstep] at hle
  | case2 l _ next hstep _ ih =>
    have hle := length_rest_scanStep_le (g := g) (l := l)
    rw [hstep] at hle
    exact Nat.le_trans ih hle

end Lexer

namespace Sample

/-! ### The lexical automaton -/

/-- White space within a line. -/
def isBlank (c : Char) : Bool := c = '\t' || c = ' '

/-- A lower-case letter. -/
def isLetter (c : Char) : Bool := 'a' ≤ c && c ≤ 'z'

/-- Where a state of the lexical automaton leads. -/
def commentsNext (i : DfaStateIdx) (c : Char) : Option DfaStateIdx :=
  match i with
  | 0 =>
    if isBlank c then some 1
    else if c = '\n' then some 2
    else if isLetter c then some 3
    else if c = '/' then some 4
    else if c = '*' then some 6
    else none
  | 1 => if isBlank c then some 1 else none
  | 3 => if isLetter c then some 3 else none
  | 4 => if c = '*' then some 5 else if c = '/' then some 8 else none
  | 6 => if c = '/' then some 7 else none
  | _ => none

/-- The range of one character. -/
def singleRange (c : Char) (target : Transition) : TransitionRange :=
  ⟨c.toNat, c.toNat, target⟩

/-- The ranges of the edges of a state. -/
def commentsRanges : DfaStateIdx → List TransitionRange
  | 0 =>
    [singleRange '\t' (.goto 1), singleRange ' ' (.goto 1), singleRange '\n' (.goto 2),
      ⟨'a'.toNat, 'z'.toNat, .goto 3⟩, singleRange '/' (.goto 4), singleRange '*' (.goto 6)]
  | 1 => [singleRange '\t' .acceptLoop, singleRange ' ' .acceptLoop]
  | 3 => [⟨'a'.toNat, 'z'.toNat, .acceptLoop⟩]
  | 4 => [singleRange '*' (.goto 5), singleRange '/' (.goto 8)]
  | 6 => [singleRange '/' (.goto 7)]
  | _ => []

/-- The symbol that each state accepts. -/
def commentsAccept : List (Option SymbolIdx) :=
  [none, some 2, some 3, some 4, none, some 6, none, some 7, some 9]

/-- The group of line comments. -/
def lineComment : Group := ⟨1, "LineComment", 8, 9, 3, .token, .opened, []⟩

/-- The state is as described. -/
structure IsCommentsState (g : Grammar) (i : DfaStateIdx) (q : DfaState) : Prop where
  get : g.dfaStates[i]? = some q
  accept : commentsAccept[i]? = some q.accept
  ranges : Lookup.edgeRanges g.charsetRanges q.toDfaRow = commentsRanges i

/-- What scanning line comments relies on. -/
structure ScansComments (g : Grammar) : Prop where
  loaded : g.Loaded
  initial : g.dfaInitial = 0
  error : g.errorSymbol = 1
  states : ∀ i < 9, ∃ q, IsCommentsState g i q
  starts : g.hasKind 9 .groupStart = true
  group : g.groupStartedBy? 9 = some lineComment
  endOfFile : ∀ s ∈ [1, 2, 4, 6, 7, 9], g.hasKind s .endOfFile = false

set_option maxRecDepth 10000 in
theorem exists_scansComments :
    ∃ g, Grammar.ofBytes comments.toBytes = .ok g ∧ ScansComments g := by
  have hcheck : Grammar.loadsWith comments.toBytes (fun g =>
      g.dfaInitial == 0 && (g.errorSymbol == 1 && (((List.range 9).all fun i =>
        g.dfaStates[i]?.any fun q => commentsAccept[i]? == some q.accept &&
          Lookup.edgeRanges g.charsetRanges q.toDfaRow == commentsRanges i) &&
      (g.hasKind 9 .groupStart && (g.groupStartedBy? 9 == some lineComment &&
        [1, 2, 4, 6, 7, 9].all fun s => !g.hasKind s .endOfFile))))) = true := by
    decide +kernel
  obtain ⟨g, hload, hg⟩ := Grammar.exists_of_loadsWith hcheck
  simp only [Bool.and_eq_true, beq_iff_eq, List.all_eq_true, List.mem_range, Option.any_eq_true,
    Bool.not_eq_true'] at hg
  obtain ⟨hinitial, herror, hstates, hstarts, hgroup, hend⟩ := hg
  refine ⟨g, hload, .ofBytes hload, hinitial, herror, fun i hi => ?_, hstarts, hgroup, hend⟩
  obtain ⟨q, hq, haccept, hranges⟩ := hstates i hi
  exact ⟨q, hq, haccept, hranges⟩

theorem scansComments_of_ofBytes {g : Grammar} (h : Grammar.ofBytes comments.toBytes = .ok g) :
    ScansComments g := by
  obtain ⟨g', hload, hscans⟩ := exists_scansComments
  obtain rfl : g' = g := Except.ok.inj (hload.symm.trans h)
  exact hscans

variable {g : Grammar} {i : DfaStateIdx} {q : DfaState} {c : Char}

theorem pairwise_apart_commentsRanges (i : DfaStateIdx) :
    (commentsRanges i).Pairwise TransitionRange.Apart := by
  have hordered : (commentsRanges i).Pairwise fun r s => r.last < s.first ∨ s.last < r.first := by
    unfold commentsRanges
    split <;> decide
  exact hordered.imp TransitionRange.apart_of_lt

/-- The ranges of a state say where it leads. -/
theorem find?_commentsRanges (i : DfaStateIdx) (c : Char) :
    ((commentsRanges i).find? fun r => r.Holds (dfaCode c)).map TransitionRange.target =
      (commentsNext i c).map fun j => if j = i then .acceptLoop else .goto j := by
  have hletter (t : Transition) :
      decide (TransitionRange.Holds ⟨'a'.toNat, 'z'.toNat, t⟩ (dfaCode c)) = isLetter c := by
    rw [isLetter, ← Bool.decide_and]
    exact decide_eq_decide.2 (holds_dfaCode_iff_le (by decide))
  have hsingle (d : Char) (hd : d.toNat < 0xFFFF) (t : Transition) :
      decide ((singleRange d t).Holds (dfaCode c)) = decide (c = d) :=
    decide_eq_decide.2 (holds_dfaCode_iff hd)
  match i with
  | 0 | 1 | 3 | 4 | 6 =>
    simp only [commentsRanges, commentsNext, isBlank, List.find?_cons, List.find?_nil, hletter,
      hsingle '\t' (by decide), hsingle ' ' (by decide), hsingle '\n' (by decide),
      hsingle '/' (by decide), hsingle '*' (by decide)]
    grind [singleRange]
  | 2 | 5 | 7 | 8 => rfl
  | _ + 9 => rfl

theorem IsCommentsState.dfaStep_eq (hg : g.Loaded) (h : IsCommentsState g i q) (c : Char) :
    g.dfaStep q c = (commentsNext i c).bind fun j => g.dfaStates[j]? := by
  have hapart := pairwise_apart_commentsRanges i
  rw [← h.ranges] at hapart
  rw [Grammar.dfaStep, hg.lookup_eq (Array.mem_of_getElem? h.get),
    Lookup.transition_eq_find? hapart, h.ranges, find?_commentsRanges]
  cases commentsNext i c with
  | none => rfl
  | some j =>
    by_cases hj : j = i
    · simp [hj, h.get]
    · simp [hj]

end Sample

/-! ### Matches -/

namespace Grammar

variable {g : Grammar} {q next : DfaState} {c d : Char} {cs : List Char} {s : SymbolIdx}

theorem nextMatch_cons_of_dead (hq : g.dfaStates[g.dfaInitial]? = some q)
    (h : g.dfaStep q c = none) : g.nextMatch (c :: cs) = (g.errorSymbol, 1) := by
  simp [nextMatch, hq, walk, h]

theorem nextMatch_cons_of_step (hq : g.dfaStates[g.dfaInitial]? = some q)
    (h : g.dfaStep q c = some next) : g.nextMatch (c :: cs) =
      (((g.walk next cs).accepted.map fun found => (found.1, found.2 + 1)).or
        (next.accept.map fun s => (s, 1))).getD (g.errorSymbol, (g.walk next cs).read + 1) := by
  simp only [nextMatch, hq, walk, h]
  cases (g.walk next cs).accepted with
  | some found => rfl
  | none => cases next.accept <;> rfl

/-- From a state that leads nowhere, nothing more is accepted. -/
theorem accepted_walk_of_stuck (h : ∀ c, g.dfaStep q c = none) (cs : List Char) :
    (g.walk q cs).accepted = none := by
  cases cs with
  | nil => rfl
  | cons c cs => rw [walk, h]

/-- From a state that only loops, as much is accepted as there are characters of the loop. -/
theorem accepted_walk_of_loop {p : Char → Bool}
    (hstep : ∀ c, g.dfaStep q c = if p c then some q else none) (haccept : q.accept = some s)
    (cs : List Char) : (g.walk q cs).accepted =
      if cs.takeWhile p = [] then none else some (s, (cs.takeWhile p).length) := by
  induction cs with
  | nil => rfl
  | cons c cs ih =>
    rw [walk, hstep]
    by_cases hc : p c = true
    · rw [if_pos hc]
      dsimp only
      rw [ih, List.takeWhile_cons_of_pos hc, haccept]
      by_cases hnil : cs.takeWhile p = []
      · simp [hnil]
      · simp [hnil]
    · rw [if_neg hc, List.takeWhile_cons_of_neg hc, if_pos rfl]

end Grammar

namespace Sample

/-- The symbol of two characters of which the first begins a delimiter. -/
def delimiter (c d : Char) : SymbolIdx :=
  if c = '/' ∧ d = '*' then 6
  else if c = '*' ∧ d = '/' then 7
  else if c = '/' ∧ d = '/' then 9
  else 1

/-- The character begins a delimiter. -/
def startsDelimiter (c : Char) : Bool := c = '/' || c = '*'

theorem startsDelimiter_iff {c : Char} : startsDelimiter c = true ↔ c = '/' ∨ c = '*' := by
  rw [startsDelimiter, Bool.or_eq_true, decide_eq_true_eq, decide_eq_true_eq]

/-- A character that begins a delimiter leads to a state that accepts nothing, and from there the
next one leads to the end of a delimiter, or nowhere. -/
theorem exists_commentsNext {c : Char} (hc : startsDelimiter c = true) :
    ∃ i < 9, commentsNext 0 c = some i ∧ commentsAccept[i]? = some none ∧
      ∀ d, (commentsNext i d = none ∧ delimiter c d = 1) ∨
        ∃ j < 9, commentsNext i d = some j ∧ commentsAccept[j]? = some (some (delimiter c d)) ∧
          ∀ e, commentsNext j e = none := by
  rcases startsDelimiter_iff.1 hc with rfl | rfl
  · refine ⟨4, by decide, rfl, rfl, fun d => ?_⟩
    by_cases hblock : d = '*'
    · subst hblock
      exact .inr ⟨5, by decide, rfl, rfl, fun _ => rfl⟩
    · by_cases hline : d = '/'
      · subst hline
        exact .inr ⟨8, by decide, rfl, rfl, fun _ => rfl⟩
      · exact .inl ⟨by simp [commentsNext, hblock, hline], by simp [delimiter, hblock, hline]⟩
  · refine ⟨6, by decide, rfl, rfl, fun d => ?_⟩
    by_cases hclose : d = '/'
    · subst hclose
      exact .inr ⟨7, by decide, rfl, rfl, fun _ => rfl⟩
    · exact .inl ⟨by simp [commentsNext, hclose], by simp [delimiter, hclose]⟩

namespace ScansComments

variable {g : Grammar} {i j : DfaStateIdx} {c d : Char} {cs : List Char} {s : SymbolIdx}

/-- The first step of a match. -/
theorem exists_step (h : ScansComments g) (hi : commentsNext 0 c = some i) (hlt : i < 9) :
    ∃ q next, g.dfaStates[g.dfaInitial]? = some q ∧ g.dfaStep q c = some next ∧
      IsCommentsState g i next := by
  obtain ⟨q, hq⟩ := h.states 0 (by decide)
  obtain ⟨next, hnext⟩ := h.states i hlt
  refine ⟨q, next, h.initial ▸ hq.get, ?_, hnext⟩
  rw [hq.dfaStep_eq h.loaded, hi, Option.bind_some, hnext.get]

theorem nextMatch_newline (h : ScansComments g) (cs : List Char) :
    g.nextMatch ('\n' :: cs) = (3, 1) := by
  obtain ⟨q, next, hq, hstep, hnext⟩ := h.exists_step (c := '\n') (i := 2) rfl (by decide)
  have hstuck : (g.walk next cs).accepted = none :=
    Grammar.accepted_walk_of_stuck (fun c => hnext.dfaStep_eq h.loaded c) cs
  have haccept : next.accept = some 3 := (Option.some.inj hnext.accept).symm
  rw [Grammar.nextMatch_cons_of_step hq hstep, hstuck, haccept]
  rfl

/-- A character that no token begins with is an error on its own. -/
theorem nextMatch_other (h : ScansComments g) (hc : commentsNext 0 c = none) (cs : List Char) :
    g.nextMatch (c :: cs) = (1, 1) := by
  obtain ⟨q, hq⟩ := h.states 0 (by decide)
  have hstep : g.dfaStep q c = none := by rw [hq.dfaStep_eq h.loaded, hc, Option.bind_none]
  rw [Grammar.nextMatch_cons_of_dead (h.initial ▸ hq.get) hstep, h.error]

/-- Blanks and letters are taken as far as they go. -/
theorem nextMatch_run (h : ScansComments g) {p : Char → Bool} (hi : commentsNext 0 c = some i)
    (hlt : i < 9) (hloop : ∀ d, commentsNext i d = if p d then some i else none)
    (hs : commentsAccept[i]? = some (some s)) (cs : List Char) :
    g.nextMatch (c :: cs) = (s, (cs.takeWhile p).length + 1) := by
  obtain ⟨q, next, hq, hstep, hnext⟩ := h.exists_step hi hlt
  have haccept : next.accept = some s := Option.some.inj (hnext.accept.symm.trans hs)
  have hloops (d : Char) : g.dfaStep next d = if p d then some next else none := by
    rw [hnext.dfaStep_eq h.loaded, hloop]
    split
    · exact hnext.get
    · rfl
  rw [Grammar.nextMatch_cons_of_step hq hstep, Grammar.accepted_walk_of_loop hloops haccept,
    haccept]
  by_cases hnil : cs.takeWhile p = []
  · simp [hnil]
  · simp [hnil]

/-- A character that begins a delimiter is taken with the next one, whatever that is. -/
theorem nextMatch_delimiter (h : ScansComments g) (hc : startsDelimiter c = true) (d : Char)
    (cs : List Char) : g.nextMatch (c :: d :: cs) = (delimiter c d, 2) := by
  obtain ⟨i, hlt, hi, hnone, hsecond⟩ := exists_commentsNext hc
  obtain ⟨q, next, hq, hstep, hnext⟩ := h.exists_step hi hlt
  have haccept : next.accept = none := Option.some.inj (hnext.accept.symm.trans hnone)
  rw [Grammar.nextMatch_cons_of_step hq hstep, haccept, Grammar.walk, hnext.dfaStep_eq h.loaded]
  rcases hsecond d with ⟨hd, herror⟩ | ⟨j, hlt, hj, hs, hlast⟩
  · rw [hd, herror, Option.bind_none, h.error]
    rfl
  · obtain ⟨last, hstate⟩ := h.states j hlt
    have hstuck : (g.walk last cs).accepted = none :=
      Grammar.accepted_walk_of_stuck (fun e => by rw [hstate.dfaStep_eq h.loaded, hlast]; rfl) cs
    have hsymbol : last.accept = some (delimiter c d) :=
      Option.some.inj (hstate.accept.symm.trans hs)
    rw [hj, Option.bind_some, hstate.get]
    dsimp only
    rw [hstuck, hsymbol]
    rfl

end ScansComments

/-! ### Inside a line -/

/-- Read from its start, the text ends in half a delimiter. -/
def dangles : List Char → Bool
  | [] => false
  | [c] => startsDelimiter c
  | c :: d :: cs => if startsDelimiter c then dangles cs else dangles (d :: cs)

theorem dangles_cons {c : Char} (hc : startsDelimiter c = false) (cs : List Char) :
    dangles (c :: cs) = dangles cs := by
  cases cs with
  | nil => exact hc
  | cons d cs => simp [dangles, hc]

theorem dangles_append {u : List Char} (hu : ∀ c ∈ u, startsDelimiter c = false) (v : List Char) :
    dangles (u ++ v) = dangles v := by
  induction u with
  | nil => rfl
  | cons c u ih =>
    obtain ⟨hc, hu⟩ := List.forall_mem_cons.1 hu
    rw [List.cons_append, dangles_cons hc, ih hu]

theorem takeWhile_append_cons {p : Char → Bool} {c : Char} (hc : p c = false) (u v : List Char) :
    (u ++ c :: v).takeWhile p = u.takeWhile p := by
  induction u with
  | nil => exact List.takeWhile_cons_of_neg (by simp [hc])
  | cons d u ih => rw [List.cons_append, List.takeWhile_cons, List.takeWhile_cons, ih]

/-- What a match inside a line is: it neither closes a line comment nor is the end of the input, and
it stays within the line unless the line ends in half a delimiter. -/
structure IsPart (w : List Char) (found : SymbolIdx × Nat) : Prop where
  symbol : found.1 ∈ [1, 2, 4, 6, 7, 9]
  pos : 0 < found.2
  extent : (found.2 ≤ w.length ∧ dangles (w.drop found.2) = dangles w) ∨
    (found.2 = w.length + 1 ∧ dangles w = true)

theorem delimiter_mem (c d : Char) : delimiter c d ∈ [1, 2, 4, 6, 7, 9] := by
  unfold delimiter
  split_ifs <;> decide

/-- A run of characters none of which begins a delimiter stays within the line. -/
theorem isPart_run {p : Char → Bool} {c : Char} {s : SymbolIdx} (hs : s ∈ [1, 2, 4, 6, 7, 9])
    (hslash : p '/' = false) (hasterisk : p '*' = false) (hc : p c = true) (v : List Char) :
    IsPart (c :: v) (s, (v.takeWhile p).length + 1) := by
  have hplain (d : Char) (hd : p d = true) : startsDelimiter d = false := by
    refine Bool.eq_false_iff.2 fun hdelimiter => ?_
    rcases startsDelimiter_iff.1 hdelimiter with rfl | rfl
    · exact Bool.false_ne_true (hslash.symm.trans hd)
    · exact Bool.false_ne_true (hasterisk.symm.trans hd)
  have hsplit : v.takeWhile p ++ v.dropWhile p = v := List.takeWhile_append_dropWhile
  have hall : ∀ d ∈ v.takeWhile p, startsDelimiter d = false :=
    fun d hd => hplain d (List.mem_takeWhile_imp hd)
  refine ⟨hs, Nat.succ_pos _, .inl ⟨?_, ?_⟩⟩
  · exact Nat.succ_le_succ (List.takeWhile_sublist p).length_le
  · calc dangles ((c :: v).drop ((v.takeWhile p).length + 1))
        = dangles ((v.takeWhile p ++ v.dropWhile p).drop (v.takeWhile p).length) := by
          rw [List.drop_succ_cons, hsplit]
      _ = dangles (v.takeWhile p ++ v.dropWhile p) := by
          rw [List.drop_left, dangles_append hall]
      _ = dangles (c :: v) := by rw [hsplit, dangles_cons (hplain c hc)]

namespace ScansComments

variable {g : Grammar} {w rest : List Char}

theorem isPart_nextMatch (h : ScansComments g) (hw : w ≠ []) (hnewline : '\n' ∉ w)
    (rest : List Char) : IsPart w (g.nextMatch (w ++ '\n' :: rest)) := by
  obtain ⟨c, v, rfl⟩ := List.exists_cons_of_ne_nil hw
  rw [List.cons_append]
  by_cases hdelimiter : startsDelimiter c = true
  · cases v with
    | nil =>
      rw [List.nil_append, h.nextMatch_delimiter hdelimiter]
      exact ⟨delimiter_mem c '\n', Nat.succ_pos _, .inr ⟨rfl, hdelimiter⟩⟩
    | cons d v =>
      rw [List.cons_append, h.nextMatch_delimiter hdelimiter]
      refine ⟨delimiter_mem c d, Nat.succ_pos _, .inl ⟨by simp, ?_⟩⟩
      rw [dangles, if_pos hdelimiter]
      rfl
  by_cases hblank : isBlank c = true
  · rw [h.nextMatch_run (i := 1) (by simp [commentsNext, hblank]) (by decide) (fun _ => rfl) rfl,
      takeWhile_append_cons (by decide)]
    exact isPart_run (by decide) (by decide) (by decide) hblank v
  by_cases hletter : isLetter c = true
  · have hne : c ≠ '\n' := by
      rintro rfl
      exact absurd hletter (by decide)
    rw [h.nextMatch_run (i := 3) (by simp [commentsNext, hblank, hletter, hne]) (by decide)
      (fun _ => rfl) rfl, takeWhile_append_cons (by decide)]
    exact isPart_run (by decide) (by decide) (by decide) hletter v
  · have hnext : commentsNext 0 c = none := by
      have hne : c ≠ '\n' := fun heq => hnewline (heq ▸ List.mem_cons_self)
      have hne' : c ≠ '/' ∧ c ≠ '*' := by simpa [startsDelimiter] using hdelimiter
      simp [commentsNext, hblank, hletter, hne, hne']
    rw [h.nextMatch_other hnext]
    refine ⟨by decide, by decide, .inl ⟨by simp, ?_⟩⟩
    rw [dangles_cons (by simpa using hdelimiter)]
    rfl

/-- A match inside a line comment is passed over. -/
theorem scanToken_of_isPart (h : ScansComments g) {l : Lexer} {top : OpenGroup}
    (hgroups : l.groups = [top]) (htop : top.group = lineComment) (hrest : l.cursor.rest ≠ [])
    (hpart : IsPart w (g.nextMatch l.cursor.rest)) : l.scanToken g =
      ({ l with
        cursor := l.cursor.advanceBy l.lineTerminator (g.nextMatch l.cursor.rest).2 } :
          Lexer).scanToken g := by
  have hsymbol : top.group.endSymbol ≠ (l.peek g).1.symbol := by
    intro heq
    have hmem := hpart.symbol
    rw [← Lexer.symbol_peek, ← heq, htop] at hmem
    exact absurd hmem (by decide)
  have hend : Lexer.isEnd g (l.peek g).1 = false := by
    have hspan := mt (Lexer.isEmpty_peek_iff (g := g) h.loaded.wellFormed.dfaInitial).1 hrest
    rw [Lexer.isEnd, Lexer.symbol_peek, h.endOfFile _ hpart.symbol, Bool.false_or]
    simpa using hspan
  exact Lexer.scanToken_of_resume
    (Lexer.scanStep_of_skips hgroups (by rw [htop]; rfl) (by rw [htop]; rfl) hsymbol hend)

/-- **Inside a line comment**, scanning comes to the end of the line and closes the comment there,
or goes on after the newline. -/
theorem scanToken_inside (h : ScansComments g) {l : Lexer} {top : OpenGroup}
    (hgroups : l.groups = [top]) (htop : top.group = lineComment) (hnewline : '\n' ∉ w)
    (hrest : l.cursor.rest = w ++ '\n' :: rest) : l.scanToken g =
      if dangles w then
        ({ l with
          cursor := l.cursor.advanceBy l.lineTerminator (w.length + 1) } : Lexer).scanToken g
      else
        (⟨8, ⟨top.start, (l.cursor.advanceBy l.lineTerminator w.length).offset⟩, top.position⟩,
          { l with cursor := l.cursor.advanceBy l.lineTerminator w.length, groups := [] }) := by
  induction hlen : w.length using Nat.strongRecOn generalizing l w with
  | _ len ih =>
    by_cases hw : w = []
    · subst hw hlen
      have hsymbol : (l.peek g).1.symbol = 3 := by
        rw [Lexer.symbol_peek, hrest, List.nil_append, h.nextMatch_newline]
      have hclose := Lexer.scanStep_of_closes (g := g) hgroups (by rw [htop]; rfl)
        (by rw [htop]; rfl) (by rw [htop, hsymbol]; rfl)
      rw [Lexer.scanToken_of_emit hclose, htop]
      rfl
    · have hpart := h.isPart_nextMatch hw hnewline rest
      rw [← hrest] at hpart
      rw [h.scanToken_of_isPart hgroups htop (by simp [hrest]) hpart]
      rcases hpart.extent with ⟨hle, hdangles⟩ | ⟨heq, hdangles⟩
      · -- the rest of the line is shorter
        have hpos := hpart.pos
        generalize (g.nextMatch l.cursor.rest).2 = n at hle hdangles hpos
        have hlt : (w.drop n).length < len := by
          rw [List.length_drop]
          omega
        have hafter : (l.cursor.advanceBy l.lineTerminator n).rest = w.drop n ++ '\n' :: rest := by
          rw [Cursor.advanceBy_eq, hrest, List.drop_append_of_le_length hle]
        have hnot : '\n' ∉ w.drop n := fun hmem => hnewline (List.mem_of_mem_drop hmem)
        rw [ih _ hlt (l := { l with cursor := l.cursor.advanceBy l.lineTerminator n }) hgroups hnot
          hafter rfl, hdangles]
        have hsum : n + (w.drop n).length = len := by
          rw [List.length_drop]
          omega
        simp only [← Cursor.advanceBy_add, ← Nat.add_assoc, hsum]
      · rw [heq, hdangles, if_pos rfl, hlen]

/-- Outside of all groups, `//` opens a line comment. -/
theorem scanToken_slashes (h : ScansComments g) {l : Lexer} (hgroups : l.groups = [])
    {cs : List Char} (hrest : l.cursor.rest = '/' :: '/' :: cs) : l.scanToken g =
      ({ l with
        cursor := l.cursor.advanceBy l.lineTerminator 2
        groups := [⟨lineComment, l.cursor.offset, l.cursor.position⟩] } : Lexer).scanToken g := by
  have hmatch : g.nextMatch l.cursor.rest = (9, 2) := by
    rw [hrest, h.nextMatch_delimiter (by decide)]
    rfl
  have hsymbol : (l.peek g).1.symbol = 9 := by rw [Lexer.symbol_peek, hmatch]
  have hafter : (l.peek g).2 = l.cursor.advanceBy l.lineTerminator 2 := by
    rw [Lexer.peek, hmatch]
  have hspan := mt (Lexer.isEmpty_peek_iff (g := g) h.loaded.wellFormed.dfaInitial).1
    (show l.cursor.rest ≠ [] by simp [hrest])
  have hopens : l.opens? g (l.peek g).1 = some lineComment := by
    simp [Lexer.opens?, hsymbol, h.starts, hspan, h.group, hgroups]
  have hstep : l.scanStep g = .resume (l.peek g).1 { l with
      cursor := l.cursor.advanceBy l.lineTerminator 2
      groups := [⟨lineComment, l.cursor.offset, l.cursor.position⟩] } := by
    simp only [Lexer.scanStep, hopens, hafter, hgroups]
    rfl
  exact Lexer.scanToken_of_resume hstep

/-- A line comment from its start: it ends with its line, or goes on in the next one. -/
theorem scanToken_line (h : ScansComments g) {l : Lexer} (hgroups : l.groups = [])
    (hnewline : '\n' ∉ w) (hrest : l.cursor.rest = '/' :: '/' :: (w ++ '\n' :: rest)) :
    l.scanToken g =
      if dangles w then
        ({ l with
          cursor := l.cursor.advanceBy l.lineTerminator (w.length + 3)
          groups := [⟨lineComment, l.cursor.offset, l.cursor.position⟩] } : Lexer).scanToken g
      else
        (⟨8, ⟨l.cursor.offset, (l.cursor.advanceBy l.lineTerminator (w.length + 2)).offset⟩,
            l.cursor.position⟩,
          { l with cursor := l.cursor.advanceBy l.lineTerminator (w.length + 2) }) := by
  have hinside : (l.cursor.advanceBy l.lineTerminator 2).rest = w ++ '\n' :: rest := by
    rw [Cursor.advanceBy_eq, hrest]
    rfl
  rw [h.scanToken_slashes hgroups hrest, h.scanToken_inside (l := { l with
      cursor := l.cursor.advanceBy l.lineTerminator 2
      groups := [⟨lineComment, l.cursor.offset, l.cursor.position⟩] }) rfl rfl hnewline hinside]
  simp only [← Cursor.advanceBy_add, Nat.add_comm 2, ← hgroups]

end ScansComments

/-- **A line comment ends with its line exactly if the line does not end in half a delimiter.**
Then the token is the comment up to the newline, which is left to be scanned.  Otherwise the newline
is taken with the half delimiter, and the comment goes on in the next line. -/
theorem line_comment_iff {g : Grammar} (hload : Grammar.ofBytes comments.toBytes = .ok g)
    {l : Lexer} {w rest : List Char} (hgroups : l.groups = []) (hin : l.cursor.In l.buffer.chars)
    (hnewline : '\n' ∉ w) (hrest : l.cursor.rest = '/' :: '/' :: (w ++ '\n' :: rest)) :
    ((l.scanToken g).1.symbol = 8 ∧
        (l.scanToken g).1.lexeme? l.buffer = some (String.ofList ('/' :: '/' :: w)) ∧
        (l.scanToken g).2.cursor.rest = '\n' :: rest ↔
      dangles w = false) ∧
    l.scanToken g =
      if dangles w then
        ({ l with
          cursor := l.cursor.advanceBy l.lineTerminator (w.length + 3)
          groups := [⟨lineComment, l.cursor.offset, l.cursor.position⟩] } : Lexer).scanToken g
      else
        (⟨8, ⟨l.cursor.offset, l.cursor.offset + 2 + Utf8.byteLength w⟩, l.cursor.position⟩,
          { l with cursor := l.cursor.advanceBy l.lineTerminator (w.length + 2) }) := by
  have hscan := (scansComments_of_ofBytes hload).scanToken_line hgroups hnewline hrest
  cases hdangles : dangles w with
  | true =>
    rw [hdangles, if_pos rfl] at hscan
    refine ⟨iff_of_false ?_ Bool.noConfusion, hscan⟩
    -- what is left begins after the newline, and scanning never goes back
    rintro ⟨-, -, hleft⟩
    have hle := Lexer.length_rest_scanToken_le (g := g) (l := { l with
      cursor := l.cursor.advanceBy l.lineTerminator (w.length + 3)
      groups := [⟨lineComment, l.cursor.offset, l.cursor.position⟩] })
    have hafter : (l.cursor.advanceBy l.lineTerminator (w.length + 3)).rest = rest := by
      rw [Cursor.advanceBy_eq, hrest]
      simp
    rw [← hscan, hleft, hafter, List.length_cons] at hle
    exact absurd hle (Nat.not_succ_le_self _)
  | false =>
    rw [hdangles, if_neg Bool.false_ne_true] at hscan
    have hlength : Utf8.byteLength ('/' :: '/' :: w) = 2 + Utf8.byteLength w := by
      have hslash : '/'.utf8Size = 1 := rfl
      rw [Utf8.byteLength_cons, Utf8.byteLength_cons, hslash, ← Nat.add_assoc]
    have htake : l.cursor.rest.take (w.length + 2) = '/' :: '/' :: w := by
      rw [hrest]
      simp
    have hoffset : (l.cursor.advanceBy l.lineTerminator (w.length + 2)).offset =
        l.cursor.offset + Utf8.byteLength ('/' :: '/' :: w) := by
      rw [Cursor.advanceBy_eq, htake]
    have hafter : (l.cursor.advanceBy l.lineTerminator (w.length + 2)).rest = '\n' :: rest := by
      rw [Cursor.advanceBy_eq, hrest]
      simp
    rw [hscan, hoffset]
    refine ⟨iff_of_true ⟨rfl, ?_, hafter⟩ rfl, ?_⟩
    · obtain ⟨before, hbefore, hstart⟩ := Utf8.dropBytes?_eq_some.1 hin
      exact Buffer.slice?_eq_some.2 ⟨before, '/' :: '/' :: w, '\n' :: rest,
        by rw [← hbefore, hrest]; rfl, hstart, (Nat.add_sub_cancel_left _ _).symm, rfl⟩
    · rw [hlength, ← Nat.add_assoc]
      rfl

/-- A comment whose delimiters are complete, or not at its end, ends with its line. -/
theorem line_comment_iff_complete : ∃ g, Grammar.ofBytes comments.toBytes = .ok g ∧ ∃ l : Lexer,
    l = ({} : Lexer).load (.owned "//é/*b *c\nd") ∧
      (l.scanToken g).1 = ⟨8, ⟨0, 10⟩, .first⟩ ∧
      (l.scanToken g).1.lexeme? l.buffer = some "//é/*b *c" ∧
      (l.scanToken g).2.cursor.rest = ['\n', 'd'] := by
  obtain ⟨g, hload, -⟩ := exists_scansComments
  have htext : (({} : Lexer).load (.owned "//é/*b *c\nd")).cursor.rest =
      '/' :: '/' :: (['é', '/', '*', 'b', ' ', '*', 'c'] ++ '\n' :: ['d']) := rfl
  obtain ⟨hends, hscan⟩ :=
    line_comment_iff hload rfl (Cursor.in_start _) (by decide) htext
  obtain ⟨-, hlexeme, hleft⟩ := hends.2 rfl
  refine ⟨g, hload, _, rfl, ?_, hlexeme, hleft⟩
  rw [hscan]
  rfl

set_option maxRecDepth 10000 in
/-- A third slash before the newline takes the newline with it, and the next line is part of the
comment. -/
theorem line_comment_slash : ∃ g, Grammar.ofBytes comments.toBytes = .ok g ∧ ∃ l : Lexer,
    l = ({} : Lexer).load (.owned "///\nab\n") ∧
      (l.scanToken g).1 = ⟨8, ⟨0, 6⟩, .first⟩ ∧
      (l.scanToken g).1.lexeme? l.buffer = some "///\nab" ∧
      (l.scanToken g).2.cursor.rest = ['\n'] := by
  generalize hl : ({} : Lexer).load (.owned "///\nab\n") = l
  have hcheck : Grammar.loadsWith comments.toBytes (fun g =>
      (l.scanToken g).1 == ⟨8, ⟨0, 6⟩, .first⟩ &&
        ((l.scanToken g).1.lexeme? l.buffer == some "///\nab" &&
          (l.scanToken g).2.cursor.rest == ['\n'])) = true := by
    rw [← hl]
    decide +kernel
  obtain ⟨g, hload, hg⟩ := Grammar.exists_of_loadsWith hcheck
  simp only [Bool.and_eq_true, beq_iff_eq] at hg
  exact ⟨g, hload, l, rfl, hg⟩

end Sample

end CompiledGrammar
