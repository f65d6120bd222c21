import CompiledGrammar.Proofs.Lexer.Lossless

/-!
# Scanning never looks up anything that does not exist

Scanning looks up states, symbols and groups by number, and cuts the input at byte offsets.  The
definitions of this module do what their namesakes without a question mark do, but fail at the first
lookup, match, cut or span that is out of range, in a group that is to be moved through by
characters at the end of the input, and where a loop would not come to an end.

* `Lexer.scanStep?_eq`, `Lexer.scanToken?_eq` and `Lexer.readToken?_eq` say that they never fail on
  a lexer that fits its grammar.
* A `Lexer.Op` is one of the operations of a lexer.  A lexer that has been through any sequence of
  them fits its grammar (`Lexer.Fits.run`), so none of them ever fails (`Lexer.Op.run?_eq`).
-/

namespace CompiledGrammar

/-! ### The lexical automaton -/

namespace Grammar

variable (g : Grammar)

/-- The state that a character leads to, if it leads anywhere. -/
def dfaStep? (q : DfaState) (c : Char) : Option (Option DfaState) :=
  match q.lookup.transition (dfaCode c) with
  | .goto t => g.dfaStates[t]?.map some
  | .acceptLoop => some (some q)
  | .loop => some (some q)
  | .dead => some none

/-- Walk from a state. -/
def walk? (q : DfaState) : List Char → Option Walk
  | [] => some ⟨none, 0⟩
  | c :: cs => do
    match ← g.dfaStep? q c with
    | none => return ⟨none, 1⟩
    | some next =>
      let w ← walk? next cs
      return {
        accepted :=
          match w.accepted with
          | some (symbol, n) => some (symbol, n + 1)
          | none => next.accept.map fun symbol => (symbol, 1)
        read := w.read + 1 }

/-- The symbol of the next token of a text, and the number of characters it takes. -/
def nextMatch? (cs : List Char) : Option (SymbolIdx × Nat) := do
  let q ← g.dfaStates[g.dfaInitial]?
  let w ← g.walk? q cs
  return match w.accepted with
    | some found => found
    | none => if w.read = 0 then (g.eofSymbol, 0) else (g.errorSymbol, w.read)

variable {g}

theorem hasKind_of_getElem? {i : SymbolIdx} {s : Symbol} (h : g.symbols[i]? = some s)
    (kind : SymbolKind) : g.hasKind i kind = (s.kind == kind) := by
  rw [hasKind, h, Option.any_some]

theorem dfaStep?_eq (hg : g.WellFormed) {q : DfaState} (hq : q ∈ g.dfaStates) (c : Char) :
    g.dfaStep? q c = some (g.dfaStep q c) := by
  have hmem := Lookup.transition_mem q.lookup (dfaCode c)
  unfold dfaStep? dfaStep
  generalize q.lookup.transition (dfaCode c) = t at hmem
  cases t with
  | goto t =>
    have hlt : t < g.dfaStates.size :=
      hg.transitions q hq _ (hmem.resolve_left nofun)
    simp only [Array.getElem?_eq_getElem hlt, Option.map_some]
  | acceptLoop => rfl
  | loop => rfl
  | dead => rfl

theorem walk?_eq (hg : g.WellFormed) {q : DfaState} (hq : q ∈ g.dfaStates) (cs : List Char) :
    g.walk? q cs = some (g.walk q cs) := by
  induction cs generalizing q with
  | nil => rfl
  | cons c cs ih =>
    rw [walk?, walk, dfaStep?_eq hg hq]
    cases hstep : g.dfaStep q c with
    | none => rfl
    | some next =>
      have hnext : next ∈ g.dfaStates :=
        Array.mem_toList_iff.1 (Lexer.dfaStep_mem (Array.mem_toList_iff.2 hq) hstep)
      simp only [Option.bind_eq_bind, Option.bind_some, ih hnext]
      rfl

theorem nextMatch?_eq (hg : g.WellFormed) (cs : List Char) :
    g.nextMatch? cs = some (g.nextMatch cs) := by
  have hget := Array.getElem?_eq_getElem hg.dfaInitial
  unfold nextMatch? nextMatch
  rw [hget]
  simp only [Option.bind_eq_bind, Option.bind_some, walk?_eq hg (Array.mem_of_getElem? hget)]
  rfl

end Grammar

/-! ### Scanning -/

namespace Lexer

variable (g : Grammar) (l : Lexer)

/-- The next match and the offset after it. -/
def peek? : Option (Token × Nat) := do
  let rest ← Utf8.dropBytes? l.cursor.offset l.buffer.chars
  let (symbol, n) ← g.nextMatch? rest
  if n ≤ rest.length then
    let stop := l.cursor.offset + Utf8.byteLength (rest.take n)
    let span ← Span.ofBounds? l.cursor.offset stop
    return (⟨symbol, span, l.cursor.position⟩, stop)
  else none

/-- The cursor, moved to an offset. -/
def advanceTo? (stop : Nat) : Option Cursor := do
  let span ← Span.ofBounds? l.cursor.offset stop
  let rest ← Utf8.dropBytes? span.start l.buffer.chars
  let passed ← Utf8.takeBytes? (span.stop - span.start) rest
  let left ← Utf8.dropBytes? stop l.buffer.chars
  return ⟨stop, passed.foldl (Position.afterChar l.lineTerminator) l.cursor.position, left⟩

/-- The group that a token of a symbol opens here, if it opens one. -/
def opened? (token : Token) (symbol : Symbol) : Option (Option Group) :=
  if symbol.kind = .groupStart then
    match g.groupStartedBy? token.symbol with
    | none => some none
    | some started => do
      let inner ← g.groups[started.index]?
      match l.groups with
      | [] => return some inner
      | top :: _ =>
        let outer ← g.groups[top.group.index]?
        return if outer.nests inner.index then some inner else none
  else some none

/-- Consider the next match. -/
def scanStep? : Option Step := do
  let (token, stop) ← l.peek? g
  let symbol ← g.symbols[token.symbol]?
  match ← l.opened? g token symbol with
  | some group =>
    let cursor ← l.advanceTo? stop
    return .resume token
      { l with cursor, groups := ⟨group, token.span.start, token.position⟩ :: l.groups }
  | none =>
    match l.groups with
    | [] =>
      let cursor ← l.advanceTo? stop
      return .emit token { l with cursor }
    | top :: outer =>
      let group ← g.groups[top.group.index]?
      if group.endSymbol = token.symbol then
        let cursor ←
          match group.ending with
          | .closed => l.advanceTo? stop
          | .opened => some l.cursor
        if outer.isEmpty then
          let span ← Span.ofBounds? top.start cursor.offset
          return .emit ⟨group.container, span, top.position⟩ { l with cursor, groups := [] }
        else return .resume token { l with cursor, groups := outer }
      else if symbol.kind = .endOfFile then return .emit token l
      else
        match group.advance with
        | .token =>
          let cursor ← l.advanceTo? stop
          return .resume token { l with cursor }
        | .character =>
          let rest ← Utf8.dropBytes? l.cursor.offset l.buffer.chars
          let c ← rest.head?
          let cursor ← l.advanceTo? (l.cursor.offset + c.utf8Size)
          return .resume token { l with cursor }

/-- The next token, noise included. -/
def scanToken? (g : Grammar) (l : Lexer) : Option (Token × Lexer) :=
  match l.scanStep? g with
  | none => none
  | some (.emit token next) => some (token, next)
  | some (.resume _ next) => if next.pending < l.pending then scanToken? g next else none
termination_by l.pending

/-- The next token that is not noise. -/
def readToken? (g : Grammar) (l : Lexer) : Option (Token × Lexer) :=
  match l.scanToken? g with
  | none => none
  | some (token, next) =>
    match g.symbols[token.symbol]? with
    | none => none
    | some symbol =>
      if symbol.kind = .noise then
        if next.pending < l.pending then readToken? g next else none
      else some (token, next)
termination_by l.pending

variable {g l}

theorem peek?_eq (hg : g.WellFormed) (h : l.Fits g) :
    l.peek? g = some ((l.peek g).1, (l.peek g).2.offset) := by
  have hrest : Utf8.dropBytes? l.cursor.offset l.buffer.chars = some l.cursor.rest := h.cursor
  have hle := Grammar.snd_nextMatch_le (g := g) l.cursor.rest
  simp only [peek?, peek, hrest, Option.bind_eq_bind, Option.bind_some, Grammar.nextMatch?_eq hg,
    if_pos hle, Cursor.advanceBy_eq, Span.ofBounds?, Nat.le_add_right, ↓reduceIte]
  rfl

theorem advanceTo?_eq (h : l.Fits g) (n : Nat) :
    l.advanceTo? (l.cursor.advanceBy l.lineTerminator n).offset =
      some (l.cursor.advanceBy l.lineTerminator n) := by
  have hrest : Utf8.dropBytes? l.cursor.offset l.buffer.chars = some l.cursor.rest := h.cursor
  have hleft : Utf8.dropBytes? _ l.buffer.chars = _ := h.cursor.advanceBy l.lineTerminator n
  have hpassed : Utf8.takeBytes? (Utf8.byteLength (l.cursor.rest.take n)) l.cursor.rest =
      some (l.cursor.rest.take n) :=
    Utf8.takeBytes?_eq_some.2 ⟨_, List.take_append_drop n _, rfl⟩
  rw [Cursor.advanceBy_eq] at hleft ⊢
  simp only [advanceTo?, Span.ofBounds?, Nat.le_add_right, ↓reduceIte, hrest, hleft, hpassed,
    Nat.add_sub_cancel_left, Option.bind_eq_bind, Option.bind_some]
  rfl

theorem advanceTo?_after (h : l.Fits g) : l.advanceTo? (l.peek g).2.offset = some (l.peek g).2 :=
  advanceTo?_eq h _

/-- An open group and the group that it is of. -/
theorem Fits.getElem?_top (h : l.Fits g) {top : OpenGroup} {outer : List OpenGroup}
    (hgroups : l.groups = top :: outer) : g.groups[top.group.index]? = some top.group :=
  (h.groups top (by simp [hgroups])).group

theorem opened?_eq (hg : g.WellFormed) (h : l.Fits g) {symbol : Symbol}
    (hsymbol : g.symbols[(l.peek g).1.symbol]? = some symbol) :
    l.opened? g (l.peek g).1 symbol = some (l.opens? g (l.peek g).1) := by
  have hkind := Grammar.hasKind_of_getElem? hsymbol
  have hempty := symbol_peek_of_isEmpty (g := g) (l := l)
  generalize (l.peek g).1 = token at hsymbol hkind hempty
  unfold opened? opens?
  rw [hkind]
  by_cases hstart : symbol.kind = .groupStart
  · -- a token that starts a group is not the end of the input, so it is not empty
    have hspan : token.span.isEmpty = false := by
      by_contra hne
      have heof := hg.eofSymbol.hasKind
      rw [← hempty (by simpa using hne), hkind, hstart] at heof
      cases heof
    rw [if_pos hstart, if_pos (by simp [hstart, hspan])]
    cases hstarted : g.groupStartedBy? token.symbol with
    | none => rfl
    | some started =>
      have hmem : started ∈ g.groups.toList := List.mem_of_find?_eq_some hstarted
      simp only [hg.getElem?_groups hmem, Option.bind_eq_bind, Option.bind_some]
      cases hgroups : l.groups with
      | nil => rfl
      | cons top outer =>
        simp only [h.getElem?_top hgroups, Option.bind_some, Option.filter]
        rfl
  · rw [if_neg hstart, if_neg (by simp [hstart])]

/-- A match is the end of what a group can hold exactly if its symbol says so. -/
theorem isEnd_peek_iff (hg : g.WellFormed) {symbol : Symbol}
    (hsymbol : g.symbols[(l.peek g).1.symbol]? = some symbol) :
    isEnd g (l.peek g).1 = true ↔ symbol.kind = .endOfFile := by
  have hkind := Grammar.hasKind_of_getElem? hsymbol .endOfFile
  constructor
  · intro hend
    have hendOfFile := endOfFile_of_isEnd hg.eofSymbol.hasKind hend
    rw [hkind] at hendOfFile
    exact eq_of_beq hendOfFile
  · intro hend
    rw [isEnd, hkind, hend]
    rfl

/-- **A step never fails.** -/
theorem scanStep?_eq (hg : g.WellFormed) (h : l.Fits g) :
    l.scanStep? g = some (l.scanStep g) := by
  obtain ⟨htoken, -⟩ := h.peek hg
  have hsymbol := Array.getElem?_eq_getElem htoken.symbol
  have hopened := opened?_eq hg h hsymbol
  have hend := isEnd_peek_iff hg hsymbol
  have hempty := isEmpty_peek_iff (l := l) hg.dfaInitial
  have hafter := advanceTo?_after h
  have hle : l.cursor.offset ≤ (l.peek g).2.offset := offset_le_advanceBy _ _ _
  unfold scanStep? scanStep
  rw [peek?_eq hg h]
  generalize l.peek g = peeked at *
  obtain ⟨token, after⟩ := peeked
  simp only [Option.bind_eq_bind, Option.bind_some, hsymbol, hopened]
  cases l.opens? g token with
  | some group =>
    simp only [hafter, Option.bind_some]
    rfl
  | none =>
    cases hgroups : l.groups with
    | nil =>
      simp only [hafter, Option.bind_some]
      rfl
    | cons top outer =>
      have hbefore := (h.groups top (by simp [hgroups])).before
      simp only [h.getElem?_top hgroups, Option.bind_some]
      by_cases hclose : top.group.endSymbol = token.symbol
      · -- the span of a group goes from its start to a place that is not before it
        simp only [if_pos hclose]
        have hspan :
            Span.ofBounds? top.start l.cursor.offset = some ⟨top.start, l.cursor.offset⟩ :=
          if_pos (Nat.le_of_lt hbefore)
        have hspan' : Span.ofBounds? top.start after.offset = some ⟨top.start, after.offset⟩ :=
          if_pos (Nat.le_of_lt (Nat.lt_of_lt_of_le hbefore hle))
        cases top.group.ending <;> cases outer <;>
          simp only [hafter, hspan, hspan', Option.bind_some] <;> rfl
      · simp only [if_neg hclose]
        by_cases hkind : isEnd g token = true
        · rw [if_pos (hend.1 hkind), if_pos hkind]
          rfl
        · rw [if_neg (mt hend.2 hkind), if_neg hkind]
          cases top.group.advance with
          | token =>
            simp only [hafter, Option.bind_some]
            rfl
          | character =>
            -- what is not the end of the input leaves a character to move over
            have hrest : Utf8.dropBytes? l.cursor.offset l.buffer.chars = some l.cursor.rest :=
              h.cursor
            have hadvance := advanceTo?_eq h 1
            rw [Cursor.advanceBy, Cursor.advanceBy] at hadvance
            cases hchars : l.cursor.rest with
            | nil =>
              refine absurd ?_ hkind
              rw [isEnd, hempty.2 hchars, Bool.or_true]
            | cons c rest =>
              have hoffset : (l.cursor.advance l.lineTerminator).offset =
                  l.cursor.offset + c.utf8Size := by
                rw [Cursor.advance, hchars]
              rw [hoffset] at hadvance
              simp only [hrest, hchars, List.head?_cons, hadvance, Option.bind_some]
              rfl

theorem scanToken?_eq (hg : g.WellFormed) (h : l.Fits g) :
    l.scanToken? g = some (l.scanToken g) := by
  fun_induction Lexer.scanToken g l with
  | case1 l token next hstep =>
    rw [scanToken?, scanStep?_eq hg h, hstep]
  | case2 l _ next hstep hlt ih =>
    have hfits := h.scanStep hg
    rw [hstep] at hfits
    rw [scanToken?, scanStep?_eq hg h, hstep]
    simp only [if_pos hlt]
    exact ih hfits.2

/-- Noise is not the end of the input, so it is not empty. -/
theorem isEmpty_scanToken_of_noise (hg : g.WellFormed) (h : l.Fits g)
    (hnoise : g.hasKind (l.scanToken g).1.symbol .noise = true) :
    (l.scanToken g).1.span.isEmpty = false := by
  cases h.gives_scanToken hg with
  | piece hspan hlt _ =>
    rw [hspan, Span.isEmpty, beq_eq_false_iff_ne]
    exact Nat.ne_of_lt hlt
  | ends hkind _ _ => cases hasKind_unique hnoise hkind

theorem readToken?_eq (hg : g.WellFormed) (h : l.Fits g) :
    l.readToken? g = some (l.readToken g) := by
  fun_induction Lexer.readToken g l with
  | case1 l token next hscan hnoise hlt ih =>
    obtain ⟨htoken, hnext, -⟩ := h.scanToken hg
    rw [hscan] at htoken hnext
    have hsymbol := Array.getElem?_eq_getElem htoken.symbol
    have hkind := hnoise.1
    rw [Grammar.hasKind_of_getElem? hsymbol, beq_iff_eq] at hkind
    rw [readToken?, scanToken?_eq hg h, hscan]
    simp only [hsymbol, hkind, if_pos hlt, ↓reduceIte]
    exact ih hnext
  | case2 l token next hscan hnoise =>
    obtain ⟨htoken, -, -⟩ := h.scanToken hg
    have hempty := isEmpty_scanToken_of_noise hg h
    rw [hscan] at htoken hempty
    obtain ⟨symbol, hsymbol⟩ : ∃ symbol, g.symbols[token.symbol]? = some symbol :=
      ⟨_, Array.getElem?_eq_getElem htoken.symbol⟩
    have hkind : ¬ symbol.kind = .noise := by
      intro hkind
      have hhas : g.hasKind token.symbol .noise = true := by
        rw [Grammar.hasKind_of_getElem? hsymbol, hkind]
        rfl
      exact hnoise ⟨hhas, hempty hhas⟩
    rw [readToken?, scanToken?_eq hg h, hscan]
    simp only [hsymbol, if_neg hkind]

/-! ### Any number of operations -/

/-- An operation of a lexer. -/
inductive Op where
  /-- Scan another input, from its beginning. -/
  | load (input : Buffer)
  /-- Go back to the beginning of the input. -/
  | reset
  /-- Drop the input. -/
  | unload
  /-- Hand over the input. -/
  | release
  /-- Take the next token. -/
  | scan
  /-- Take the next token that is not noise. -/
  | read
deriving DecidableEq, Repr

namespace Op

/-- The token that an operation gives, if it gives one, and the lexer after it. -/
def run (g : Grammar) (l : Lexer) : Op → Option Token × Lexer
  | load input => (none, l.load input)
  | reset => (none, l.reset)
  | unload => (none, l.unload)
  | release => (none, l.release.2)
  | scan => let (token, next) := l.scanToken g; (some token, next)
  | read => let (token, next) := l.readToken g; (some token, next)

/-- The same, where scanning can fail. -/
def run? (g : Grammar) (l : Lexer) : Op → Option (Option Token × Lexer)
  | scan => (l.scanToken? g).map fun (token, next) => (some token, next)
  | read => (l.readToken? g).map fun (token, next) => (some token, next)
  | op => some (op.run g l)

end Op

/-- The lexer after some operations. -/
def after (g : Grammar) (l : Lexer) (ops : List Op) : Lexer :=
  ops.foldl (fun l op => (op.run g l).2) l

/-- The lexer after some operations, unless one of them fails. -/
def after? (g : Grammar) (l : Lexer) (ops : List Op) : Option Lexer :=
  ops.foldlM (fun l op => (op.run? g l).map Prod.snd) l

theorem Fits.run (hg : g.WellFormed) (h : l.Fits g) (op : Op) :
    (op.run g l).2.Fits g ∧ ∀ token, (op.run g l).1 = some token →
      token.Fits g (op.run g l).2.buffer := by
  cases op with
  | load input => exact ⟨.reset g { l with buffer := input }, nofun⟩
  | reset => exact ⟨.reset g l, nofun⟩
  | unload => exact ⟨.reset g { l with buffer := .empty }, nofun⟩
  | release => exact ⟨.reset g { l with buffer := .empty }, nofun⟩
  | scan =>
    obtain ⟨htoken, hnext, hbuffer⟩ := h.scanToken hg
    refine ⟨hnext, fun token heq => ?_⟩
    cases heq
    exact hbuffer ▸ htoken
  | read =>
    obtain ⟨htoken, hnext, hbuffer⟩ := h.readToken hg
    refine ⟨hnext, fun token heq => ?_⟩
    cases heq
    exact hbuffer ▸ htoken

theorem Op.run?_eq (hg : g.WellFormed) (h : l.Fits g) (op : Op) :
    op.run? g l = some (op.run g l) := by
  cases op with
  | scan =>
    rw [run?, scanToken?_eq hg h]
    rfl
  | read =>
    rw [run?, readToken?_eq hg h]
    rfl
  | _ => rfl

/-- No operation fails, however many have come before. -/
theorem Fits.after?_eq (hg : g.WellFormed) (h : l.Fits g) (ops : List Op) :
    l.after? g ops = some (l.after g ops) ∧ (l.after g ops).Fits g := by
  induction ops generalizing l with
  | nil => exact ⟨rfl, h⟩
  | cons op ops ih =>
    rw [after?, List.foldlM_cons, Op.run?_eq hg h]
    exact ih (h.run hg op).1

end Lexer

end CompiledGrammar
