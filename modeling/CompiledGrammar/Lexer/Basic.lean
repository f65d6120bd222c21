import CompiledGrammar.Lexer.Token
import CompiledGrammar.Lexer.Walk

/-!
# The lexer

A `Lexer` cuts an input into tokens.  Between calls it is a cursor into the input and a stack of the
lexical groups that are open there.

* `Lexer.peek` is the longest match at the cursor.
* `Lexer.scanStep` considers one match: it is a token of its own, opens a group, closes one, or is
  part of one.
* `Lexer.scanToken` repeats that up to the next token, where a group counts as a single token.
* `Lexer.readToken` also drops noise.

Every step that does not return a token lessens `Lexer.pending`, a measure of the input and the
groups that are left (`Lexer.pending_lt_of_scanStep`), and so does every noise token that is dropped
(`Lexer.pending_lt_of_scanToken`); both loops end on that ground.
-/

namespace CompiledGrammar

/-- A place in the input. -/
structure Cursor where
  /-- How many bytes come before. -/
  offset : Nat
  /-- The line and column. -/
  position : Position
  /-- The characters from here on. -/
  rest : List Char
deriving DecidableEq, Repr

namespace Cursor

/-- The beginning of a text. -/
def start (cs : List Char) : Cursor := ⟨0, .first, cs⟩

/-- Move over one character, if there is one. -/
def advance (terminator : UInt8) (c : Cursor) : Cursor :=
  match c.rest with
  | [] => c
  | ch :: rest => ⟨c.offset + ch.utf8Size, c.position.afterChar terminator ch, rest⟩

/-- Move over `n` characters. -/
def advanceBy (terminator : UInt8) : Nat → Cursor → Cursor
  | 0, c => c
  | n + 1, c => advanceBy terminator n (c.advance terminator)

theorem advanceBy_of_rest_eq_nil {terminator : UInt8} {c : Cursor} (h : c.rest = []) (n : Nat) :
    c.advanceBy terminator n = c := by
  induction n with
  | zero => rfl
  | succ n ih =>
    have hc : c.advance terminator = c := by simp [advance, h]
    rw [advanceBy, hc, ih]

theorem length_rest_advance (terminator : UInt8) (c : Cursor) :
    (c.advance terminator).rest.length = c.rest.length - 1 := by
  unfold advance
  split <;> simp_all

theorem length_rest_advanceBy_le (terminator : UInt8) (n : Nat) (c : Cursor) :
    (c.advanceBy terminator n).rest.length ≤ c.rest.length := by
  induction n generalizing c with
  | zero => exact Nat.le_refl _
  | succ n ih =>
    have := ih (c.advance terminator)
    rw [length_rest_advance] at this
    rw [advanceBy]
    omega

/-- Moving on takes characters from what is left. -/
theorem length_rest_advanceBy_lt {terminator : UInt8} {n : Nat} {c : Cursor}
    (h : (c.advanceBy terminator n).offset ≠ c.offset) :
    (c.advanceBy terminator n).rest.length < c.rest.length := by
  cases n with
  | zero => exact absurd rfl h
  | succ n =>
    cases hc : c.rest with
    | nil => exact absurd (congrArg offset (advanceBy_of_rest_eq_nil hc _)) h
    | cons ch rest =>
      have := length_rest_advanceBy_le terminator n (c.advance terminator)
      rw [length_rest_advance, hc] at this
      rw [advanceBy, List.length_cons]
      simp only [List.length_cons] at this
      omega

end Cursor

/-- A group that has been opened and not yet closed. -/
structure OpenGroup where
  /-- The group. -/
  group : Group
  /-- The offset at which it was opened. -/
  start : Nat
  /-- The position at which it was opened. -/
  position : Position
deriving DecidableEq, Repr

/-- The byte that starts a new line unless another is chosen, by a convention of the table
format. -/
def defaultLineTerminator : UInt8 := 0x13

/-- A lexer between two tokens. -/
structure Lexer where
  /-- The input. -/
  buffer : Buffer := .empty
  /-- The next character to scan. -/
  cursor : Cursor := .start []
  /-- The open groups, innermost first. -/
  groups : List OpenGroup := []
  /-- The byte that starts a new line. -/
  lineTerminator : UInt8 := defaultLineTerminator
deriving DecidableEq, Repr

namespace Lexer

/-! ### Input -/

/-- Go back to the beginning of the input. -/
def reset (l : Lexer) : Lexer :=
  { l with cursor := .start l.buffer.chars, groups := [] }

/-- Scan another input, from its beginning. -/
def load (l : Lexer) (input : Buffer) : Lexer :=
  { l with buffer := input }.reset

/-- Drop the input. -/
def unload (l : Lexer) : Lexer :=
  l.load .empty

/-- Hand over the input and keep none. -/
def release (l : Lexer) : Buffer × Lexer :=
  (l.buffer, l.unload)

/-! ### Tokens -/

/-- The next match and the place after it.  Nothing is consumed. -/
def peek (g : Grammar) (l : Lexer) : Token × Cursor :=
  let (symbol, n) := g.nextMatch l.cursor.rest
  let after := l.cursor.advanceBy l.lineTerminator n
  (⟨symbol, ⟨l.cursor.offset, after.offset⟩, l.cursor.position⟩, after)

/-- The group that a token opens here: any group outside of all groups, and inside a group one that
may nest in it. -/
def opens? (g : Grammar) (l : Lexer) (token : Token) : Option Group :=
  if g.hasKind token.symbol .groupStart && !token.span.isEmpty then
    (g.groupStartedBy? token.symbol).filter fun inner =>
      match l.groups with
      | [] => true
      | top :: _ => top.group.nests inner.index
  else none

/-- Nothing more will be found inside the open groups: the token is the end of the input. -/
def isEnd (g : Grammar) (token : Token) : Bool :=
  g.hasKind token.symbol .endOfFile || token.span.isEmpty

/-- What considering one match comes to. -/
inductive Step where
  /-- A token, and the lexer after it. -/
  | emit (token : Token) (next : Lexer)
  /-- The match was part of a token that goes on. -/
  | resume (token : Token) (next : Lexer)
deriving DecidableEq, Repr

/-- Consider the next match. -/
def scanStep (g : Grammar) (l : Lexer) : Step :=
  let (token, after) := l.peek g
  match l.opens? g token with
  | some group =>
    .resume token
      { l with cursor := after, groups := ⟨group, token.span.start, token.position⟩ :: l.groups }
  | none =>
    match l.groups with
    | [] => .emit token { l with cursor := after }
    | top :: outer =>
      if top.group.endSymbol = token.symbol then
        let cursor :=
          match top.group.ending with
          | .closed => after
          | .opened => l.cursor
        if outer.isEmpty then
          .emit ⟨top.group.container, ⟨top.start, cursor.offset⟩, top.position⟩
            { l with cursor, groups := [] }
        else .resume token { l with cursor, groups := outer }
      else if isEnd g token then .emit token l
      else
        match top.group.advance with
        | .token => .resume token { l with cursor := after }
        | .character => .resume token { l with cursor := l.cursor.advance l.lineTerminator }

/-! ### Progress -/

/-- What is left to do: two for each character to come, and one for each open group.  Opening a
group takes at least a character, and closing one may take none. -/
def pending (l : Lexer) : Nat :=
  2 * l.cursor.rest.length + l.groups.length

theorem length_rest_peek_le (g : Grammar) (l : Lexer) :
    (l.peek g).2.rest.length ≤ l.cursor.rest.length :=
  Cursor.length_rest_advanceBy_le _ _ _

theorem length_rest_peek_lt {g : Grammar} {l : Lexer} (h : (l.peek g).1.span.isEmpty = false) :
    (l.peek g).2.rest.length < l.cursor.rest.length := by
  refine Cursor.length_rest_advanceBy_lt fun heq => ?_
  simp only [peek, Span.isEmpty, beq_eq_false_iff_ne] at h
  exact h heq.symm

theorem isEmpty_of_opens? {g : Grammar} {l : Lexer} {token : Token} {group : Group}
    (h : l.opens? g token = some group) : token.span.isEmpty = false := by
  unfold opens? at h
  split at h
  · simp_all
  · cases h

theorem pending_lt_of_scanStep {g : Grammar} {l next : Lexer} {token : Token}
    (h : l.scanStep g = .resume token next) : next.pending < l.pending := by
  have hle := length_rest_peek_le g l
  have hlt := @length_rest_peek_lt g l
  unfold scanStep at h
  generalize l.peek g = peeked at h hle hlt
  obtain ⟨found, after⟩ := peeked
  simp only at h hle hlt
  split at h
  · rename_i group hopens
    have := hlt (isEmpty_of_opens? hopens)
    cases h
    simp only [pending, List.length_cons]
    omega
  · split at h
    · cases h
    · rename_i top outer hgroups
      split at h
      · split at h
        · cases h
        · cases h
          simp only [pending, hgroups, List.length_cons]
          split <;> omega
      · split at h
        · cases h
        · rename_i hend
          have hrest : after.rest.length < l.cursor.rest.length := hlt (by simp_all [isEnd])
          split at h <;> cases h <;> simp only [pending, Cursor.length_rest_advance] <;> omega

/-- The next token, noise included.  A group is one token of its container symbol; if the input ends
inside a group, the token is the end of the input and the group stays open. -/
def scanToken (g : Grammar) (l : Lexer) : Token × Lexer :=
  match h : l.scanStep g with
  | .emit token next => (token, next)
  | .resume _ next =>
    have := pending_lt_of_scanStep h
    scanToken g next
termination_by l.pending

theorem hasKind_unique {g : Grammar} {s : SymbolIdx} {k k' : SymbolKind} (h : g.hasKind s k)
    (h' : g.hasKind s k') : k = k' := by
  simp only [Grammar.hasKind, Option.any_eq_true] at h h'
  grind

theorem pending_lt_of_emit {g : Grammar} {l next : Lexer} {token : Token}
    (h : l.scanStep g = .emit token next) (hnoise : g.hasKind token.symbol .noise)
    (hspan : token.span.isEmpty = false) : next.pending < l.pending := by
  have hle := length_rest_peek_le g l
  have hlt := @length_rest_peek_lt g l
  unfold scanStep at h
  generalize l.peek g = peeked at h hle hlt
  obtain ⟨found, after⟩ := peeked
  simp only at h hle hlt
  split at h
  · cases h
  · split at h
    · rename_i hgroups
      cases h
      have := hlt hspan
      simp only [pending]
      omega
    · rename_i top outer hgroups
      split at h
      · split at h
        · cases h
          simp only [pending, hgroups, List.length_cons, List.length_nil]
          split <;> omega
        · cases h
      · split at h
        · rename_i hend
          cases h
          simp only [isEnd, hspan, Bool.or_false] at hend
          cases hasKind_unique hend hnoise
        · split at h <;> cases h

theorem pending_lt_of_scanToken {g : Grammar} {l next : Lexer} {token : Token}
    (h : l.scanToken g = (token, next)) (hnoise : g.hasKind token.symbol .noise)
    (hspan : token.span.isEmpty = false) : next.pending < l.pending := by
  fun_induction scanToken g l with
  | case1 l found after hstep =>
    cases h
    exact pending_lt_of_emit hstep hnoise hspan
  | case2 l _ after hstep hlt ih => exact Nat.lt_trans (ih h) hlt

/-- The next token that is not noise.  Noise is never empty. -/
def readToken (g : Grammar) (l : Lexer) : Token × Lexer :=
  match h : l.scanToken g with
  | (token, next) =>
    if hnoise : g.hasKind token.symbol .noise ∧ token.span.isEmpty = false then
      have := pending_lt_of_scanToken h hnoise.1 hnoise.2
      readToken g next
    else (token, next)
termination_by l.pending

end Lexer

end CompiledGrammar
