import CompiledGrammar.Proofs.Lexer.Reachable
import Mathlib.Data.List.DropRight

/-!
# Lines and columns

A lexer counts lines and columns byte by byte as it moves on, keeps the position at which a group
was opened until the group is closed, and goes back to the first position with the cursor.  What
comes of it depends on the text alone: the line is one more than the terminators before a byte, and
the column one more than the bytes after the last of these (`Position.after`).  The terminator can
be any byte, also one from the middle of a character.

* Moving on adds the bytes that are passed (`Position.after_append`).
* A step keeps the cursor and the open groups where their positions say (`Lexer.Located.scanStep`),
  and the token it gives starts where its own position says (`Lexer.Located.of_emit`).
-/

namespace CompiledGrammar

namespace Position

/-- The position after some bytes: a line for each terminator among them, and a column for each byte
after the last of these. -/
def after (terminator : UInt8) (bytes : List UInt8) : Position where
  line := 1 + bytes.count terminator
  column := 1 + (bytes.rtakeWhile (· ≠ terminator)).length

theorem after_concat (terminator : UInt8) (bytes : List UInt8) (b : UInt8) :
    after terminator (bytes ++ [b]) = (after terminator bytes).next terminator b := by
  unfold after next
  rw [List.count_append]
  by_cases hb : b = terminator
  · rw [if_pos hb, hb, List.count_singleton_self, List.rtakeWhile_concat_neg _ _ _ (by simp)]
    rfl
  · rw [if_neg hb, List.count_singleton, if_neg (by simpa using hb),
      List.rtakeWhile_concat_pos _ _ _ (by simpa using hb), List.length_append]
    rfl

/-- A text that goes on after some bytes goes on from the position after them. -/
theorem after_append (terminator : UInt8) (bytes more : List UInt8) :
    after terminator (bytes ++ more) = more.foldl (next terminator) (after terminator bytes) := by
  induction more generalizing bytes with
  | nil => rw [List.append_nil, List.foldl_nil]
  | cons b more ih => rw [List.append_cons, ih, after_concat, List.foldl_cons]

end Position

/-! ### Bytes of a text -/

namespace Utf8

/-- The bytes that encode `cs`. -/
def encode (cs : List Char) : List UInt8 := cs.flatMap String.utf8EncodeChar

theorem encode_append (cs ds : List Char) : encode (cs ++ ds) = encode cs ++ encode ds :=
  List.flatMap_append

theorem length_encode (cs : List Char) : (encode cs).length = byteLength cs := by
  induction cs with
  | nil => rfl
  | cons c cs ih =>
    rw [encode, List.flatMap_cons, List.length_append, String.length_utf8EncodeChar,
      byteLength_cons, ← ih, encode]

theorem foldl_encode (terminator : UInt8) (p : Position) (cs : List Char) :
    (encode cs).foldl (Position.next terminator) p =
      cs.foldl (Position.afterChar terminator) p :=
  List.foldl_flatMap

/-- The bytes before a place between two characters are those of the characters before it. -/
theorem take_encode (before rest : List Char) :
    (encode (before ++ rest)).take (byteLength before) = encode before := by
  rw [encode_append, ← length_encode, List.take_left]

end Utf8

namespace Buffer

/-- The bytes of the text. -/
def bytes (b : Buffer) : List UInt8 := Utf8.encode b.chars

/-- The position of an offset of the text. -/
def positionAt (b : Buffer) (terminator : UInt8) (offset : Nat) : Position :=
  .after terminator (b.bytes.take offset)

end Buffer

namespace Cursor

/-- The cursor has the position that its offset has in the text. -/
def Located (terminator : UInt8) (input : Buffer) (c : Cursor) : Prop :=
  c.position = input.positionAt terminator c.offset

variable {terminator : UInt8} {input : Buffer} {c : Cursor}

theorem located_start (terminator : UInt8) (input : Buffer) :
    (start input.chars).Located terminator input := rfl

/-- Moving on counts the bytes that are passed. -/
theorem Located.advanceBy (h : c.Located terminator input) (hin : c.In input.chars) (n : Nat) :
    (c.advanceBy terminator n).Located terminator input := by
  obtain ⟨before, happend, hlen⟩ := Utf8.dropBytes?_eq_some.1 hin
  have hchars : input.chars = (before ++ c.rest.take n) ++ c.rest.drop n := by
    rw [List.append_assoc, List.take_append_drop, happend]
  have hbefore : input.bytes.take c.offset = Utf8.encode before := by
    rw [Buffer.bytes, ← happend, ← hlen, Utf8.take_encode]
  have hpassed : input.bytes.take (c.offset + Utf8.byteLength (c.rest.take n)) =
      Utf8.encode before ++ Utf8.encode (c.rest.take n) := by
    rw [Buffer.bytes, hchars, ← hlen, ← Utf8.byteLength_append, Utf8.take_encode,
      Utf8.encode_append]
  rw [advanceBy_eq, Located, Buffer.positionAt, hpassed, Position.after_append, Utf8.foldl_encode,
    ← hbefore]
  exact congrArg (fun p => (c.rest.take n).foldl (Position.afterChar terminator) p) h

theorem Located.advance (h : c.Located terminator input) (hin : c.In input.chars) :
    (c.advance terminator).Located terminator input :=
  h.advanceBy hin 1

end Cursor

/-! ### Lexers -/

namespace Token

/-- The token has the position of its first byte. -/
def Located (terminator : UInt8) (input : Buffer) (t : Token) : Prop :=
  t.position = input.positionAt terminator t.span.start

end Token

namespace Lexer

/-- The cursor and the open groups have the positions of their offsets. -/
structure Located (l : Lexer) : Prop where
  cursor : l.cursor.Located l.lineTerminator l.buffer
  groups : ∀ o ∈ l.groups, o.position = l.buffer.positionAt l.lineTerminator o.start

variable {g : Grammar} {l next : Lexer} {token : Token}

namespace Located

theorem reset (l : Lexer) : l.reset.Located :=
  ⟨Cursor.located_start _ _, nofun⟩

theorem after_peek (h : l.Located) (hfits : l.Fits g) :
    (l.peek g).2.Located l.lineTerminator l.buffer :=
  h.cursor.advanceBy hfits.cursor _

/-- **A step keeps positions right**, those of the open groups as well as that of the cursor. -/
theorem scanStep (h : l.Located) (hfits : l.Fits g) : (l.scanStep g).next.Located := by
  have hafter := h.after_peek hfits
  have hscans := scans_scanStep (g := g) (l := l)
  generalize l.scanStep g = step at hscans
  cases hscans with
  | opens => exact ⟨hafter, List.forall_mem_cons.2 ⟨h.cursor, h.groups⟩⟩
  | single => exact ⟨hafter, h.groups⟩
  | closes _ _ hcursor =>
    rcases hcursor with rfl | rfl
    · exact ⟨hafter, nofun⟩
    · exact ⟨h.cursor, nofun⟩
  | leaves hgroups _ _ hcursor =>
    have houter := fun o ho => h.groups o (hgroups ▸ List.mem_cons_of_mem _ ho)
    rcases hcursor with rfl | rfl
    · exact ⟨hafter, houter⟩
    · exact ⟨h.cursor, houter⟩
  | ends => exact h
  | skips _ _ hcursor =>
    rcases hcursor with rfl | rfl
    · exact ⟨hafter, h.groups⟩
    · exact ⟨h.cursor.advance hfits.cursor, h.groups⟩

/-- The token that a step gives starts at the cursor, or where the group that it stands for was
opened. -/
theorem of_emit (h : l.Located) (hstep : l.scanStep g = .emit token next) :
    token.Located l.lineTerminator l.buffer := by
  have hscans := scans_scanStep (g := g) (l := l)
  rw [hstep] at hscans
  cases hscans with
  | single => exact h.cursor
  | @closes top _ hgroups => exact h.groups top (by simp [hgroups])
  | ends => exact h.cursor

end Located

namespace Reachable

variable {lineTerminator : UInt8}

theorem located (hg : g.WellFormed) (h : l.Reachable g lineTerminator) : l.Located := by
  induction h with
  | new => exact .reset { lineTerminator }
  | @load l input _ _ => exact .reset { l with buffer := input }
  | @reset l _ _ => exact .reset l
  | scanStep hl ih => exact ih.scanStep (hl.fits hg)

theorem located_of_emit (hg : g.WellFormed) (h : l.Reachable g lineTerminator)
    (hstep : l.scanStep g = .emit token next) : token.Located lineTerminator next.buffer := by
  have hbuffer := buffer_scanStep (g := g) (l := l)
  rw [hstep] at hbuffer
  rw [← h.lineTerminator_eq, show next.buffer = l.buffer from hbuffer]
  exact (h.located hg).of_emit hstep

/-- The token that reading gives has the position of its first byte. -/
theorem located_readToken (hg : g.WellFormed) (h : l.Reachable g lineTerminator) :
    (l.readToken g).1.Located lineTerminator (l.readToken g).2.buffer := by
  obtain ⟨m, hm, hstep⟩ := h.exists_emit_of_readToken
  exact hm.located_of_emit hg hstep

theorem located_of_run (hg : g.WellFormed) (h : l.Reachable g lineTerminator) {op : Op}
    (hrun : op.run g l = (some token, next)) : token.Located lineTerminator next.buffer := by
  obtain ⟨m, hm, hstep⟩ := h.exists_emit_of_run hrun
  exact hm.located_of_emit hg hstep

end Reachable

end Lexer

end CompiledGrammar
