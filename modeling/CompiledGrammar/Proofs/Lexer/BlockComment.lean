import CompiledGrammar.Proofs.Lexer.Delimiter
import CompiledGrammar.Proofs.Lexer.LineComment
import CompiledGrammar.Proofs.Lexer.Nesting

/-!
# Block comments that nest

A lexer does not look for the delimiters of a comment.  At each place it takes the longest match of
the whole lexical automaton, which may be a number, an error of several characters or the start of
another kind of comment, and then opens a group, closes one or moves on by a character.  Here that
is compared with a scan that knows nothing of tokens and counts delimiters (`countBlocks`).

* `NestsBlocks` says what a group of block comments is.  Inside of such groups, a step does what the
  count does at that place: it opens one (`NestsBlocks.scanStep_opens`), closes one
  (`NestsBlocks.scanStep_closes`, `NestsBlocks.scanStep_leaves`), moves on by a character
  (`NestsBlocks.scanStep_skips`) or is at the end of the input (`NestsBlocks.scanStep_ends`).
* So do all steps together (`NestsBlocks.describes_inside`), by induction on what is left of the
  text.

`Sample.block_comments` says so of both sample grammars that have block comments.
-/

namespace CompiledGrammar

/-! ### Counting -/

/-- What counting delimiters comes to. -/
inductive BlockEnd where
  /-- All comments are closed, the last one before an offset. -/
  | closed (offset : Nat)
  /-- The text ends inside of so many comments. -/
  | unclosed (depth : Nat)
deriving DecidableEq, Repr

/-- Go through a text that is inside of `depth` comments, up to the end of the outermost one: `/*`
opens a comment, `*/` closes one, and of everything else one character is skipped. -/
def countBlocks : Nat → Nat → List Char → BlockEnd
  | 0, offset, _ => .closed offset
  | depth + 1, offset, '/' :: '*' :: cs => countBlocks (depth + 2) (offset + 2) cs
  | depth + 1, offset, '*' :: '/' :: cs => countBlocks depth (offset + 2) cs
  | depth + 1, offset, c :: cs => countBlocks (depth + 1) (offset + c.utf8Size) cs
  | depth + 1, _, [] => .unclosed (depth + 1)

/-- A token, and the lexer after it, are what the count says: the whole comment, or the end of the
input inside of as many groups. -/
def BlockEnd.Describes (g : Grammar) (input : Buffer) (container : SymbolIdx) (start : Nat)
    (position : Position) (result : Token × Lexer) : BlockEnd → Prop
  | .closed offset =>
    result.1 = ⟨container, ⟨start, offset⟩, position⟩ ∧ result.2.cursor.offset = offset ∧
      result.2.groups = []
  | .unclosed depth =>
    result.1.symbol = g.eofSymbol ∧ result.1.span = .empty input.byteLength ∧
      result.2.cursor.offset = input.byteLength ∧ result.2.groups.length = depth

/-- Moving over the two characters of a delimiter. -/
theorem Cursor.advanceBy_two (terminator : UInt8) {cursor : Cursor} {c d : Char} {cs : List Char}
    (hrest : cursor.rest = c :: d :: cs) (hc : c.utf8Size = 1) (hd : d.utf8Size = 1) :
    (cursor.advanceBy terminator 2).offset = cursor.offset + 2 ∧
      (cursor.advanceBy terminator 2).rest = cs := by
  rw [advanceBy_eq, hrest]
  simp [hc, hd]

/-! ### Groups of block comments -/

/-- The group is of block comments that nest: it starts with `/*`, ends with `*/` and takes that in,
is moved through by characters, and lets itself nest, but no other group.  Nothing in the text is
the end of the input. -/
structure NestsBlocks (g : Grammar) (block : Group) : Prop where
  loaded : g.Loaded
  starts : ∀ q, g.dfaStates[g.dfaInitial]? = some q →
    g.IsDelimiter q block.startSymbol ['/', '*']
  ends : ∀ q, g.dfaStates[g.dfaInitial]? = some q → g.IsDelimiter q block.endSymbol ['*', '/']
  startKind : g.hasKind block.startSymbol .groupStart = true
  started : g.groupStartedBy? block.startSymbol = some block
  nesting : block.nesting = [block.index]
  advance : block.advance = .character
  ending : block.ending = .closed
  accepts : ∀ q ∈ g.dfaStates, ∀ s, q.accept = some s → g.hasKind s .endOfFile = false

namespace NestsBlocks

variable {g : Grammar} {block : Group} {l : Lexer} {top : OpenGroup} {outer : List OpenGroup}
  {cs : List Char}

/-! ### Matches -/

theorem exists_initial (h : NestsBlocks g block) : ∃ q, g.dfaStates[g.dfaInitial]? = some q :=
  ⟨_, Array.getElem?_eq_getElem h.loaded.wellFormed.dfaInitial⟩

theorem nextMatch_opening (h : NestsBlocks g block) (cs : List Char) :
    g.nextMatch ('/' :: '*' :: cs) = (block.startSymbol, 2) := by
  obtain ⟨q, hq⟩ := h.exists_initial
  exact (h.starts q hq).nextMatch_eq hq cs

theorem nextMatch_closing (h : NestsBlocks g block) (cs : List Char) :
    g.nextMatch ('*' :: '/' :: cs) = (block.endSymbol, 2) := by
  obtain ⟨q, hq⟩ := h.exists_initial
  exact (h.ends q hq).nextMatch_eq hq cs

theorem exists_opening (h : NestsBlocks g block)
    (hsymbol : (g.nextMatch cs).1 = block.startSymbol) : ∃ rest, cs = '/' :: '*' :: rest := by
  obtain ⟨q, hq⟩ := h.exists_initial
  obtain ⟨rest, hrest⟩ := (h.starts q hq).isPrefix hq hsymbol
  exact ⟨rest, hrest.symm⟩

theorem exists_closing (h : NestsBlocks g block)
    (hsymbol : (g.nextMatch cs).1 = block.endSymbol) : ∃ rest, cs = '*' :: '/' :: rest := by
  obtain ⟨q, hq⟩ := h.exists_initial
  obtain ⟨rest, hrest⟩ := (h.ends q hq).isPrefix hq hsymbol
  exact ⟨rest, hrest.symm⟩

/-- A match in the text is not the end of the input. -/
theorem hasKind_nextMatch (h : NestsBlocks g block) (hcs : cs ≠ []) :
    g.hasKind (g.nextMatch cs).1 .endOfFile = false := by
  obtain ⟨q, hq⟩ := h.exists_initial
  simp only [Grammar.nextMatch, hq]
  cases haccepted : (g.walk q cs).accepted with
  | some found =>
    obtain ⟨last, hlast, haccept⟩ := List.mem_filterMap.1 (Lexer.accepted_walk_mem
      (Array.mem_toList_iff.2 (Array.mem_of_getElem? hq)) (s := found.1) (n := found.2) haccepted)
    exact h.accepts last (Array.mem_toList_iff.1 hlast) _ haccept
  | none =>
    dsimp only
    rw [if_neg (Nat.ne_of_gt (Grammar.read_walk_pos hcs))]
    refine Bool.eq_false_iff.2 fun heof => ?_
    cases Lexer.hasKind_unique heof h.loaded.wellFormed.errorSymbol.hasKind

/-! ### Steps -/

/-- Inside of a block comment, only `/*` opens a group. -/
theorem opens?_eq_none (h : NestsBlocks g block) (hgroups : l.groups = top :: outer)
    (htop : top.group = block) (hopening : ∀ rest, l.cursor.rest ≠ '/' :: '*' :: rest) :
    l.opens? g (l.peek g).1 = none := by
  by_contra hopens
  obtain ⟨group, hgroup⟩ := Option.ne_none_iff_exists'.1 hopens
  have hnests := Lexer.nests_of_opens? hgroup hgroups
  have hindex : group.index = block.index := by
    simpa [Group.nests, htop, h.nesting] using hnests
  have hblock : g.groups[block.index]? = some block :=
    h.loaded.wellFormed.getElem?_groups (List.mem_of_find?_eq_some h.started)
  have hget := h.loaded.wellFormed.getElem?_groups (Lexer.mem_groups_of_opens? hgroup)
  rw [hindex, hblock] at hget
  obtain rfl := Option.some.inj hget
  obtain ⟨rest, hrest⟩ := h.exists_opening (Lexer.startSymbol_of_opens? hgroup).symm
  exact hopening rest hrest

/-- `/*` opens a comment, outside of all groups as well as inside of block comments. -/
theorem scanStep_opens (h : NestsBlocks g block) (hall : ∀ o ∈ l.groups, o.group = block)
    (hrest : l.cursor.rest = '/' :: '*' :: cs) :
    l.scanStep g = .resume (l.peek g).1
      { l with
        cursor := l.cursor.advanceBy l.lineTerminator 2
        groups := ⟨block, l.cursor.offset, l.cursor.position⟩ :: l.groups } := by
  have hmatch : g.nextMatch l.cursor.rest = (block.startSymbol, 2) := by
    rw [hrest, h.nextMatch_opening]
  have hsymbol : (l.peek g).1.symbol = block.startSymbol := by rw [Lexer.symbol_peek, hmatch]
  have hafter : (l.peek g).2 = l.cursor.advanceBy l.lineTerminator 2 := by
    rw [Lexer.peek, hmatch]
  have hspan := mt (Lexer.isEmpty_peek_iff (g := g) h.loaded.wellFormed.dfaInitial).1
    (show l.cursor.rest ≠ [] by simp [hrest])
  have hopens : l.opens? g (l.peek g).1 = some block := by
    cases hgroups : l.groups with
    | nil => simp [Lexer.opens?, hsymbol, h.startKind, hspan, h.started, hgroups]
    | cons top outer =>
      have htop : top.group = block := hall top (by simp [hgroups])
      simp [Lexer.opens?, hsymbol, h.startKind, hspan, h.started, hgroups, Group.nests, htop,
        h.nesting]
  simp only [Lexer.scanStep, hopens, hafter]
  rfl

theorem peek_of_closing (h : NestsBlocks g block) (hrest : l.cursor.rest = '*' :: '/' :: cs) :
    (l.peek g).1.symbol = block.endSymbol ∧
      (l.peek g).2 = l.cursor.advanceBy l.lineTerminator 2 := by
  have hmatch : g.nextMatch l.cursor.rest = (block.endSymbol, 2) := by
    rw [hrest, h.nextMatch_closing]
  exact ⟨by rw [Lexer.symbol_peek, hmatch], by rw [Lexer.peek, hmatch]⟩

/-- `*/` closes the outermost comment, which is a token then. -/
theorem scanStep_closes (h : NestsBlocks g block) (hgroups : l.groups = [top])
    (htop : top.group = block) (hrest : l.cursor.rest = '*' :: '/' :: cs) :
    l.scanStep g = .emit
      ⟨block.container, ⟨top.start, (l.cursor.advanceBy l.lineTerminator 2).offset⟩, top.position⟩
      { l with cursor := l.cursor.advanceBy l.lineTerminator 2, groups := [] } := by
  obtain ⟨hsymbol, hafter⟩ := h.peek_of_closing hrest
  have hopens := h.opens?_eq_none hgroups htop (by simp [hrest])
  simp [Lexer.scanStep, hopens, hgroups, htop, hsymbol, hafter, h.ending]

/-- `*/` closes a comment inside of others, which go on. -/
theorem scanStep_leaves (h : NestsBlocks g block) (hgroups : l.groups = top :: outer)
    (hne : outer ≠ []) (htop : top.group = block) (hrest : l.cursor.rest = '*' :: '/' :: cs) :
    l.scanStep g = .resume (l.peek g).1
      { l with cursor := l.cursor.advanceBy l.lineTerminator 2, groups := outer } := by
  obtain ⟨hsymbol, hafter⟩ := h.peek_of_closing hrest
  have hopens := h.opens?_eq_none hgroups htop (by simp [hrest])
  simp [Lexer.scanStep, hopens, hgroups, htop, hsymbol, hafter, h.ending, hne]

/-- Whatever matches where there is no delimiter, only one character is skipped. -/
theorem scanStep_skips (h : NestsBlocks g block) (hgroups : l.groups = top :: outer)
    (htop : top.group = block) (hne : l.cursor.rest ≠ [])
    (hopening : ∀ rest, l.cursor.rest ≠ '/' :: '*' :: rest)
    (hclosing : ∀ rest, l.cursor.rest ≠ '*' :: '/' :: rest) :
    l.scanStep g = .resume (l.peek g).1
      { l with cursor := l.cursor.advance l.lineTerminator } := by
  have hopens := h.opens?_eq_none hgroups htop hopening
  have hsymbol : block.endSymbol ≠ (l.peek g).1.symbol := by
    intro hsymbol
    obtain ⟨rest, hrest⟩ := h.exists_closing hsymbol.symm
    exact hclosing rest hrest
  have hend : Lexer.isEnd g (l.peek g).1 = false := by
    have hspan := mt (Lexer.isEmpty_peek_iff (g := g) h.loaded.wellFormed.dfaInitial).1 hne
    rw [Lexer.isEnd, Lexer.symbol_peek, h.hasKind_nextMatch hne, Bool.false_or]
    simpa using hspan
  simp [Lexer.scanStep, hopens, hgroups, htop, hsymbol, hend, h.advance]

/-- The end of the input leaves all comments open. -/
theorem scanStep_ends (h : NestsBlocks g block) (hgroups : l.groups = top :: outer)
    (htop : top.group = block) (hrest : l.cursor.rest = []) :
    l.scanStep g = .emit (l.peek g).1 l := by
  have hopens := h.opens?_eq_none hgroups htop (by simp [hrest])
  have hsymbol : block.endSymbol ≠ (l.peek g).1.symbol := by
    intro hsymbol
    obtain ⟨rest, hclosing⟩ := h.exists_closing hsymbol.symm
    rw [hrest] at hclosing
    cases hclosing
  have hend : Lexer.isEnd g (l.peek g).1 = true := by
    rw [Lexer.isEnd, (Lexer.isEmpty_peek_iff h.loaded.wellFormed.dfaInitial).2 hrest, Bool.or_true]
  simp [Lexer.scanStep, hopens, hgroups, htop, hsymbol, hend]

/-! ### All steps -/

/-- **Inside of block comments**, scanning gives what counting does. -/
theorem describes_inside (h : NestsBlocks g block) {outermost : OpenGroup}
    (hin : l.cursor.In l.buffer.chars) (hall : ∀ o ∈ l.groups, o.group = block)
    (hlast : l.groups.getLast? = some outermost) :
    (countBlocks l.groups.length l.cursor.offset l.cursor.rest).Describes g l.buffer
      block.container outermost.start outermost.position (l.scanToken g) := by
  generalize hdepth : l.groups.length = depth
  generalize hoffset : l.cursor.offset = offset
  generalize hrest : l.cursor.rest = cs
  fun_induction countBlocks depth offset cs generalizing l with
  | case1 offset cs =>
    rw [List.eq_nil_of_length_eq_zero hdepth] at hlast
    cases hlast
  | case2 depth offset cs ih =>
    obtain ⟨hadvance, hleft⟩ := Cursor.advanceBy_two l.lineTerminator hrest rfl rfl
    rw [Lexer.scanToken_of_resume (h.scanStep_opens hall hrest)]
    refine ih (hin.advanceBy _ _) (List.forall_mem_cons.2 ⟨rfl, hall⟩) ?_ ?_ ?_ hleft
    · rw [List.getLast?_cons, hlast, Option.getD_some]
    · rw [List.length_cons, hdepth]
    · rw [hadvance, hoffset]
  | case3 depth offset cs ih =>
    obtain ⟨hadvance, hleft⟩ := Cursor.advanceBy_two l.lineTerminator hrest rfl rfl
    obtain ⟨top, outer, hgroups⟩ := List.exists_cons_of_length_eq_add_one hdepth
    rw [hgroups] at hall hdepth hlast
    obtain ⟨htop, houter⟩ := List.forall_mem_cons.1 hall
    by_cases hne : outer = []
    · -- the outermost comment ends here, and so does the count
      subst hne
      obtain rfl : top = outermost := by simpa using hlast
      obtain rfl : depth = 0 := by simpa using hdepth.symm
      rw [Lexer.scanToken_of_emit (h.scanStep_closes hgroups htop hrest), hadvance, hoffset,
        countBlocks]
      exact ⟨rfl, by rw [hadvance, hoffset], rfl⟩
    · rw [Lexer.scanToken_of_resume (h.scanStep_leaves hgroups hne htop hrest)]
      refine ih (hin.advanceBy _ _) houter ?_ (Nat.succ.inj hdepth) ?_ hleft
      · obtain ⟨inner, houtermost⟩ := Option.isSome_iff_exists.1 (List.getLast?_isSome.2 hne)
        rw [List.getLast?_cons, houtermost, Option.getD_some] at hlast
        rw [houtermost, hlast]
      · rw [hadvance, hoffset]
  | case4 depth offset c cs hopening hclosing ih =>
    obtain ⟨top, outer, hgroups⟩ := List.exists_cons_of_length_eq_add_one hdepth
    have htop := hall top (by simp [hgroups])
    have hadvance : l.cursor.advance l.lineTerminator =
        ⟨l.cursor.offset + c.utf8Size, l.cursor.position.afterChar l.lineTerminator c, cs⟩ := by
      rw [Cursor.advance, hrest]
    have hskips := h.scanStep_skips hgroups htop (by simp [hrest])
      (by rw [hrest]; simpa using hopening) (by rw [hrest]; simpa using hclosing)
    rw [Lexer.scanToken_of_resume hskips]
    refine ih (hin.advance _) hall hlast hdepth ?_ ?_
    · rw [hadvance, hoffset]
    · rw [hadvance]
  | case5 depth offset =>
    obtain ⟨top, outer, hgroups⟩ := List.exists_cons_of_length_eq_add_one hdepth
    have htop := hall top (by simp [hgroups])
    have hend := hin.offset_eq hrest
    rw [Lexer.scanToken_of_emit (h.scanStep_ends hgroups htop hrest),
      Lexer.peek_of_rest_eq_nil hrest]
    exact ⟨rfl, congrArg Span.empty hend, hend, hdepth⟩

/-- A comment from its start, outside of all groups. -/
theorem describes_comment (h : NestsBlocks g block) (hin : l.cursor.In l.buffer.chars)
    (hgroups : l.groups = []) (hrest : l.cursor.rest = '/' :: '*' :: cs) :
    (countBlocks 1 (l.cursor.offset + 2) cs).Describes g l.buffer block.container l.cursor.offset
      l.cursor.position (l.scanToken g) := by
  obtain ⟨hadvance, hleft⟩ := Cursor.advanceBy_two l.lineTerminator hrest rfl rfl
  rw [Lexer.scanToken_of_resume (h.scanStep_opens (by simp [hgroups]) hrest), ← hadvance, ← hleft,
    hgroups]
  exact h.describes_inside (l := { l with
    cursor := l.cursor.advanceBy l.lineTerminator 2
    groups := [⟨block, l.cursor.offset, l.cursor.position⟩] }) (hin.advanceBy _ _) (by simp) rfl

end NestsBlocks

/-! ### The sample grammars -/

/-- A check for groups of block comments, given the walks that spell their delimiters. -/
def checkNestsBlocks (g : Grammar) (block : Group) (opening closing : List Nat) : Bool :=
  g.checkDelimiter block.startSymbol ['/', '*'] opening &&
    g.checkDelimiter block.endSymbol ['*', '/'] closing &&
    g.hasKind block.startSymbol .groupStart &&
    g.groupStartedBy? block.startSymbol == some block &&
    block.nesting == [block.index] && block.advance == .character && block.ending == .closed &&
    g.dfaStates.toList.all fun q => q.accept.all fun s => !g.hasKind s .endOfFile

theorem nestsBlocks_of_check {g : Grammar} {block : Group} {opening closing : List Nat}
    (hg : g.Loaded) (h : checkNestsBlocks g block opening closing = true) :
    NestsBlocks g block := by
  simp only [checkNestsBlocks, Bool.and_eq_true, beq_iff_eq, List.all_eq_true,
    Array.mem_toList_iff, Option.all_eq_true, Bool.not_eq_true'] at h
  obtain ⟨⟨⟨⟨⟨⟨⟨hopening, hclosing⟩, hkind⟩, hstarted⟩, hnesting⟩, hadvance⟩, hending⟩, haccepts⟩ :=
    h
  exact ⟨hg, fun q hq => Grammar.isDelimiter_of_check hg hq hopening,
    fun q hq => Grammar.isDelimiter_of_check hg hq hclosing, hkind, hstarted, hnesting, hadvance,
    hending, haccepts⟩

namespace Sample

/-- The group of comments in arithmetic. -/
def comment : Group := ⟨0, "Comment", 3, 4, 5, .character, .closed, [0]⟩

/-- The group of block comments between lines of words. -/
def blockComment : Group := ⟨0, "BlockComment", 5, 6, 7, .character, .closed, [0]⟩

variable {draft : Draft} {block : Group}

set_option maxRecDepth 10000 in
/-- Both tables load, and their delimiters are spelled by an edge from the start, which is another
one in each, and the first edge after it. -/
theorem exists_nestsBlocks
    (hdraft : (draft, block) ∈ [(operators, comment), (comments, blockComment)]) :
    ∃ g, Grammar.ofBytes draft.toBytes = .ok g ∧ NestsBlocks g block := by
  have hexists (opening closing : List Nat) (hcheck : Grammar.loadsWith draft.toBytes
      (fun g => checkNestsBlocks g block opening closing) = true) :
      ∃ g, Grammar.ofBytes draft.toBytes = .ok g ∧ NestsBlocks g block := by
    obtain ⟨g, hload, hg⟩ := Grammar.exists_of_loadsWith hcheck
    exact ⟨g, hload, nestsBlocks_of_check (.ofBytes hload) hg⟩
  simp only [List.mem_cons, List.not_mem_nil, or_false, Prod.mk.injEq] at hdraft
  rcases hdraft with ⟨rfl, rfl⟩ | ⟨rfl, rfl⟩
  · exact hexists [5, 0] [4, 0] (by decide +kernel)
  · exact hexists [3, 0] [4, 0] (by decide +kernel)

/-- **Block comments match by counting delimiters**, in both sample grammars that have them.  An
input that starts with `/*` is scanned up to the delimiter that ends the count, as a comment, or to
the end of the input, inside of as many groups as the count has comments. -/
theorem block_comments
    (hdraft : (draft, block) ∈ [(operators, comment), (comments, blockComment)]) {g : Grammar}
    (hload : Grammar.ofBytes draft.toBytes = .ok g) {l : Lexer} {cs : List Char}
    (hchars : l.buffer.chars = '/' :: '*' :: cs) :
    (countBlocks 1 2 cs).Describes g l.buffer block.container 0 .first (l.reset.scanToken g) := by
  obtain ⟨g', hload', hblocks⟩ := exists_nestsBlocks hdraft
  obtain rfl : g' = g := Except.ok.inj (hload'.symm.trans hload)
  exact hblocks.describes_comment (l := l.reset) (Cursor.in_start _) rfl hchars

/-- Delimiters that overlap.  A slash after `/*` closes nothing, a slash before `/*` does not keep
it from opening a comment, even where `//` is a token, and an asterisk before `*/` does not keep it
from closing one. -/
theorem block_comments_overlaps :
    (∃ g, Grammar.ofBytes operators.toBytes = .ok g ∧ ∃ l : Lexer,
      l = ({} : Lexer).load (.owned "/*/é//*1*/**/+1") ∧
      (l.scanToken g).1 = ⟨3, ⟨0, 14⟩, .first⟩ ∧ (l.scanToken g).2.cursor.offset = 14 ∧
      (l.scanToken g).2.groups = []) ∧
    ∃ g, Grammar.ofBytes comments.toBytes = .ok g ∧ ∃ l : Lexer,
      l = ({} : Lexer).load (.owned "/*//*é") ∧
      (l.scanToken g).1.symbol = g.eofSymbol ∧ (l.scanToken g).1.span = .empty 7 ∧
      (l.scanToken g).2.groups.length = 2 := by
  constructor
  · have hdraft : (operators, comment) ∈ [(operators, comment), (comments, blockComment)] := by simp
    obtain ⟨g, hload, -⟩ := exists_nestsBlocks hdraft
    have hcounts := block_comments hdraft hload
      (l := ({} : Lexer).load (.owned "/*/é//*1*/**/+1")) rfl
    exact ⟨g, hload, _, rfl, hcounts⟩
  · have hdraft : (comments, blockComment) ∈ [(operators, comment), (comments, blockComment)] := by
      simp
    obtain ⟨g, hload, -⟩ := exists_nestsBlocks hdraft
    have hcounts := block_comments hdraft hload (l := ({} : Lexer).load (.owned "/*//*é")) rfl
    obtain ⟨hsymbol, hspan, -, hdepth⟩ := hcounts
    exact ⟨g, hload, _, rfl, hsymbol, hspan, hdepth⟩

end Sample

end CompiledGrammar
