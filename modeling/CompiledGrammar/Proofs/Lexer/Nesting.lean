import CompiledGrammar.Proofs.Lexer.Reachable
import Mathlib.Data.List.Chain

/-!
# Open groups are nested

The open groups of a lexer are a stack.  A match can push a group that it starts, if the innermost
group lets that group nest, it can pop the innermost group if it is of the symbol that ends it, and
it can leave the stack alone (`Lexer.Changes`).

* `Lexer.WellNested` says what the stack is like: each group may nest in the one around it, starts
  after it, and starts where a match of its start symbol is.
* A step keeps that up (`Lexer.WellNested.scanStep`), so it holds of every reachable lexer, inside
  of a scan as well as after it.  The groups that are left open when the input ends are what the
  next scan begins with.

`Lexer.groups_nested` puts these together, with the token that leaves groups open.
-/

namespace CompiledGrammar

namespace OpenGroup

/-- A group may nest in the group around it, and starts after it. -/
structure Inside (inner outer : OpenGroup) : Prop where
  nests : outer.group.nests inner.group.index = true
  start : outer.start < inner.start

/-- Where the group was opened, a match of its start symbol begins. -/
def Begins (g : Grammar) (input : Buffer) (o : OpenGroup) : Prop :=
  ∃ c : Cursor, c.In input.chars ∧ c.offset = o.start ∧ c.position = o.position ∧
    (g.nextMatch c.rest).1 = o.group.startSymbol

end OpenGroup

namespace Lexer

/-- All that a match can do to the open groups. -/
inductive Changes (token : Token) : List OpenGroup → List OpenGroup → Prop where
  /-- It leaves them alone. -/
  | stays (groups : List OpenGroup) : Changes token groups groups
  /-- It opens a group that starts with it. -/
  | opens {o : OpenGroup} (groups : List OpenGroup) :
      o.group.startSymbol = token.symbol → o.start = token.span.start →
      o.position = token.position → Changes token groups (o :: groups)
  /-- It closes the innermost group, which ends with it. -/
  | closes {o : OpenGroup} (groups : List OpenGroup) :
      o.group.endSymbol = token.symbol → Changes token (o :: groups) groups

/-- The open groups are nested, and each was opened by its start symbol. -/
structure WellNested (g : Grammar) (l : Lexer) : Prop where
  fits : l.Fits g
  nested : l.groups.IsChain OpenGroup.Inside
  begins : ∀ o ∈ l.groups, o.Begins g l.buffer

variable {g : Grammar} {l : Lexer} {token : Token} {group : Group}

/-! ### What opens a group -/

theorem startSymbol_of_opens? (h : l.opens? g token = some group) :
    group.startSymbol = token.symbol := by
  unfold opens? at h
  split at h
  · obtain ⟨hstarted, -⟩ := Option.filter_eq_some_iff.1 h
    simpa using List.find?_some hstarted
  · cases h

theorem nests_of_opens? (h : l.opens? g token = some group) {top : OpenGroup}
    {outer : List OpenGroup} (hgroups : l.groups = top :: outer) :
    top.group.nests group.index = true := by
  unfold opens? at h
  split at h
  · obtain ⟨-, hnests⟩ := Option.filter_eq_some_iff.1 h
    rwa [hgroups] at hnests
  · cases h

/-! ### Steps -/

/-- A step changes the open groups in one of the three ways. -/
theorem changes_scanStep : Changes (l.peek g).1 l.groups (l.scanStep g).next.groups := by
  have hscans := scans_scanStep (g := g) (l := l)
  generalize l.scanStep g = step at hscans
  cases hscans with
  | opens hopens => exact .opens _ (startSymbol_of_opens? hopens) rfl rfl
  | single => exact .stays _
  | closes hgroups hclose =>
    rw [hgroups]
    exact .closes _ hclose
  | leaves hgroups _ hclose =>
    rw [hgroups]
    exact .closes _ hclose
  | ends => exact .stays _
  | skips => exact .stays _

namespace WellNested

theorem reset (g : Grammar) (l : Lexer) : l.reset.WellNested g :=
  ⟨.reset g l, .nil, nofun⟩

/-- Some of the groups, from the outermost on, are nested as well, wherever the cursor has come
to. -/
theorem shrink (h : l.WellNested g) {next : Lexer} (hfits : next.Fits g)
    (hbuffer : next.buffer = l.buffer) (hsuffix : next.groups <:+ l.groups) :
    next.WellNested g where
  fits := hfits
  nested := h.nested.suffix hsuffix
  begins o ho := hbuffer ▸ h.begins o (hsuffix.subset ho)

/-- **A step keeps the open groups nested.** -/
theorem scanStep (hg : g.WellFormed) (h : l.WellNested g) : (l.scanStep g).next.WellNested g := by
  have hfits := (h.fits.scanStep hg).next
  have hbuffer := buffer_scanStep (g := g) (l := l)
  have hscans := scans_scanStep (g := g) (l := l)
  generalize l.scanStep g = step at hfits hbuffer hscans
  cases hscans with
  | @opens group hopens =>
    refine ⟨hfits, ?_, List.forall_mem_cons.2 ⟨?_, h.begins⟩⟩
    · refine List.isChain_cons.2 ⟨fun top htop => ?_, h.nested⟩
      obtain ⟨outer, hgroups⟩ := List.head?_eq_some_iff.1 htop
      exact ⟨nests_of_opens? hopens hgroups, (h.fits.groups top (by simp [hgroups])).before⟩
    · exact ⟨l.cursor, h.fits.cursor, rfl, rfl, (startSymbol_of_opens? hopens).symm⟩
  | single => exact h.shrink hfits hbuffer (List.suffix_refl _)
  | closes => exact h.shrink hfits hbuffer List.nil_suffix
  | leaves hgroups =>
    refine h.shrink hfits hbuffer ?_
    rw [hgroups]
    exact List.suffix_cons _ _
  | ends => exact h
  | skips => exact h.shrink hfits hbuffer (List.suffix_refl _)

end WellNested

theorem Reachable.wellNested (hg : g.WellFormed) {lineTerminator : UInt8}
    (h : l.Reachable g lineTerminator) : l.WellNested g := by
  induction h with
  | new => exact .reset g { lineTerminator }
  | @load l input _ _ => exact .reset g { l with buffer := input }
  | @reset l _ _ => exact .reset g l
  | scanStep _ ih => exact ih.scanStep hg

/-- **The open groups are nested** at all times.  Each is of the grammar, may nest in the one around
it and starts after it, before the cursor, where a match of its start symbol begins.  A match closes
no group but the innermost one, and only if it is of the symbol that ends it.  A token that leaves
groups open is the end of the input. -/
theorem groups_nested (hg : g.Loaded) {lineTerminator : UInt8} (h : l.Reachable g lineTerminator) :
    l.groups.IsChain OpenGroup.Inside ∧
    (∀ o ∈ l.groups, g.groups[o.group.index]? = some o.group ∧ o.start < l.cursor.offset ∧
      o.Begins g l.buffer) ∧
    Changes (l.peek g).1 l.groups (l.scanStep g).next.groups ∧
    ((l.scanToken g).2.groups ≠ [] →
      g.hasKind (l.scanToken g).1.symbol .endOfFile = true) := by
  have hnested := h.wellNested hg.wellFormed
  refine ⟨hnested.nested, fun o ho => ?_, changes_scanStep, fun hopen => ?_⟩
  · have hfits := hnested.fits.groups o ho
    exact ⟨hfits.group, hfits.before, hnested.begins o ho⟩
  · cases hnested.fits.gives_scanToken hg.wellFormed with
    | piece _ _ hclosed => exact absurd hclosed hopen
    | ends hkind _ _ => exact hkind

set_option maxRecDepth 10000 in
/-- Two block comments have been opened, and only the inner one is closed before the input ends: the
match at the cursor closes it and leaves the outer one open. -/
theorem groups_nested_unclosed :
    ∃ g, Grammar.ofBytes Sample.comments.toBytes = .ok g ∧ ∃ l : Lexer,
      l = (((({} : Lexer).load (.owned "/*/**/")).scanStep g).next.scanStep g).next ∧
      l.groups.map (·.start) = [2, 0] ∧ l.groups.IsChain OpenGroup.Inside ∧
      Changes (l.peek g).1 l.groups (l.scanStep g).next.groups ∧
      (l.scanToken g).2.groups.map (·.start) = [0] ∧
      g.hasKind (l.scanToken g).1.symbol .endOfFile = true := by
  generalize hstart : ({} : Lexer).load (.owned "/*/**/") = start
  have hcheck : Grammar.loadsWith Sample.comments.toBytes (fun g =>
      let l := ((start.scanStep g).next.scanStep g).next
      l.groups.map (·.start) == [2, 0] &&
        (l.scanToken g).2.groups.map (·.start) == [0]) = true := by
    rw [← hstart]
    decide +kernel
  obtain ⟨g, hload, hg⟩ := Grammar.exists_of_loadsWith hcheck
  simp only [Bool.and_eq_true, beq_iff_eq] at hg
  obtain ⟨hopened, hleft⟩ := hg
  have hreachable : ((start.scanStep g).next.scanStep g).next.Reachable g defaultLineTerminator :=
    hstart ▸ (Reachable.new.load _).scanStep.scanStep
  generalize hl : ((start.scanStep g).next.scanStep g).next = l at hopened hleft hreachable
  obtain ⟨hnested, -, hchanges, hends⟩ := groups_nested (.ofBytes hload) hreachable
  refine ⟨g, hload, l, hl.symm, hopened, hnested, hchanges, hleft, hends fun hnil => ?_⟩
  rw [hnil] at hleft
  cases hleft

end Lexer

end CompiledGrammar
