import CompiledGrammar.Proofs.Outline.Layout

/-!
# Outlines are read back

* `Outline.datum` is what an outline is written as, and `Outline.ofDatum?_datum` takes it back.
* `Outline.readAt?_of_layout` and `Outline.read?_of_layout` read every layout of an outline that
  does not go too deep, and refuse those that do.
* `Outline.layout_render` says that what is written is a layout.  So it is read back
  (`Outline.read?_of_write?`), and an outline that cannot be written because it goes too deep could
  not be read either (`Outline.read?_render`).
* `Outline.isPlain_of_write?`: all characters of what is written are printable, or end a line.
-/

namespace CompiledGrammar

open scoped Literal
open Literal (IsGap isGap_nil isGap_blanks)

namespace Outline

/-! ### Data of outlines -/

mutual

/-- What an outline is written as. -/
def datum : Outline → Datum
  | leaf symbol lexeme => .list [.text symbol, .text lexeme]
  | branch production children => .list [.text production, .list (data children)]

/-- What several outlines are written as. -/
def data : List Outline → List Datum
  | [] => []
  | o :: os => o.datum :: data os

end

mutual

theorem ofDatum?_datum : ∀ o : Outline, ofDatum? o.datum = some o
  | leaf _ _ => rfl
  | branch production children => by
    rw [datum, ofDatum?, ofData?_data children]
    rfl

theorem ofData?_data : ∀ os : List Outline, ofData? (data os) = some os
  | [] => rfl
  | o :: os => by
    rw [data, ofData?, ofDatum?_datum o, ofData?_data os]
    rfl

end

mutual

theorem nesting_datum : ∀ o : Outline, o.datum.nesting = o.nesting
  | leaf _ _ => rfl
  | branch production children => by
    simp only [datum, Datum.nesting, Datum.nestingAll, nesting, nestingAll_data children]
    omega

theorem nestingAll_data : ∀ os : List Outline, Datum.nestingAll (data os) = nestingAll os
  | [] => rfl
  | o :: os => by
    rw [data, Datum.nestingAll, nestingAll, nesting_datum o, nestingAll_data os]

end

variable {o : Outline} {cs : List Char}

/-- A layout of an outline is read, whatever comes after it, unless it goes too deep. -/
theorem readAt?_of_layout (h : Layout o.datum cs) (depth : Nat) (rest : List Char) :
    readAt? depth (cs ++ rest) = if o.nesting ≤ depth then some (o, rest) else none := by
  have hsteps : 2 * cs.length ≤ steps (cs ++ rest) := by
    rw [steps, List.length_append]
    omega
  rw [readAt?, h.readsDatum depth _ rest hsteps, nesting_datum]
  split
  · simp [ofDatum?_datum]
  · rfl

/-- **A text is read as the outline that is laid out in it, unless that goes too deep.** -/
theorem read?_of_layout {implicit : Bool} {heading gap : List Char}
    (hheading : Heading implicit heading) (h : Layout o.datum cs) (hgap : IsGap gap) :
    read? (String.ofList (heading ++ (cs ++ gap))) =
      if o.nesting ≤ nestingLimit then some o else none := by
  refine document?_of_heading hheading h.startsItem hgap fun rest => ?_
  rw [readAt?_of_layout h]
  split <;> rfl

/-! ### What is written -/

theorem isGap_space : IsGap [' '] := isGap_blanks (by decide)

theorem isGap_newline : IsGap ['\n'] := isGap_blanks (by decide)

theorem isGap_indent (depth : Nat) : IsGap (indent depth).toList := by
  refine isGap_blanks fun c hc => ?_
  rw [indent, String.toList_ofList] at hc
  rw [List.eq_of_mem_replicate hc]
  rfl

/-- Two data in round brackets. -/
theorem layout_pair {d d' : Datum} {cs' : List Char} (h : Layout d cs) (h' : Layout d' cs') :
    Layout (.list [d, d']) ('(' :: (cs ++ ',' :: ' ' :: (cs' ++ [')']))) := by
  have hsequence : Sequence ')' [(d, cs), (d', cs')] (cs ++ ',' :: ' ' :: (cs' ++ [')'])) :=
    .cons isGap_nil isGap_nil (.last isGap_space isGap_nil)
  have hne : cs ++ ',' :: ' ' :: (cs' ++ [')']) ≠ [')'] := by
    intro heq
    have := congrArg List.length heq
    simp at this
    omega
  exact Layout.round (by simp [h, h']) hsequence hne

theorem layout_empty : Layout (.list []) ['[', ']'] := by
  have hsequence : Sequence ']' ([] : List (Datum × List Char)) [']'] := .nil isGap_nil
  have hlayout := Layout.square (by simp) hsequence
  exact hlayout

mutual

theorem layout_render (depth : Nat) : ∀ o : Outline, Layout o.datum (o.render depth).toList
  | leaf symbol lexeme => by
    simpa [render, datum] using layout_pair (.text symbol) (.text lexeme)
  | branch production [] => by
    simpa [render, datum, data] using layout_pair (.text production) layout_empty
  | branch production (o :: os) => by
    obtain ⟨items, hdata, hitems, hsequence⟩ := sequence_renderAll (depth + 1) (o :: os)
      isGap_newline (isGap_indent depth)
    have hchildren := Layout.square hitems hsequence
    rw [hdata] at hchildren
    simpa [render, datum] using layout_pair (.text production) hchildren

/-- The lines of several outlines. -/
theorem sequence_renderAll (depth : Nat) : ∀ (os : List Outline) {gap gap' : List Char},
    IsGap gap → IsGap gap' →
    ∃ items : List (Datum × List Char), items.map Prod.fst = data os ∧
      (∀ item ∈ items, Layout item.1 item.2) ∧
      Sequence ']' items (gap ++ ((renderAll depth os).toList ++ (gap' ++ [']'])))
  | [], gap, gap', hgap, hgap' => by
    have hsequence : Sequence ']' ([] : List (Datum × List Char)) (gap ++ gap' ++ [']']) :=
      .nil (hgap.append hgap')
    exact ⟨[], rfl, by simp, by simpa [renderAll] using hsequence⟩
  | o :: os, gap, gap', hgap, hgap' => by
    obtain ⟨items, hdata, hitems, hsequence⟩ := sequence_renderAll depth os isGap_newline hgap'
    have hlayout := layout_render depth o
    have hlines : Sequence ']' ((o.datum, (o.render depth).toList) :: items)
        (gap ++ (indent depth).toList ++ ((o.render depth).toList ++
          ([] ++ ',' :: (['\n'] ++ ((renderAll depth os).toList ++ (gap' ++ [']'])))))) :=
      .cons (hgap.append (isGap_indent depth)) isGap_nil hsequence
    refine ⟨_, ?_, List.forall_mem_cons.2 ⟨hlayout, hitems⟩, by simpa [renderAll] using hlines⟩
    rw [List.map_cons, hdata, data]

end

/-- **An outline as it is written is read back, unless it goes too deep.** -/
theorem read?_render (o : Outline) :
    read? ("#![enable(" ++ implicitOptions ++ ")]\n" ++ o.render 0) =
      if o.nesting ≤ nestingLimit then some o else none := by
  have hheading : Heading true ("#![enable(" ++ implicitOptions ++ ")]\n").toList := by
    have hopening : ([([], "!"), ([], "["), ([], "enable"), ([], "(")] :
        List (List Char × String)).map Prod.snd = ["!", "[", "enable", "("] := rfl
    have hline := Heading.implicit hopening (by simp [isGap_nil]) isGap_nil isGap_nil isGap_nil
      isGap_nil isGap_newline
    simpa using hline
  have hread := read?_of_layout hheading (layout_render 0 o) isGap_nil
  rwa [List.append_nil, ← String.toList_append, String.ofList_toList] at hread

/-- **What is written is read back.** -/
theorem read?_of_write? {s : String} (h : o.write? = some s) : read? s = some o := by
  unfold write? at h
  split at h
  · rename_i hnesting
    cases h
    rw [read?_render, if_pos hnesting]
  · cases h

/-! ### Lines of printable characters -/

/-- There are no characters but printable ones and ends of lines. -/
def IsPlain (s : String) : Prop :=
  ∀ c ∈ s.toList, isPrintable c = true ∨ c = '\n'

theorem isPlain_append {s s' : String} : IsPlain (s ++ s') ↔ IsPlain s ∧ IsPlain s' := by
  simp only [IsPlain, String.toList_append, List.forall_mem_append]

theorem isPlain_of_ascii {s : String}
    (h : ∀ c ∈ s.toList, 0x20 ≤ c.toNat ∧ c.toNat < 0x7F ∨ c = '\n') : IsPlain s :=
  fun c hc => (h c hc).imp_left fun h => isPrintable_of_ascii h.1 h.2

theorem isPlain_quote (s : String) : IsPlain (Literal.quote s) :=
  fun _ hc => Or.inl (Literal.isPrintable_of_mem_quote hc)

theorem isPlain_indent (depth : Nat) : IsPlain (indent depth) := by
  refine isPlain_of_ascii fun c hc => ?_
  rw [indent, String.toList_ofList] at hc
  rw [List.eq_of_mem_replicate hc]
  decide

/-- The marks around and between texts. -/
theorem isPlain_mark : ∀ s ∈ ["(", ", ", ")", ", [])", ", [\n", "])", ",\n", ""], IsPlain s := by
  intro s hs
  refine isPlain_of_ascii ?_
  revert s
  decide

mutual

theorem isPlain_render (depth : Nat) : ∀ o : Outline, IsPlain (o.render depth)
  | leaf symbol lexeme => by
    simp [render, isPlain_append, isPlain_quote, isPlain_mark]
  | branch production [] => by
    simp [render, isPlain_append, isPlain_quote, isPlain_mark]
  | branch production (o :: os) => by
    have hlines := isPlain_renderAll (depth + 1) (o :: os)
    simp [render, isPlain_append, isPlain_quote, isPlain_indent, isPlain_mark, hlines]

theorem isPlain_renderAll (depth : Nat) : ∀ os : List Outline, IsPlain (renderAll depth os)
  | [] => isPlain_mark "" (by decide)
  | o :: os => by
    have hline := isPlain_render depth o
    have hlines := isPlain_renderAll depth os
    simp [renderAll, isPlain_append, isPlain_indent, isPlain_mark, hline, hlines]

end

/-- **What is written consists of lines of printable characters.** -/
theorem isPlain_of_write? {s : String} (h : o.write? = some s) : IsPlain s := by
  unfold write? at h
  split at h
  · cases h
    exact isPlain_append.2 ⟨isPlain_of_ascii (by decide), isPlain_render 0 o⟩
  · cases h

end Outline

end CompiledGrammar
