import CompiledGrammar.Outline.Basic
import CompiledGrammar.Proofs.Outline.Literal

/-!
# Layouts of data

What is read may be laid out in many ways: there may be gaps around all parts, any brackets may go
around a sequence, round ones may have a name before them, and there may be a comma behind the last
item.

* `Sequence` is a sequence of items up to its closing bracket, and `Outline.Layout` a datum.
* `Outline.Layout.readsDatum` reads a layout, whatever comes after it, if it does not go too deep,
  and refuses it otherwise.
* `Outline.document?_of_heading` reads a whole text: its content, with the attribute before it or
  without (`Outline.Heading`).
-/

namespace CompiledGrammar

open scoped Literal
open Literal (IsGap IsName)

/-! ### Sequences -/

/-- The brackets that close a sequence. -/
def closingMarks : List Char := [')', ']']

/-- The characters start as a text, a sequence or a name does. -/
def startsItem (cs : List Char) : Bool :=
  cs.head?.any fun c => c == '"' || c == '(' || c == '[' || Literal.isNameStart c

/-- Items, each with its characters, are laid out one after the other up to the closing bracket. -/
inductive Sequence {α : Type} (closing : Char) : List (α × List Char) → List Char → Prop
  /-- There are none. -/
  | nil {gap : List Char} : IsGap gap → Sequence closing [] (gap ++ [closing])
  /-- Behind the last one there is no comma. -/
  | last {item : α × List Char} {gap gap' : List Char} : IsGap gap → IsGap gap' →
      Sequence closing [item] (gap ++ (item.2 ++ (gap' ++ [closing])))
  /-- Behind one there is a comma. -/
  | cons {item : α × List Char} {items : List (α × List Char)} {gap gap' cs : List Char} :
      IsGap gap → IsGap gap' → Sequence closing items cs →
      Sequence closing (item :: items) (gap ++ (item.2 ++ (gap' ++ ',' :: cs)))

section

variable {α : Type} {closing c : Char} {gap cs rest : List Char} {items : List (α × List Char)}

theorem exists_of_startsItem (h : startsItem cs = true) :
    ∃ c tail, cs = c :: tail ∧ Literal.isBlank c = false ∧ c ≠ '/' ∧ c ∉ closingMarks ∧
      c ≠ '#' := by
  cases cs with
  | nil => cases h
  | cons c tail =>
    have hother : ∀ d ∈ " \n\t\r/)]#".toList, startsItem [d] = false := by decide
    have hne : ∀ d ∈ [' ', '\n', '\t', '\r', '/', ')', ']', '#'], c ≠ d := by
      rintro d hd rfl
      exact Bool.false_ne_true ((hother c hd).symm.trans h)
    simp only [List.forall_mem_cons] at hne
    refine ⟨c, tail, rfl, ?_⟩
    simp [Literal.isBlank, closingMarks, hne]

theorem startsItem_name {name : List Char} (h : IsName name) (rest : List Char) :
    startsItem (name ++ rest) = true := by
  obtain ⟨hc, -⟩ := h
  simp [startsItem, hc]

theorem skipBlanks_closing (hclosing : closing ∈ closingMarks) :
    Literal.skipBlanks (closing :: rest) = some (closing :: rest) := by
  refine Literal.skipBlanks_mark ?_
  revert closing
  decide

theorem skipBlanks_item (h : startsItem cs = true) :
    Literal.skipBlanks (cs ++ rest) = some (cs ++ rest) := by
  obtain ⟨c, tail, rfl, hblank, hslash, -, -⟩ := exists_of_startsItem h
  exact Literal.skipBlanks_of_solid hblank hslash

theorem mark?_closing_item (hclosing : closing ∈ closingMarks) (h : startsItem cs = true) :
    Literal.mark? closing (cs ++ rest) = none := by
  obtain ⟨c, tail, rfl, -, -, hc, -⟩ := exists_of_startsItem h
  refine if_neg ?_
  rintro rfl
  exact hc hclosing

theorem comma?_comma {cs' : List Char} (hgap : IsGap gap) (hcs : Literal.skipBlanks cs = some cs') :
    Literal.comma? (gap ++ ',' :: cs) = some (true, cs') := by
  have hcomma : Literal.skipBlanks (',' :: cs) = some (',' :: cs) :=
    Literal.skipBlanks_mark (by decide)
  simp [Literal.comma?, hgap (',' :: cs), hcomma, Literal.mark?, hcs]

theorem comma?_closing (hgap : IsGap gap) (hclosing : closing ∈ closingMarks) :
    Literal.comma? (gap ++ closing :: rest) = some (false, closing :: rest) := by
  have hmark : Literal.mark? ',' (closing :: rest) = none := by
    refine if_neg ?_
    revert closing
    decide
  simp [Literal.comma?, hgap (closing :: rest), skipBlanks_closing hclosing, hmark]

theorem Sequence.exists_skipBlanks (h : Sequence closing items cs)
    (hclosing : closing ∈ closingMarks) (hitems : ∀ item ∈ items, startsItem item.2 = true)
    (rest : List Char) : ∃ cs', Literal.skipBlanks (cs ++ rest) = some cs' := by
  cases h with
  | nil hgap =>
    rw [List.append_assoc, hgap]
    exact ⟨_, skipBlanks_closing hclosing⟩
  | last hgap | cons hgap =>
    rw [List.append_assoc, hgap, List.append_assoc]
    exact ⟨_, skipBlanks_item (hitems _ List.mem_cons_self)⟩

theorem Sequence.length_le (h : Sequence closing items cs) : items.length ≤ cs.length := by
  induction h with
  | nil => exact Nat.zero_le _
  | last | cons =>
    simp only [List.length_append, List.length_cons, List.length_nil] at *
    omega

/-- A sequence in round brackets has something before the closing one unless it has nothing. -/
theorem Sequence.head?_append_ne (h : Sequence ')' items cs)
    (hitems : ∀ item ∈ items, startsItem item.2 = true) (hne : cs ≠ [')']) (rest : List Char) :
    (cs ++ rest).head? ≠ some ')' := by
  intro hhead
  obtain ⟨tail, htail⟩ := List.head?_eq_some_iff.1 hhead
  have hskip : Literal.skipBlanks (cs ++ rest) = some (')' :: tail) := by
    rw [htail, skipBlanks_closing (by decide)]
  cases h with
  | nil hgap =>
    rw [List.append_assoc, hgap, List.singleton_append, skipBlanks_closing (by decide)] at hskip
    cases hskip
    exact hne (List.append_cancel_right htail)
  | @last item gap _ hgap | @cons item _ gap _ _ hgap =>
    rw [List.append_assoc, hgap, List.append_assoc,
      skipBlanks_item (hitems item List.mem_cons_self)] at hskip
    obtain ⟨c, tail', hc, -, -, hmem, -⟩ := exists_of_startsItem (hitems item List.mem_cons_self)
    rw [hc] at hskip
    cases hskip
    exact hmem (by decide)

end

namespace Outline

/-! ### Data -/

mutual

/-- How deep a datum goes. -/
def Datum.nesting : Datum → Nat
  | .text _ => 0
  | .list items => 1 + nestingAll items

/-- How deep the items of a list go. -/
def Datum.nestingAll : List Datum → Nat
  | [] => 0
  | d :: ds => max (1 + d.nesting) (nestingAll ds)

end

/-- The characters are a layout of a datum: a text in quotes, or a sequence in brackets, which may
have a name if they are round ones.  Between round brackets there has to be something. -/
inductive Layout : Datum → List Char → Prop
  /-- A text. -/
  | text (s : String) : Layout (.text s) (Literal.quote s).toList
  /-- A sequence in square brackets. -/
  | square {items : List (Datum × List Char)} {cs : List Char} :
      (∀ item ∈ items, Layout item.1 item.2) → Sequence ']' items cs →
      Layout (.list (items.map Prod.fst)) ('[' :: cs)
  /-- A sequence in round brackets. -/
  | round {items : List (Datum × List Char)} {cs : List Char} :
      (∀ item ∈ items, Layout item.1 item.2) → Sequence ')' items cs → cs ≠ [')'] →
      Layout (.list (items.map Prod.fst)) ('(' :: cs)
  /-- A sequence with a name. -/
  | named {name gap : List Char} {items : List (Datum × List Char)} {cs : List Char} :
      IsName name → String.ofList name ∉ reservedNames → IsGap gap →
      (∀ item ∈ items, Layout item.1 item.2) → Sequence ')' items cs →
      Layout (.list (items.map Prod.fst)) (name ++ (gap ++ '(' :: cs))

section

variable {d : Datum} {closing : Char} {cs : List Char} {items : List (Datum × List Char)}

theorem Layout.startsItem (h : Layout d cs) : startsItem cs = true := by
  cases h with
  | text s => simp [CompiledGrammar.startsItem, Literal.quote]
  | square | round => rfl
  | named hname => exact startsItem_name hname _

/-- Items are read whether or not the gap before them has been skipped. -/
theorem items?_of_skipBlanks {cs' : List Char} (h : Literal.skipBlanks cs = some cs')
    (depth n : Nat) (hadComma : Bool) :
    items? depth closing hadComma n cs' = items? depth closing hadComma n cs := by
  cases n with
  | zero => rfl
  | succ n => rw [items?, items?, h, Literal.skipBlanks_idem h]

theorem items?_closing (hclosing : closing ∈ closingMarks) (depth n : Nat) (hadComma : Bool)
    {gap : List Char} (hgap : IsGap gap) (rest : List Char) :
    items? depth closing hadComma (n + 1) (gap ++ closing :: rest) = some ([], rest) := by
  simp [items?, hgap (closing :: rest), skipBlanks_closing hclosing, Literal.mark?]

/-- The characters are read as the datum, whatever comes after them, unless it goes too deep.  Two
steps for each of them are enough. -/
def ReadsDatum (d : Datum) (cs : List Char) : Prop :=
  ∀ depth n rest, 2 * cs.length ≤ n →
    datum? depth n (cs ++ rest) = if d.nesting ≤ depth then some (d, rest) else none

/-- An item is read first, and then what is behind it. -/
theorem items?_item (hclosing : closing ∈ closingMarks) {item : Datum × List Char}
    (hitem : ReadsDatum item.1 item.2) (hstart : CompiledGrammar.startsItem item.2 = true)
    {gap : List Char} (hgap : IsGap gap) (depth : Nat) {n : Nat} (hn : 2 * item.2.length ≤ n)
    (rest : List Char) :
    items? depth closing true (n + 1) (gap ++ (item.2 ++ rest)) =
      if 1 + item.1.nesting ≤ depth then do
        let (hasComma, rest) ← Literal.comma? rest
        let (items, rest) ← items? depth closing hasComma n rest
        return (item.1 :: items, rest)
      else none := by
  rw [items?, hgap, skipBlanks_item hstart]
  simp only [Option.bind_eq_bind, Option.bind_some, mark?_closing_item hclosing hstart, true_and,
    hitem (depth - 1) n rest hn]
  by_cases hdepth : 1 + item.1.nesting ≤ depth
  · rw [if_pos (by omega), if_pos (by omega), if_pos hdepth]
    rfl
  · rw [if_neg hdepth]
    split
    · rw [if_neg (by omega)]
      rfl
    · rfl

/-- The items of a sequence are read if each of them is. -/
theorem items?_of_sequence (h : Sequence closing items cs) (hclosing : closing ∈ closingMarks)
    (hstart : ∀ item ∈ items, CompiledGrammar.startsItem item.2 = true)
    (hitems : ∀ item ∈ items, ReadsDatum item.1 item.2) (depth n : Nat) (rest : List Char)
    (hn : 2 * cs.length ≤ n) :
    items? depth closing true n (cs ++ rest) =
      if Datum.nestingAll (items.map Prod.fst) ≤ depth then some (items.map Prod.fst, rest)
      else none := by
  induction h generalizing n with
  | nil hgap =>
    simp only [List.length_append, List.length_singleton] at hn
    obtain ⟨n, rfl⟩ : ∃ m, n = m + 1 := ⟨n - 1, by omega⟩
    rw [List.append_assoc]
    exact items?_closing hclosing depth n true hgap rest
  | @last item gap gap' hgap hgap' =>
    simp only [List.length_append, List.length_singleton] at hn
    obtain ⟨n, rfl⟩ : ∃ m, n = m + 2 := ⟨n - 2, by omega⟩
    have hmem : item ∈ [item] := List.mem_cons_self
    have hclose : items? depth closing false (n + 1) (closing :: rest) = some ([], rest) :=
      items?_closing hclosing depth n false Literal.isGap_nil rest
    simp only [List.append_assoc, List.singleton_append]
    rw [items?_item hclosing (hitems item hmem) (hstart item hmem) hgap depth (by omega),
      comma?_closing hgap' hclosing]
    simp [hclose, Datum.nestingAll]
  | @cons item items gap gap' cs hgap hgap' hcs ih =>
    obtain ⟨hstart, hstarts⟩ := List.forall_mem_cons.1 hstart
    obtain ⟨hitem, hitems⟩ := List.forall_mem_cons.1 hitems
    simp only [List.length_append, List.length_cons] at hn
    obtain ⟨n, rfl⟩ : ∃ m, n = m + 1 := ⟨n - 1, by omega⟩
    -- the gap behind the comma is skipped twice
    obtain ⟨cs', hskip⟩ := hcs.exists_skipBlanks hclosing hstarts rest
    simp only [List.append_assoc, List.cons_append]
    rw [items?_item hclosing hitem hstart hgap depth (by omega), comma?_comma hgap' hskip]
    simp only [Option.bind_eq_bind, Option.bind_some, items?_of_skipBlanks hskip,
      ih hstarts hitems n (by omega), List.map_cons, Datum.nestingAll, Nat.max_le]
    grind

/-- A sequence is read after its opening bracket if its items are. -/
theorem list?_of_sequence (h : Sequence closing items cs) (hclosing : closing ∈ closingMarks)
    (hlayout : ∀ item ∈ items, Layout item.1 item.2)
    (hitems : ∀ item ∈ items, ReadsDatum item.1 item.2) (depth n : Nat) (rest : List Char)
    (hn : 2 * cs.length ≤ n) :
    list? depth closing (n + 1) (cs ++ rest) =
      if (Datum.list (items.map Prod.fst)).nesting ≤ depth then
        some (.list (items.map Prod.fst), rest)
      else none := by
  cases depth with
  | zero => simp [list?, Datum.nesting]
  | succ depth =>
    have hread := items?_of_sequence h hclosing (fun item h => (hlayout item h).startsItem) hitems
      depth n rest hn
    simp only [list?, hread, Datum.nesting, Nat.add_comm 1, Nat.add_le_add_iff_right]
    split <;> rfl

theorem datum?_text (s : String) (depth n : Nat) (rest : List Char) :
    datum? depth (n + 1) ((Literal.quote s).toList ++ rest) = some (.text s, rest) := by
  unfold datum?
  rw [if_pos (Literal.startsText_quote s rest), Literal.text?_quote]
  rfl

theorem datum?_square (depth n : Nat) (cs : List Char) :
    datum? depth (n + 1) ('[' :: cs) = list? depth ']' n cs := rfl

theorem datum?_round (h : cs.head? ≠ some ')') (depth n : Nat) :
    datum? depth (n + 1) ('(' :: cs) = list? depth ')' n cs := by
  have hclosing : ∀ tail, cs = ')' :: tail → False := by
    rintro tail rfl
    exact h rfl
  rw [datum?, if_neg (by simp [Literal.startsText])]
  exact hclosing

/-- A name is read before an opening bracket. -/
theorem datum?_named {name gap : List Char} (hname : IsName name)
    (hreserved : String.ofList name ∉ reservedNames) (hgap : IsGap gap) (depth n : Nat)
    (cs : List Char) :
    datum? depth (n + 1) (name ++ (gap ++ '(' :: cs)) = list? depth ')' n cs := by
  have hmark : '(' ∈ Literal.nameMarks := by decide
  have hname? := Literal.name?_append hname hgap hmark cs
  have htext := (Literal.markedName?_append hname hgap hmark cs).2
  have hstarts : startsReserved (name ++ (gap ++ '(' :: cs)) = false := by
    rw [startsReserved, Literal.plainName?_append hname hgap hmark]
    simpa using hreserved
  have hblanks : Literal.skipBlanks ('(' :: cs) = some ('(' :: cs) :=
    Literal.skipBlanks_mark (by decide)
  have hne : ∀ mark tail, name ++ (gap ++ '(' :: cs) = mark :: tail →
      Literal.isNameStart mark = true := by
    obtain ⟨hc, -⟩ := hname
    intro mark tail htail
    cases htail
    exact hc
  rw [datum?, if_neg (by rw [htext]; decide), if_neg (by rw [hstarts]; decide)]
  · simp [hname?, hgap ('(' :: cs), hblanks, Literal.mark?]
  all_goals
    intro tail htail
    cases hne _ _ htail

/-- **A layout is read back, whatever comes after it, unless it goes too deep.** -/
theorem Layout.readsDatum (h : Layout d cs) : ReadsDatum d cs := by
  -- an opening bracket pays for the two steps to the items
  induction h with
  | text s =>
    intro depth n rest hn
    obtain ⟨n, rfl⟩ : ∃ m, n = m + 1 := ⟨n - 1, by simp [Literal.quote] at hn; omega⟩
    rw [datum?_text, Datum.nesting, if_pos (Nat.zero_le depth)]
  | @square items cs hitems hcs ih =>
    intro depth n rest hn
    rw [List.length_cons] at hn
    obtain ⟨n, rfl⟩ : ∃ m, n = m + 2 := ⟨n - 2, by omega⟩
    rw [List.cons_append, datum?_square]
    exact list?_of_sequence hcs (by decide) hitems ih depth n rest (by omega)
  | @round items cs hitems hcs hne ih =>
    intro depth n rest hn
    rw [List.length_cons] at hn
    obtain ⟨n, rfl⟩ : ∃ m, n = m + 2 := ⟨n - 2, by omega⟩
    have hhead := hcs.head?_append_ne (fun item h => (hitems item h).startsItem) hne rest
    rw [List.cons_append, datum?_round hhead]
    exact list?_of_sequence hcs (by decide) hitems ih depth n rest (by omega)
  | @named name gap items cs hname hreserved hgap hitems hcs ih =>
    intro depth n rest hn
    simp only [List.length_append, List.length_cons] at hn
    obtain ⟨n, rfl⟩ : ∃ m, n = m + 2 := ⟨n - 2, by omega⟩
    simp only [List.append_assoc, List.cons_append]
    rw [datum?_named hname hreserved hgap]
    exact list?_of_sequence hcs (by decide) hitems ih depth n rest (by omega)

end

/-! ### Attributes -/

section

open Literal

/-- Words that are no gaps are read one after the other, with what is to be skipped behind each. -/
theorem exists_foldlM_word? (words : List (List Char × String)) (hwords : ∀ w ∈ words,
      IsGap w.1 ∧ w.2.toList.head?.any (fun c => !isBlank c && c != '/') = true)
    {cs cs' : List Char} (hcs : skipBlanks cs = some cs') :
    ∃ mid, skipBlanks (words.flatMap (fun w => w.1 ++ w.2.toList) ++ cs) = some mid ∧
      (words.map Prod.snd).foldlM (fun cs w => (word? w cs).bind skipBlanks) mid = some cs' := by
  induction words with
  | nil => exact ⟨cs', hcs, rfl⟩
  | cons w words ih =>
    obtain ⟨⟨hgap, hword⟩, hwords⟩ := List.forall_mem_cons.1 hwords
    obtain ⟨mid, hmid, hfold⟩ := ih hwords
    have hsolid : ∀ rest, skipBlanks (w.2.toList ++ rest) = some (w.2.toList ++ rest) := by
      intro rest
      cases hw : w.2.toList with
      | nil =>
        rw [hw] at hword
        cases hword
      | cons c tail =>
        have hc : isBlank c = false ∧ c ≠ '/' := by
          simpa [hw] using hword
        exact skipBlanks_of_solid hc.1 hc.2
    rw [List.flatMap_cons, List.append_assoc, List.append_assoc, hgap, hsolid]
    refine ⟨_, rfl, ?_⟩
    rw [List.map_cons, List.foldlM_cons, word?_append, Option.bind_some, hmid]
    exact hfold

theorem attributeNames?_implicit {gap : List Char} (hgap : IsGap gap) (n : Nat) (cs : List Char) :
    attributeNames? (n + 1) (implicitOptions.toList ++ (gap ++ ')' :: cs)) =
      some ([implicitOptions], ')' :: cs) := by
  rw [attributeNames?, name?_append (by decide) hgap (by decide), String.ofList_toList]
  simp only [Option.bind_eq_bind, Option.bind_some]
  rw [if_pos (by decide), comma?_closing hgap (by decide)]
  rfl

/-- The attribute is read, with gaps in it or without. -/
theorem attribute?_implicit {opening : List (List Char × String)} {gap gap' gap'' : List Char}
    (hopening : opening.map Prod.snd = ["!", "[", "enable", "("])
    (hgaps : ∀ w ∈ opening, IsGap w.1) (hgap : IsGap gap) (hgap' : IsGap gap')
    (hgap'' : IsGap gap'') {cs cs' : List Char} (hcs : skipBlanks cs = some cs') :
    attribute? (opening.flatMap (fun w => w.1 ++ w.2.toList) ++
      (gap ++ (implicitOptions.toList ++ (gap' ++ ')' :: (gap'' ++ ']' :: cs))))) =
      some ([implicitOptions], cs') := by
  have hname : startsItem implicitOptions.toList = true := by decide
  have hstart : skipBlanks (gap ++ (implicitOptions.toList ++
      (gap' ++ ')' :: (gap'' ++ ']' :: cs)))) = some _ :=
    (hgap _).trans (skipBlanks_item hname)
  have hopenings : ∀ w ∈ opening, IsGap w.1 ∧
      w.2.toList.head?.any (fun c => !isBlank c && c != '/') = true := by
    refine fun w hw => ⟨hgaps w hw, ?_⟩
    have hmem := hopening ▸ List.mem_map_of_mem (f := Prod.snd) hw
    generalize w.2 = s at hmem ⊢
    revert s
    decide
  obtain ⟨mid, hmid, hopen⟩ := exists_foldlM_word? opening hopenings hstart
  obtain ⟨mid', hmid', hclose⟩ := exists_foldlM_word? [([], ")"), (gap'', "]")]
    (by simp [isGap_nil, hgap'']; decide) hcs
  rw [hopening] at hopen
  have hclosing : skipBlanks (')' :: (gap'' ++ ']' :: cs)) = some mid' := by
    simpa using hmid'
  unfold attribute?
  simp only [Option.bind_eq_bind, hmid, hopen, Option.bind_some, attributeNames?_implicit hgap',
    hclosing]
  rw [show [")", "]"].foldlM (fun cs w => (word? w cs).bind skipBlanks) mid' = some cs' from hclose]
  rfl

/-- What may come before the content of a text: a gap, or a line with the attribute. -/
inductive Heading : Bool → List Char → Prop
  /-- Optional values have a wrapper. -/
  | plain {gap : List Char} : IsGap gap → Heading false gap
  /-- The attribute says that they may go without. -/
  | implicit {opening : List (List Char × String)} {gap gap' gap'' start stop : List Char} :
      opening.map Prod.snd = ["!", "[", "enable", "("] → (∀ w ∈ opening, IsGap w.1) →
      IsGap gap → IsGap gap' → IsGap gap'' → IsGap start → IsGap stop →
      Heading true (start ++ '#' :: (opening.flatMap (fun w => w.1 ++ w.2.toList) ++
        (gap ++ (implicitOptions.toList ++ (gap' ++ ')' :: (gap'' ++ ']' :: stop))))))

theorem attributes?_of_item {gap cs : List Char} (hgap : IsGap gap)
    (hstart : startsItem cs = true) (n : Nat) (rest : List Char) :
    attributes? (n + 1) (gap ++ (cs ++ rest)) = some ([], cs ++ rest) := by
  rw [attributes?, hgap, skipBlanks_item hstart]
  obtain ⟨c, tail, rfl, -, -, -, hsign⟩ := exists_of_startsItem hstart
  simp only [Option.bind_eq_bind, Option.bind_some]
  split
  · rename_i heq
    cases heq
    exact absurd rfl hsign
  · rfl

theorem attributes?_of_heading {implicit : Bool} {heading cs : List Char}
    (h : Heading implicit heading) (hstart : startsItem cs = true) (rest : List Char) :
    ∃ names, names.contains implicitOptions = implicit ∧ ∀ n, heading.length ≤ n →
      attributes? (n + 1) (heading ++ (cs ++ rest)) = some (names, cs ++ rest) := by
  cases h with
  | plain hgap => exact ⟨[], rfl, fun n _ => attributes?_of_item hgap hstart n rest⟩
  | @implicit opening gap gap' gap'' start stop hopening hgaps hgap hgap' hgap'' hfirst hlast =>
    refine ⟨[implicitOptions], by decide, fun n hn => ?_⟩
    obtain ⟨n, rfl⟩ : ∃ m, n = m + 1 := ⟨n - 1, by simp at hn; omega⟩
    have hattribute := attribute?_implicit hopening hgaps hgap hgap' hgap''
      ((hlast (cs ++ rest)).trans (skipBlanks_item hstart))
    have hsign (tail : List Char) : skipBlanks ('#' :: tail) = some ('#' :: tail) :=
      skipBlanks_mark (by decide)
    have hnone : attributes? (n + 1) (cs ++ rest) = some ([], cs ++ rest) :=
      attributes?_of_item isGap_nil hstart n rest
    simp only [List.append_assoc, List.cons_append]
    rw [attributes?, hfirst, hsign]
    simp only [Option.bind_eq_bind, Option.bind_some, hattribute, hnone]
    rfl

/-- **A text is read if its content is, whatever comes after that.** -/
theorem document?_of_heading {α : Type} {content? : Bool → List Char → Option (α × List Char)}
    {implicit : Bool} {heading cs gap : List Char} {result : Option α}
    (hheading : Heading implicit heading) (hstart : startsItem cs = true) (hgap : IsGap gap)
    (hcontent : ∀ rest, content? implicit (cs ++ rest) = result.map fun a => (a, rest)) :
    document? content? (String.ofList (heading ++ (cs ++ gap))) = result := by
  obtain ⟨names, hnames, hattributes⟩ := attributes?_of_heading hheading hstart gap
  have hend : skipBlanks gap = some [] := by
    simpa [skipBlanks_nil] using hgap []
  rw [document?, String.toList_ofList]
  simp only [hattributes _ (by simp : heading.length ≤ (heading ++ (cs ++ gap)).length),
    Option.bind_eq_bind, Option.bind_some, hnames, hcontent]
  cases result with
  | none => rfl
  | some a => simp [hend]

end

end Outline

end CompiledGrammar
