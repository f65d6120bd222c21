import CompiledGrammar.Outline.Literal
import Mathlib.Data.List.Basic

/-!
# What is skipped, and what is read back

* Blanks and comments are skipped, whatever comes after them (`IsGap`).  Comments may have anything
  in them that does not end them, and block comments may have others inside (`IsInside`).
* A text in quotes is read back, whatever comes after it (`text?_quote`): there is an escape for
  each character that cannot stand for itself (`spelling_escaped`).
* What is written in quotes is printable (`isPrintable_of_mem_quote`), and a text of ASCII
  characters that needs no escapes is written as it stands (`quote_of_ascii`).
-/

namespace CompiledGrammar

namespace Literal

/-- What holds of all characters in a list is decided by going through the list, and not through
all characters there are. -/
scoped instance decidableForallMem (p : Char → Prop) [DecidablePred p] (cs : List Char) :
    Decidable (∀ c ∈ cs, p c) :=
  List.decidableBAll p cs

/-! ### Gaps -/

/-- Blanks and comments, which are skipped whatever comes after them. -/
def IsGap (gap : List Char) : Prop :=
  ∀ rest, skipBlanks (gap ++ rest) = skipBlanks rest

/-- The inside of a block comment, which is skipped at any depth whatever comes after it. -/
def IsInside (body : List Char) : Prop :=
  ∀ depth rest, skipGap (.block depth) (body ++ rest) = skipGap (.block depth) rest

section

variable {gap gap' body body' cs rest : List Char} {c : Char}

theorem skipBlanks_nil : skipBlanks [] = some [] := rfl

theorem isGap_nil : IsGap [] := fun _ => rfl

theorem IsGap.append (h : IsGap gap) (h' : IsGap gap') : IsGap (gap ++ gap') := by
  intro rest
  rw [List.append_assoc, h, h']

theorem skipBlanks_cons (hslash : c ≠ '/') :
    skipBlanks (c :: cs) = if isBlank c then skipBlanks cs else some (c :: cs) := by
  unfold skipBlanks
  rw [skipGap]
  all_goals simp [hslash]

theorem isGap_blanks (h : ∀ c ∈ gap, isBlank c = true) : IsGap gap := by
  intro rest
  induction gap with
  | nil => rfl
  | cons c gap ih =>
    obtain ⟨hc, hgap⟩ := List.forall_mem_cons.1 h
    have hslash : c ≠ '/' := by
      rintro rfl
      cases hc
    rw [List.cons_append, skipBlanks_cons hslash, if_pos hc]
    exact ih hgap

/-- A comment up to the end of its line. -/
theorem isGap_line (h : '\n' ∉ body) : IsGap ("//".toList ++ body ++ ['\n']) := by
  intro rest
  have hline : skipGap .line (body ++ '\n' :: rest) = skipBlanks rest := by
    induction body with
    | nil => rfl
    | cons c body ih =>
      rw [List.mem_cons, not_or] at h
      rw [List.cons_append, skipGap, ih h.2]
      exact fun hc => h.1 hc.symm
  rw [List.append_assoc, List.append_assoc]
  exact hline

theorem IsInside.append (h : IsInside body) (h' : IsInside body') : IsInside (body ++ body') := by
  intro depth rest
  rw [List.append_assoc, h, h']

/-- Anything without asterisks and slashes may be in a block comment. -/
theorem isInside_of_forall (h : ∀ c ∈ body, c ≠ '*' ∧ c ≠ '/') : IsInside body := by
  intro depth rest
  induction body with
  | nil => rfl
  | cons c body ih =>
    obtain ⟨hc, hbody⟩ := List.forall_mem_cons.1 h
    rw [List.cons_append, skipGap]
    · exact ih hbody
    all_goals simp [hc]

/-- So may another block comment. -/
theorem IsInside.nested (h : IsInside body) : IsInside ("/*".toList ++ body ++ "*/".toList) := by
  intro depth rest
  rw [List.append_assoc, List.append_assoc]
  cases depth <;> exact h _ ("*/".toList ++ rest)

/-- A block comment. -/
theorem isGap_block (h : IsInside body) : IsGap ("/*".toList ++ body ++ "*/".toList) := by
  intro rest
  rw [List.append_assoc, List.append_assoc]
  exact h 0 ("*/".toList ++ rest)

/-- A gap goes up to a character that is no blank and starts no comment. -/
theorem skipBlanks_of_solid (hblank : isBlank c = false) (hslash : c ≠ '/') :
    skipBlanks (c :: cs) = some (c :: cs) := by
  rw [skipBlanks_cons hslash, hblank]
  rfl

/-- The marks between the parts of what is read. -/
def marks : List Char := ['(', ')', ']', ':', ',', '#']

theorem skipBlanks_mark (h : c ∈ marks) : skipBlanks (c :: cs) = some (c :: cs) := by
  refine skipBlanks_of_solid ?_ ?_ <;> (revert c; decide)

/-- Behind a gap there is nothing to skip. -/
theorem skipBlanks_idem (h : skipBlanks cs = some rest) : skipBlanks rest = some rest := by
  unfold skipBlanks at h
  generalize Gap.blanks = gap at h
  fun_induction skipGap gap cs <;> grind [skipBlanks_of_solid, skipBlanks_nil]

theorem IsGap.head (h : IsGap (c :: gap)) : isBlank c = true ∨ c = '/' := by
  by_contra hnot
  rw [not_or, Bool.not_eq_true] at hnot
  have hskip := h []
  rw [List.cons_append, skipBlanks_of_solid hnot.1 hnot.2] at hskip
  cases hskip

end

/-! ### Words and names -/

theorem word?_append (w : String) (cs : List Char) : word? w (w.toList ++ cs) = some cs := by
  have hprefix : w.toList.isPrefixOf (w.toList ++ cs) = true :=
    List.isPrefixOf_iff_prefix.2 (List.prefix_append _ _)
  rw [word?, if_pos hprefix, ← String.length_toList, List.drop_left]

/-- A name that is written as it is. -/
inductive IsName : List Char → Prop
  /-- Its first character, and those after it. -/
  | mk {c : Char} {cs : List Char} :
      isNameStart c = true → (∀ d ∈ cs, isNameRest d = true) → IsName (c :: cs)

instance (cs : List Char) : Decidable (IsName cs) :=
  match cs with
  | [] => isFalse nofun
  | c :: cs =>
    if h : isNameStart c = true ∧ ∀ d ∈ cs, isNameRest d = true then isTrue (.mk h.1 h.2)
    else isFalse fun ⟨hc, hcs⟩ => h ⟨hc, hcs⟩

/-- The marks that may come behind a name. -/
def nameMarks : List Char := ['(', ')', ':']

section

variable {name gap : List Char} {mark : Char}

/-- No part of a name, no quote and no number sign follows. -/
theorem exists_stop (hgap : IsGap gap) (hmark : mark ∈ nameMarks) (rest : List Char) :
    ∃ d tail, gap ++ mark :: rest = d :: tail ∧ isNameRest d = false ∧ d ≠ '"' ∧ d ≠ '#' := by
  cases gap with
  | nil =>
    refine ⟨mark, rest, rfl, ?_⟩
    revert mark
    decide
  | cons d gap =>
    refine ⟨d, gap ++ mark :: rest, rfl, ?_⟩
    rcases hgap.head with hd | rfl
    · simp only [isBlank, Bool.or_eq_true, beq_iff_eq] at hd
      rcases hd with ((rfl | rfl) | rfl) | rfl <;> decide
    · decide

theorem markedName?_append (hname : IsName name) (hgap : IsGap gap) (hmark : mark ∈ nameMarks)
    (rest : List Char) :
    markedName? (name ++ (gap ++ mark :: rest)) = none ∧
      startsText (name ++ (gap ++ mark :: rest)) = false := by
  obtain ⟨d, tail, heq, -, hquote, hsign⟩ := exists_stop hgap hmark rest
  rw [heq]
  obtain ⟨hc, hcs⟩ := hname
  rename_i c cs
  have hc' : c ≠ '"' := by
    rintro rfl
    cases hc
  cases cs with
  | nil =>
    unfold markedName? startsText
    grind
  | cons e cs =>
    have he := hcs e List.mem_cons_self
    have he' : e ≠ '"' ∧ e ≠ '#' := by
      constructor <;> (rintro rfl; cases he)
    unfold markedName? startsText
    grind

/-- A name ends where a gap or a mark follows. -/
theorem plainName?_append (hname : IsName name) (hgap : IsGap gap) (hmark : mark ∈ nameMarks)
    (rest : List Char) :
    plainName? (name ++ (gap ++ mark :: rest)) =
      some (String.ofList name, gap ++ mark :: rest) := by
  obtain ⟨d, tail, heq, hd, -, -⟩ := exists_stop hgap hmark rest
  rw [heq]
  obtain ⟨hc, hcs⟩ := hname
  rw [List.cons_append, plainName?, if_pos hc, List.takeWhile_append_of_pos hcs,
    List.dropWhile_append_of_pos hcs, List.takeWhile_cons_of_neg (by simp [hd]),
    List.dropWhile_cons_of_neg (by simp [hd]), List.append_nil]

theorem name?_append (hname : IsName name) (hgap : IsGap gap) (hmark : mark ∈ nameMarks)
    (rest : List Char) :
    name? (name ++ (gap ++ mark :: rest)) = some (String.ofList name, gap ++ mark :: rest) := by
  rw [name?, (markedName?_append hname hgap hmark rest).1, Option.none_or,
    plainName?_append hname hgap hmark rest]

end

/-! ### Hexadecimal numbers -/

theorem hexDigit?_digitChar : ∀ n < 16, hexDigit? n.digitChar = some n := by
  decide

theorem hexNumber?_append_singleton (ds : List Char) (d : Char) :
    hexNumber? (ds ++ [d]) =
      (hexNumber? ds).bind fun n => (hexDigit? d).map (n * 16 + ·) := by
  simp [hexNumber?, List.foldlM_append]

theorem hexNumber?_toDigits (n : Nat) : hexNumber? (Nat.toDigits 16 n) = some n := by
  induction n using Nat.strongRecOn with
  | ind n ih =>
    rw [Nat.toDigits_eq_if (by decide)]
    split
    · rename_i hlt
      simp [hexNumber?, hexDigit?_digitChar n hlt]
    · rw [hexNumber?_append_singleton, ih (n / 16) (by omega),
        hexDigit?_digitChar _ (Nat.mod_lt n (by decide))]
      simp [Nat.div_add_mod']

theorem mem_toDigits {n : Nat} {c : Char} (h : c ∈ Nat.toDigits 16 n) :
    c ∈ "0123456789abcdef".toList := by
  have hdigit : ∀ d < 16, d.digitChar ∈ "0123456789abcdef".toList := by decide
  induction n using Nat.strongRecOn with
  | ind n ih =>
    rw [Nat.toDigits_eq_if (by decide)] at h
    split at h
    · rename_i hlt
      exact List.mem_singleton.1 h ▸ hdigit n hlt
    · rcases List.mem_append.1 h with h | h
      · exact ih (n / 16) (by omega) h
      · exact List.mem_singleton.1 h ▸ hdigit _ (Nat.mod_lt n (by decide))

/-! ### Texts -/

section

variable {s : String} {c : Char} {rest : List Char}

theorem escape?_hexadecimal (c : Char) (rest : List Char) :
    escape? ('u' :: '\x7b' :: (Nat.toDigits 16 c.toNat ++ '\x7d' :: rest)) = some (c, rest) := by
  have hclosing : ∀ d ∈ "0123456789abcdef".toList, (d != '\x7d') = true := by decide
  have hopen : ∀ d ∈ Nat.toDigits 16 c.toNat, (d != '\x7d') = true :=
    fun d hd => hclosing d (mem_toDigits hd)
  have htake : (Nat.toDigits 16 c.toNat ++ '\x7d' :: rest).takeWhile (· != '\x7d') =
      Nat.toDigits 16 c.toNat := by
    rw [List.takeWhile_append_of_pos hopen, List.takeWhile_cons_of_neg (by simp), List.append_nil]
  have hvalid : c.toNat.isValidChar := c.valid
  have hlength : (Nat.toDigits 16 c.toNat).length ≤ 6 := by
    rw [Nat.length_toDigits_le_iff (by decide) (by decide)]
    unfold Nat.isValidChar at hvalid
    omega
  have hpos : 1 ≤ (Nat.toDigits 16 c.toNat).length := Nat.length_toDigits_pos
  unfold escape?
  simp only [htake, hpos, hlength, and_self, ↓reduceIte, hexNumber?_toDigits, List.drop_left,
    mark?, Option.bind_eq_bind, Option.bind_some, hvalid, Char.ofNat_toNat]
  rfl

/-- The characters that escapes are made of. -/
def escapeCharacters : List Char := "\"'\\nrt0u\x7b\x7d0123456789abcdef".toList

theorem isPrintable_of_mem_escapeCharacters (h : c ∈ escapeCharacters) : isPrintable c = true :=
  isPrintable_of_ascii (by revert c; decide) (by revert c; decide)

/-- What a character is written as in quotes. -/
inductive Spelling (c : Char) : List Char → Prop
  /-- It stands for itself. -/
  | plain : isPrintable c = true → c ≠ '"' → c ≠ '\\' → Spelling c [c]
  /-- It is read from an escape, whatever comes after it. -/
  | escape {cs : List Char} :
      (∀ d ∈ cs, d ∈ escapeCharacters) → (∀ rest, escape? (cs ++ rest) = some (c, rest)) →
      Spelling c ('\\' :: cs)

theorem spelling_escaped (c : Char) : Spelling c (escaped c) := by
  unfold escaped
  split
  · rename_i h
    rcases h with rfl | rfl | rfl <;> exact .escape (by decide) fun _ => rfl
  rename_i h
  rw [not_or, not_or] at h
  iterate 4
    split
    · subst c
      exact .escape (by decide) fun _ => rfl
  split
  · rename_i hprintable
    exact .plain hprintable h.1 h.2.2
  · refine .escape (fun d hd => ?_) fun rest => by simpa using escape?_hexadecimal c rest
    have hsigns : ∀ d ∈ ['u', '\x7b', '\x7d'], d ∈ escapeCharacters := by decide
    have hdigits : ∀ d ∈ "0123456789abcdef".toList, d ∈ escapeCharacters := by decide
    rcases List.mem_append.1 hd with hd | hd
    · rcases List.mem_append.1 hd with hd | hd
      · exact hsigns d (List.mem_append_left ['\x7d'] hd)
      · exact hdigits d (mem_toDigits hd)
    · exact hsigns d (List.mem_append_right ['u', '\x7b'] hd)

theorem quoted?_escaped (c : Char) (rest : List Char) :
    quoted? (escaped c ++ rest) = (quoted? rest).map fun (text, rest) => (c :: text, rest) := by
  have hspelling := spelling_escaped c
  generalize escaped c = cs at hspelling ⊢
  cases hspelling with
  | plain _ hquote hslash =>
    rw [List.singleton_append, quoted?]
    · exact hquote
    · exact hslash
  | escape _ hread =>
    rw [List.cons_append, quoted?]
    split
    · rename_i hnone
      rw [hread] at hnone
      cases hnone
    · rename_i d rest' hsome
      rw [hread] at hsome
      cases hsome
      rfl

theorem quoted?_flatMap_escaped (cs rest : List Char) :
    quoted? (cs.flatMap escaped ++ '"' :: rest) = some (cs, rest) := by
  induction cs with
  | nil => rw [List.flatMap_nil, List.nil_append, quoted?]
  | cons c cs ih =>
    rw [List.flatMap_cons, List.append_assoc, quoted?_escaped, ih]
    rfl

/-- **A text in quotes is read back, whatever comes after it.** -/
theorem text?_quote (s : String) (rest : List Char) :
    text? ((quote s).toList ++ rest) = some (s, rest) := by
  have hquote : (quote s).toList ++ rest = '"' :: (s.toList.flatMap escaped ++ '"' :: rest) := by
    simp [quote]
  rw [hquote, text?, quoted?_flatMap_escaped]
  simp

theorem startsText_quote (s : String) (rest : List Char) :
    startsText ((quote s).toList ++ rest) = true := by
  simp [quote, startsText]

/-! ### What is written -/

theorem isPrintable_of_mem_escaped {d : Char} (h : d ∈ escaped c) : isPrintable d = true := by
  have hspelling := spelling_escaped c
  generalize escaped c = cs at h hspelling
  cases hspelling with
  | plain hprintable => rwa [List.mem_singleton.1 h]
  | escape hcs =>
    rcases List.mem_cons.1 h with rfl | hd
    · exact isPrintable_of_mem_escapeCharacters (by decide)
    · exact isPrintable_of_mem_escapeCharacters (hcs d hd)

/-- **What is written in quotes is printable.** -/
theorem isPrintable_of_mem_quote (h : c ∈ (quote s).toList) : isPrintable c = true := by
  rw [quote, String.toList_ofList, List.cons_append, List.mem_cons, List.mem_append,
    List.mem_flatMap, List.mem_singleton] at h
  rcases h with rfl | ⟨d, -, hd⟩ | rfl
  · exact isPrintable_of_mem_escapeCharacters (by decide)
  · exact isPrintable_of_mem_escaped hd
  · exact isPrintable_of_mem_escapeCharacters (by decide)

/-- Printable ASCII characters other than quotes and backslashes are written as they are. -/
theorem quote_of_ascii
    (h : ∀ c ∈ s.toList, 0x20 ≤ c.toNat ∧ c.toNat < 0x7F ∧ c ∉ ['"', '\'', '\\']) :
    quote s = "\"" ++ s ++ "\"" := by
  have hself : ∀ c ∈ s.toList, escaped c = [c] := by
    intro c hc
    obtain ⟨hge, hlt, hmem⟩ := h c hc
    have hne : ∀ d : Char, d.toNat < 0x20 → c ≠ d := by
      rintro d hd rfl
      omega
    rw [escaped, if_neg (by simpa using hmem), if_neg (hne _ (by decide)),
      if_neg (hne _ (by decide)), if_neg (hne _ (by decide)), if_neg (hne _ (by decide)),
      if_pos (isPrintable_of_ascii hge hlt)]
  rw [← String.toList_inj, quote, String.toList_ofList, List.flatMap_congr hself]
  simp

end

end Literal

end CompiledGrammar
