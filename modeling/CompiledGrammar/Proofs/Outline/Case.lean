import CompiledGrammar.Outline.Case
import CompiledGrammar.Proofs.Outline.RoundTrip

/-!
# Cases are read

A case has its input and, if it says so, its tree or its errors, in either order and with gaps
between all of its parts (`Case.Layout`).

* `Case.option?_of_layout` reads an optional value: nothing, one with a wrapper, or a bare one where
  that is allowed.
* `Case.sequence?_of_sequence` reads items that are read one by one.
* `Case.readAll?_of_layout` reads a list of cases, and all cases whose trees do not go too deep can
  be laid out (`Case.exists_readAll?`).
* `Case.shouldPass_of_read?`: the name of a case tells what it should come to.
-/

namespace CompiledGrammar

open scoped Literal
open Literal (IsGap IsName)

namespace Case

variable {α : Type} {closing : Char} {cs : List Char} {items : List (α × List Char)}

/-! ### Layouts -/

/-- A list in square brackets. -/
inductive ListLayout (ofItem : α → List Char → Prop) : List α → List Char → Prop
  /-- Items up to the closing bracket. -/
  | mk {items : List (α × List Char)} {cs : List Char} :
      (∀ item ∈ items, ofItem item.1 item.2) → Sequence ']' items cs →
      ListLayout ofItem (items.map Prod.fst) ('[' :: cs)

/-- An optional value. -/
inductive OptionLayout (ofValue : α → List Char → Prop) : Bool → Option α → List Char → Prop
  /-- There is none. -/
  | none {implicit : Bool} : OptionLayout ofValue implicit none "None".toList
  /-- It has a wrapper. -/
  | some {implicit : Bool} {a : α} {cs cs' gap : List Char} :
      ofValue a cs → IsGap gap → Sequence ')' [(a, cs)] cs' →
      OptionLayout ofValue implicit (some a) ("Some".toList ++ (gap ++ '(' :: cs'))
  /-- It is in brackets, and goes without a wrapper. -/
  | bare {a : α} {cs : List Char} : ofValue a cs → cs.head? = some '(' ∨ cs.head? = some '[' →
      OptionLayout ofValue true (some a) cs

/-- A tree that does not go too deep. -/
def TreeLayout (o : Outline) (cs : List Char) : Prop :=
  Outline.Layout o.datum cs ∧ o.nesting ≤ treeLimit

/-- A text in quotes. -/
def TextLayout (s : String) (cs : List Char) : Prop :=
  cs = (Literal.quote s).toList

/-- A field of a case of the kind named. -/
inductive FieldLayout (implicit : Bool) (kind : String) : Field → List Char → Prop
  /-- The input. -/
  | input {s : String} {gap gap' cs : List Char} : IsGap gap → IsGap gap' → TextLayout s cs →
      FieldLayout implicit kind (.input s) ("input".toList ++ (gap ++ ':' :: (gap' ++ cs)))
  /-- The tree of an input that is accepted. -/
  | tree {tree : Option Outline} {gap gap' cs : List Char} : kind = "TestSuccess" →
      IsGap gap → IsGap gap' → OptionLayout TreeLayout implicit tree cs →
      FieldLayout implicit kind (.outcome (.success tree))
        ("tree".toList ++ (gap ++ ':' :: (gap' ++ cs)))
  /-- The errors of an input that is refused. -/
  | errors {errors : Option (List String)} {gap gap' cs : List Char} : kind = "TestError" →
      IsGap gap → IsGap gap' → OptionLayout (ListLayout TextLayout) implicit errors cs →
      FieldLayout implicit kind (.outcome (.failure errors))
        ("errors".toList ++ (gap ++ ':' :: (gap' ++ cs)))

/-- A case: its name, and its fields in brackets. -/
inductive Layout (implicit : Bool) : Case → List Char → Prop
  /-- What is not said is left open. -/
  | mk {kind : String} {unsaid : Expectation} {c : Case} {fields : List (Field × List Char)}
      {gap cs : List Char} :
      openOutcome? kind = some unsaid → ofFields? unsaid (fields.map Prod.fst) = some c →
      (∀ field ∈ fields, FieldLayout implicit kind field.1 field.2) → IsGap gap →
      Sequence ')' fields cs → Layout implicit c (kind.toList ++ (gap ++ '(' :: cs))

/-! ### Reading -/

/-- The characters start as an item does, and are read whatever comes after them. -/
structure ReadsItem (item? : List Char → Option (α × List Char)) (a : α) (cs : List Char) :
    Prop where
  start : startsItem cs = true
  read : ∀ rest, item? (cs ++ rest) = some (a, rest)

theorem sequence?_of_skipBlanks {item? : List Char → Option (α × List Char)} {cs' : List Char}
    (h : Literal.skipBlanks cs = some cs') (hadComma : Bool) (n : Nat) :
    sequence? item? closing hadComma n cs' = sequence? item? closing hadComma n cs := by
  cases n with
  | zero => rfl
  | succ n => rw [sequence?, sequence?, h, Literal.skipBlanks_idem h]

theorem sequence?_closing (hclosing : closing ∈ closingMarks)
    (item? : List Char → Option (α × List Char)) (hadComma : Bool) (n : Nat) {gap : List Char}
    (hgap : IsGap gap) (rest : List Char) :
    sequence? item? closing hadComma (n + 1) (gap ++ closing :: rest) = some ([], rest) := by
  simp [sequence?, hgap (closing :: rest), skipBlanks_closing hclosing, Literal.mark?]

/-- An item is read first, and then what is behind it. -/
theorem sequence?_item (hclosing : closing ∈ closingMarks)
    {item? : List Char → Option (α × List Char)} {item : α × List Char}
    (hitem : ReadsItem item? item.1 item.2) {gap : List Char} (hgap : IsGap gap) (n : Nat)
    (rest : List Char) :
    sequence? item? closing true (n + 1) (gap ++ (item.2 ++ rest)) = do
      let (hasComma, rest) ← Literal.comma? rest
      let (items, rest) ← sequence? item? closing hasComma n rest
      return (item.1 :: items, rest) := by
  rw [sequence?, hgap, skipBlanks_item hitem.start]
  simp [mark?_closing_item hclosing hitem.start, hitem.read]

/-- Items are read if each of them is. -/
theorem sequence?_of_sequence {item? : List Char → Option (α × List Char)}
    (h : Sequence closing items cs) (hclosing : closing ∈ closingMarks)
    (hitems : ∀ item ∈ items, ReadsItem item? item.1 item.2)
    {n : Nat} (hn : items.length < n) (rest : List Char) :
    sequence? item? closing true n (cs ++ rest) = some (items.map Prod.fst, rest) := by
  induction h generalizing n with
  | nil hgap =>
    obtain ⟨n, rfl⟩ : ∃ m, n = m + 1 := ⟨n - 1, by omega⟩
    rw [List.append_assoc]
    exact sequence?_closing hclosing item? true n hgap rest
  | @last item gap gap' hgap hgap' =>
    rw [List.length_singleton] at hn
    obtain ⟨n, rfl⟩ : ∃ m, n = m + 2 := ⟨n - 2, by omega⟩
    have hclose : sequence? item? closing false (n + 1) (closing :: rest) = some ([], rest) :=
      sequence?_closing hclosing item? false n Literal.isGap_nil rest
    simp only [List.append_assoc, List.singleton_append]
    rw [sequence?_item hclosing (hitems item List.mem_cons_self) hgap,
      comma?_closing hgap' hclosing]
    simp [hclose]
  | @cons item items gap gap' cs hgap hgap' hcs ih =>
    obtain ⟨hitem, hitems⟩ := List.forall_mem_cons.1 hitems
    obtain ⟨n, rfl⟩ : ∃ m, n = m + 1 := ⟨n - 1, by omega⟩
    rw [List.length_cons, Nat.add_lt_add_iff_right] at hn
    obtain ⟨cs', hskip⟩ :=
      hcs.exists_skipBlanks hclosing (fun item h => (hitems item h).start) rest
    simp only [List.append_assoc, List.cons_append]
    rw [sequence?_item hclosing hitem hgap, comma?_comma hgap' hskip]
    simp [sequence?_of_skipBlanks hskip, ih hitems hn]

section

variable {read? : List Char → Option (α × List Char)} {layout : α → List Char → Prop}
  {implicit : Bool}

/-- A list is read if its items are. -/
theorem list?_of_layout (hread : ∀ a cs, layout a cs → ReadsItem read? a cs) {as : List α}
    (h : ListLayout layout as cs) : ReadsItem (list? read?) as cs := by
  obtain ⟨hitems, hcs⟩ := h
  rename_i items cs
  refine ⟨rfl, fun rest => ?_⟩
  have hlength : items.length < (cs ++ rest).length + 1 := by
    have := hcs.length_le
    rw [List.length_append]
    omega
  rw [list?, List.cons_append, Literal.mark?, if_pos rfl]
  exact sequence?_of_sequence hcs (by decide) (fun item h => hread _ _ (hitems item h)) hlength rest

/-- A value is read in the brackets of its wrapper. -/
theorem some?_of_sequence {a : α} (hread : ReadsItem read? a cs) {cs' gap : List Char}
    (hgap : IsGap gap) (h : Sequence ')' [(a, cs)] cs') (rest : List Char) :
    some? implicit read? (gap ++ '(' :: (cs' ++ rest)) = some (a, rest) := by
  have hopen (tail : List Char) : Literal.skipBlanks ('(' :: tail) = some ('(' :: tail) :=
    Literal.skipBlanks_mark (by decide)
  rw [some?, hgap, hopen]
  cases h with
  | last hgap hgap' =>
    simp [Literal.mark?, hgap (cs ++ _), skipBlanks_item hread.start, hread.read,
      comma?_closing hgap' (by decide : ')' ∈ closingMarks)]
  | cons hgap hgap' hcs =>
    obtain ⟨hclosing⟩ := hcs
    have hmark : Literal.skipBlanks (')' :: rest) = some (')' :: rest) :=
      skipBlanks_closing (by decide)
    have hskip := (hclosing _).trans hmark
    simp [Literal.mark?, hgap (cs ++ _), skipBlanks_item hread.start, hread.read,
      comma?_comma hgap' hskip]

/-- An optional value is read if its value is. -/
theorem option?_of_layout (hread : ∀ a cs, layout a cs → ReadsItem read? a cs) {a : Option α}
    (h : OptionLayout layout implicit a cs) : ReadsItem (option? implicit read?) a cs := by
  cases h with
  | none => exact ⟨rfl, fun rest => by rw [option?, Literal.word?_append]⟩
  | @some _ a cs cs' gap hlayout hgap hcs =>
    refine ⟨rfl, fun rest => ?_⟩
    have hnone : Literal.word? "None" ("Some".toList ++ (gap ++ '(' :: (cs' ++ rest))) = none := rfl
    rw [List.append_assoc, List.append_assoc, List.cons_append, option?, hnone,
      Literal.word?_append]
    dsimp only
    rw [some?_of_sequence (hread a cs hlayout) hgap hcs]
    rfl
  | bare hlayout hhead =>
    obtain ⟨hstart, hread⟩ := hread _ _ hlayout
    refine ⟨hstart, fun rest => ?_⟩
    have hnone : Literal.word? "None" (cs ++ rest) = none ∧
        Literal.word? "Some" (cs ++ rest) = none := by
      rcases hhead with hhead | hhead
      all_goals
        obtain ⟨tail, rfl⟩ := List.head?_eq_some_iff.1 hhead
        exact ⟨rfl, rfl⟩
    rw [option?, hnone.1, hnone.2]
    simp [hread]

end

variable {implicit : Bool}

theorem reads_tree {o : Outline} (h : TreeLayout o cs) :
    ReadsItem (Outline.readAt? treeLimit) o cs :=
  ⟨h.1.startsItem, fun rest => by rw [Outline.readAt?_of_layout h.1, if_pos h.2]⟩

theorem reads_text {s : String} (h : TextLayout s cs) : ReadsItem Literal.text? s cs := by
  subst h
  exact ⟨(Outline.Layout.text s).startsItem, Literal.text?_quote s⟩

/-- What is behind the colon of a field is read as its name says. -/
theorem field?_name {kind name : String} (hname : IsName name.toList) {gap gap' : List Char}
    (hgap : IsGap gap) (hgap' : IsGap gap') (hstart : startsItem cs = true) (rest : List Char) :
    field? implicit kind (name.toList ++ (gap ++ ':' :: (gap' ++ cs)) ++ rest) =
      if name = "input" then
        (Literal.text? (cs ++ rest)).map fun (s, rest) => (.input s, rest)
      else
        (outcome? implicit kind name (cs ++ rest)).map fun (e, rest) => (.outcome e, rest) := by
  have hcolon (tail : List Char) : Literal.skipBlanks (':' :: tail) = some (':' :: tail) :=
    Literal.skipBlanks_mark (by decide)
  simp only [List.append_assoc, List.cons_append]
  rw [field?, Literal.name?_append hname hgap (by decide), String.ofList_toList]
  simp only [Option.bind_eq_bind, Option.bind_some, hgap (':' :: _), hcolon, Literal.mark?,
    ↓reduceIte, hgap' (cs ++ _), skipBlanks_item hstart]
  split <;> exact Option.map_eq_bind.symm

theorem reads_field {kind : String} {field : Field} (h : FieldLayout implicit kind field cs) :
    ReadsItem (field? implicit kind) field cs := by
  cases h with
  | input hgap hgap' htext =>
    have hread := reads_text htext
    refine ⟨startsItem_name (by decide) _, fun rest => ?_⟩
    rw [field?_name (by decide) hgap hgap' hread.start, if_pos rfl, hread.read]
    rfl
  | tree hkind hgap hgap' hlayout =>
    have hread := option?_of_layout (fun _ _ => reads_tree) hlayout
    refine ⟨startsItem_name (by decide) _, fun rest => ?_⟩
    rw [field?_name (by decide) hgap hgap' hread.start, if_neg (by decide), outcome?,
      if_pos ⟨hkind, rfl⟩, hread.read]
    rfl
  | errors hkind hgap hgap' hlayout =>
    have hread := option?_of_layout
      (fun _ _ => list?_of_layout fun _ _ => reads_text) hlayout
    refine ⟨startsItem_name (by decide) _, fun rest => ?_⟩
    rw [field?_name (by decide) hgap hgap' hread.start, if_neg (by decide), outcome?,
      if_neg (by rw [hkind]; decide), if_pos ⟨hkind, rfl⟩, hread.read]
    rfl

theorem isName_of_openOutcome? {kind : String} {unsaid : Expectation}
    (h : openOutcome? kind = some unsaid) : IsName kind.toList := by
  unfold openOutcome? at h
  split at h
  · rename_i hkind
    rw [hkind]
    decide
  · split at h
    · rename_i hkind
      rw [hkind]
      decide
    · cases h

/-- A case has at most two fields. -/
theorem length_lt_of_ofFields? {unsaid : Expectation} {fields : List Field} {c : Case}
    (h : ofFields? unsaid fields = some c) : fields.length < 3 := by
  unfold ofFields? at h
  split at h
  case h_4 => cases h
  all_goals simp

theorem reads_case {c : Case} (h : Layout implicit c cs) : ReadsItem (read? implicit) c cs := by
  obtain ⟨hkind, hfields, hlayout, hgap, hcs⟩ := h
  rename_i kind unsaid fields gap cs
  have hname := isName_of_openOutcome? hkind
  have hlength : fields.length < 3 := by
    rw [← List.length_map Prod.fst]
    exact length_lt_of_ofFields? hfields
  have hopen (tail : List Char) : Literal.skipBlanks ('(' :: tail) = some ('(' :: tail) :=
    Literal.skipBlanks_mark (by decide)
  refine ⟨startsItem_name hname _, fun rest => ?_⟩
  simp only [List.append_assoc, List.cons_append]
  rw [read?, Literal.name?_append hname hgap (by decide), String.ofList_toList]
  simp only [Option.bind_eq_bind, Option.bind_some, hkind, hgap ('(' :: _), hopen, Literal.mark?,
    ↓reduceIte, sequence?_of_sequence hcs (by decide)
      (fun field h => reads_field (hlayout field h)) hlength, hfields]
  rfl

/-- **A list of cases is read, with whatever gaps there are.** -/
theorem readAll?_of_layout {heading gap : List Char} {cases : List Case}
    (hheading : Outline.Heading implicit heading) (h : ListLayout (Layout implicit) cases cs)
    (hgap : IsGap gap) : readAll? (String.ofList (heading ++ (cs ++ gap))) = some cases := by
  have hread := list?_of_layout (fun _ _ => reads_case) h
  exact Outline.document?_of_heading hheading hread.start hgap fun rest => hread.read rest

/-! ### Every case has a layout -/

theorem exists_sequence (closing : Char) : ∀ items : List (α × List Char),
    ∃ cs, Sequence closing items cs
  | [] => ⟨_, .nil Literal.isGap_nil⟩
  | _ :: items =>
    have ⟨_, hcs⟩ := exists_sequence closing items
    ⟨_, .cons Literal.isGap_nil Literal.isGap_nil hcs⟩

theorem exists_optionLayout {layout : α → List Char → Prop} {a : Option α}
    (h : ∀ b, a = some b → ∃ cs, layout b cs) : ∃ cs, OptionLayout layout implicit a cs := by
  cases a with
  | none => exact ⟨_, .none⟩
  | some a =>
    obtain ⟨cs, hcs⟩ := h a rfl
    obtain ⟨cs', hcs'⟩ := exists_sequence ')' [(a, cs)]
    exact ⟨_, .some hcs Literal.isGap_nil hcs'⟩

theorem exists_listLayout {layout : α → List Char → Prop} {as : List α}
    (h : ∀ a ∈ as, ∃ cs, layout a cs) : ∃ cs, ListLayout layout as cs := by
  have hitems : ∃ items : List (α × List Char), items.map Prod.fst = as ∧
      ∀ item ∈ items, layout item.1 item.2 := by
    induction as with
    | nil => exact ⟨[], rfl, by simp⟩
    | cons a as ih =>
      obtain ⟨⟨cs, hcs⟩, has⟩ := List.forall_mem_cons.1 h
      obtain ⟨items, hmap, hitems⟩ := ih has
      exact ⟨(a, cs) :: items, congrArg (a :: ·) hmap, List.forall_mem_cons.2 ⟨hcs, hitems⟩⟩
  obtain ⟨items, rfl, hitems⟩ := hitems
  obtain ⟨cs, hcs⟩ := exists_sequence ']' items
  exact ⟨_, .mk hitems hcs⟩

/-- The tree of a case, if it has one, does not go too deep. -/
def IsShallow (c : Case) : Prop :=
  ∀ o, c.expectation = .success (some o) → o.nesting ≤ treeLimit

theorem exists_layout_of_outcome {kind : String} {unsaid e : Expectation}
    (hkind : openOutcome? kind = some unsaid) (h : FieldLayout implicit kind (.outcome e) cs)
    (input : String) : ∃ cs', Layout implicit ⟨input, e⟩ cs' := by
  obtain ⟨first, hinput⟩ : ∃ first, FieldLayout implicit kind (.input input) first :=
    ⟨_, .input Literal.isGap_nil Literal.isGap_nil rfl⟩
  obtain ⟨cs', hcs'⟩ := exists_sequence ')' [(Field.input input, first), (.outcome e, cs)]
  exact ⟨_, .mk hkind rfl (by simp [hinput, h]) Literal.isGap_nil hcs'⟩

theorem exists_layout {c : Case} (h : c.IsShallow) : ∃ cs, Layout implicit c cs := by
  obtain ⟨input, expectation⟩ := c
  cases expectation with
  | success tree =>
    obtain ⟨cs, htree⟩ : ∃ cs, OptionLayout TreeLayout implicit tree cs :=
      exists_optionLayout fun o ho => ⟨_, Outline.layout_render 0 o, h o (by rw [ho])⟩
    exact exists_layout_of_outcome rfl
      (.tree rfl Literal.isGap_nil Literal.isGap_nil htree) input
  | failure errors =>
    obtain ⟨cs, herrors⟩ : ∃ cs, OptionLayout (ListLayout TextLayout) implicit errors cs :=
      exists_optionLayout fun _ _ => exists_listLayout fun _ _ => ⟨_, rfl⟩
    exact exists_layout_of_outcome rfl
      (.errors rfl Literal.isGap_nil Literal.isGap_nil herrors) input

/-- **Any cases whose trees do not go too deep can be written so that they are read.** -/
theorem exists_readAll? {cases : List Case} (h : ∀ c ∈ cases, c.IsShallow) :
    ∃ s, readAll? s = some cases := by
  obtain ⟨cs, hcs⟩ : ∃ cs, ListLayout (Layout false) cases cs :=
    exists_listLayout fun c hc => exists_layout (h c hc)
  exact ⟨_, readAll?_of_layout (.plain Literal.isGap_nil) hcs Literal.isGap_nil⟩

/-! ### What a case should come to -/

/-- What an input should come to fits the name of a case. -/
def Fits (kind : String) (e : Expectation) : Prop :=
  ∀ input, shouldPass ⟨input, e⟩ = (kind == "TestSuccess")

section

variable {kind : String} {e : Expectation} {rest : List Char}

theorem fits_of_openOutcome? (h : openOutcome? kind = some e) : Fits kind e := by
  unfold openOutcome? at h
  split at h
  · rename_i hkind
    cases h
    exact fun _ => (beq_iff_eq.2 hkind).symm
  · rename_i hkind
    split at h
    · cases h
      exact fun _ => (beq_eq_false_iff_ne.2 hkind).symm
    · cases h

theorem fits_of_outcome? {field : String} (h : outcome? implicit kind field cs = some (e, rest)) :
    Fits kind e := by
  unfold outcome? at h
  split at h
  · rename_i hkind
    obtain ⟨_, -, heq⟩ := Option.map_eq_some_iff.1 h
    cases heq
    exact fun _ => (beq_iff_eq.2 hkind.1).symm
  · split at h
    · rename_i hkind
      obtain ⟨_, -, heq⟩ := Option.map_eq_some_iff.1 h
      cases heq
      rw [hkind.1]
      exact fun _ => rfl
    · cases h

theorem fits_of_field? (h : field? implicit kind cs = some (.outcome e, rest)) : Fits kind e := by
  unfold field? at h
  simp only [Option.bind_eq_bind, Option.bind_eq_some_iff] at h
  obtain ⟨⟨name, _⟩, -, _, -, _, -, _, -, h⟩ := h
  split at h
  · obtain ⟨_, -, heq⟩ := Option.bind_eq_some_iff.1 h
    cases heq
  · obtain ⟨⟨_, _⟩, houtcome, heq⟩ := Option.bind_eq_some_iff.1 h
    cases heq
    exact fits_of_outcome? houtcome

/-- Whatever is in a sequence has been read as one of its items. -/
theorem exists_of_mem_sequence? {item? : List Char → Option (α × List Char)} {hadComma : Bool}
    {n : Nat} {as : List α} {a : α} (h : sequence? item? closing hadComma n cs = some (as, rest))
    (ha : a ∈ as) : ∃ cs rest, item? cs = some (a, rest) := by
  induction n generalizing cs hadComma as with
  | zero => cases h
  | succ n ih =>
    rw [sequence?] at h
    obtain ⟨start, -, h⟩ := Option.bind_eq_some_iff.1 h
    split at h
    · cases h
      cases ha
    · split at h
      · simp only [Option.bind_eq_bind, Option.bind_eq_some_iff] at h
        obtain ⟨⟨first, _⟩, hfirst, ⟨_, _⟩, -, ⟨_, _⟩, hlater, heq⟩ := h
        cases heq
        rcases List.mem_cons.1 ha with rfl | ha
        · exact ⟨_, _, hfirst⟩
        · exact ih hlater ha
      · cases h

theorem fits_of_ofFields? {unsaid : Expectation} {fields : List Field} {c : Case}
    (h : ofFields? unsaid fields = some c) (hunsaid : Fits kind unsaid)
    (hfields : ∀ e, .outcome e ∈ fields → Fits kind e) : Fits kind c.expectation := by
  unfold ofFields? at h
  split at h
  case h_1 =>
    cases h
    exact hunsaid
  case h_2 e | h_3 e _ =>
    cases h
    exact hfields e (by simp)
  case h_4 => cases h

/-- **The name of a case tells whether its input should be accepted.** -/
theorem shouldPass_of_read? {c : Case} {rest' : List Char}
    (hname : Literal.name? cs = some (kind, rest)) (h : read? implicit cs = some (c, rest')) :
    c.shouldPass = (kind == "TestSuccess") := by
  rw [read?, hname] at h
  simp only [Option.bind_eq_bind, Option.bind_some, Option.bind_eq_some_iff] at h
  obtain ⟨unsaid, hunsaid, _, -, _, -, ⟨fields, _⟩, hfields, case, hcase, heq⟩ := h
  cases heq
  refine fits_of_ofFields? hcase (fits_of_openOutcome? hunsaid) (fun e he => ?_) c.input
  obtain ⟨_, _, hfield⟩ := exists_of_mem_sequence? hfields he
  exact fits_of_field? hfield

end

end Case

end CompiledGrammar
