import CompiledGrammar.Proofs.Grammar.Validation
import CompiledGrammar.Proofs.Table.Draft
import CompiledGrammar.Proofs.Table.Record
import Mathlib.Tactic.IntervalCases

/-!
# Decoding gives back what was drafted

The table that a draft writes is decoded to the parts of the draft (`Draft.decode_toBytes`).

* `Draft.Describes` says that a table holds exactly the parts of a draft.
* `Table.Adds` says what adding some records comes to.  The record of the sizes makes room for all
  rows, and the records of a part then fill it from the front (`Table.adds_part`).
-/

namespace CompiledGrammar

/-! ### Fields -/

section

open Draft

variable {n : Nat} {k : Char}

theorem toInt_number (h : n < numberLimit) : (Int16.ofNat n).toInt = n :=
  Int16.toInt_ofNat_of_lt h

theorem Field.index_number (part : TablePart) (h : n < numberLimit) :
    Field.index k part (some (number n)) = .ok n := by
  have hint : Field.int k (some (number n)) = .ok (Int16.ofNat n) := rfl
  rw [Field.index, hint]
  change (if 0 ≤ (Int16.ofNat n).toInt then _ else _) = _
  rw [toInt_number h, if_pos (Int.natCast_nonneg n), Int.toNat_natCast]

theorem Field.count_number (h : n < numberLimit) :
    Field.count k (some (number n)) = .ok n := by
  have hint : Field.int k (some (number n)) = .ok (Int16.ofNat n) := rfl
  rw [Field.count, hint]
  change (if 0 ≤ (Int16.ofNat n).toInt then _ else _) = _
  rw [toInt_number h, if_pos (Int.natCast_nonneg n), Int.toNat_natCast]

theorem Field.require_of_le {r : Record} (h : n ≤ r.length) : Field.require k n r = .ok () :=
  if_neg (Nat.not_lt.2 h)

theorem mapM_index_number (part : TablePart) {ns : List Nat} (h : ∀ n ∈ ns, n < numberLimit) :
    (ns.map number).mapM (fun v => Field.index k part (some v)) = .ok ns := by
  induction ns with
  | nil => rfl
  | cons n ns ih =>
    obtain ⟨hn, hns⟩ := List.forall_mem_cons.1 h
    rw [List.map_cons, List.mapM_cons, Field.index_number part hn, ih hns]
    rfl

theorem Tail.ranges_words (rs : List CodeRange) :
    Tail.ranges rs.length (rs.flatMap fun r => [word r.first, word r.last]) = .ok rs := by
  induction rs with
  | nil => rfl
  | cons r rs ih =>
    obtain ⟨first, last⟩ := r
    have hdrop : ((⟨first, last⟩ :: rs : List CodeRange).flatMap fun r =>
        [word r.first, word r.last]).drop 2 = rs.flatMap fun r => [word r.first, word r.last] := rfl
    simp only [List.length_cons, Tail.ranges, bind_eq_ok]
    refine ⟨first.toInt16, rfl, last.toInt16, rfl, rs, hdrop ▸ ih, ?_⟩
    simp only [UInt16.toUInt16_toInt16]
    rfl

theorem Tail.edges_numbers {es : List Edge} (h : ∀ e ∈ es, e.charset < numberLimit)
    (h' : ∀ e ∈ es, e.target < numberLimit) :
    Tail.edges (es.flatMap fun e => [number e.charset, number e.target, .empty]) = .ok es := by
  induction es with
  | nil => rfl
  | cons e es ih =>
    obtain ⟨hcharset, hcharsets⟩ := List.forall_mem_cons.1 h
    obtain ⟨htarget, htargets⟩ := List.forall_mem_cons.1 h'
    simp only [List.flatMap_cons, List.cons_append, List.nil_append, Tail.edges, bind_eq_ok]
    exact ⟨e.charset, Field.index_number _ hcharset, e.target, Field.index_number _ htarget, es,
      ih hcharsets htargets, rfl⟩

end

/-! ### Codes -/

theorem SymbolKind.exists_ofCode? {code : Int16} (h : 0 ≤ code.toInt ∧ code.toInt ≤ 7) :
    ∃ kind, SymbolKind.ofCode? code = some kind := by
  obtain ⟨hmin, hmax⟩ := h
  unfold SymbolKind.ofCode?
  generalize code.toInt = n at hmin hmax ⊢
  interval_cases n
  all_goals exact ⟨_, rfl⟩

theorem AdvanceMode.exists_ofCode? {code : Int16} (h : code = 0 ∨ code = 1) :
    ∃ mode, AdvanceMode.ofCode? code = some mode := by
  rcases h with rfl | rfl
  exacts [⟨_, rfl⟩, ⟨_, rfl⟩]

theorem EndingMode.exists_ofCode? {code : Int16} (h : code = 0 ∨ code = 1) :
    ∃ mode, EndingMode.ofCode? code = some mode := by
  rcases h with rfl | rfl
  exacts [⟨_, rfl⟩, ⟨_, rfl⟩]

theorem DraftAction.IsWritable.exists_ofCode? {a : DraftAction} (h : a.IsWritable) :
    ∃ action, Action.ofCode? a.kind a.target = some action := by
  obtain ⟨hmin, hmax⟩ := h.kind
  unfold Action.ofCode?
  generalize a.kind.toInt = n at hmin hmax ⊢
  interval_cases n
  all_goals exact ⟨_, rfl⟩

/-! ### Actions -/

theorem ActionMap.lookup_cons {s u : SymbolIdx} {a : Action} {m : ActionMap} :
    List.lookup u ((s, a) :: m) = if u = s then some a else m.lookup u := by
  rw [List.lookup_cons]
  by_cases hu : u = s
  · rw [if_pos hu, beq_iff_eq.2 hu]
  · rw [if_neg hu, beq_false_of_ne hu]

theorem ActionMap.lookup_insert {s u : SymbolIdx} {a : Action} {m : ActionMap} :
    (ActionMap.insert s a m).lookup u = if u = s then some a else m.lookup u := by
  induction m with
  | nil => exact lookup_cons
  | cons first rest ih =>
    obtain ⟨v, b⟩ := first
    unfold ActionMap.insert
    split
    · exact lookup_cons
    split
    · rename_i heq
      rw [lookup_cons, lookup_cons, ← heq]
      split <;> rfl
    · rename_i hne
      rw [lookup_cons, lookup_cons, ih]
      by_cases hu : u = v
      · have hs : u ≠ s := fun hs => hne (hs.symm.trans hu)
        rw [if_pos hu, if_pos hu, if_neg hs]
      · rw [if_neg hu, if_neg hu]

namespace DraftAction

/-- The action of the last entry for a symbol. -/
def last? (actions : List DraftAction) (s : SymbolIdx) : Option Action :=
  (actions.reverse.find? (·.symbol == s)).bind fun a => Action.ofCode? a.kind a.target

/-- The actions with one more entry. -/
def insertInto (m : ActionMap) (a : DraftAction) : ActionMap :=
  match Action.ofCode? a.kind a.target with
  | some action => m.insert a.symbol action
  | none => m

theorem last?_concat (actions : List DraftAction) (a : DraftAction) (s : SymbolIdx) :
    last? (actions ++ [a]) s =
      if s = a.symbol then Action.ofCode? a.kind a.target else last? actions s := by
  unfold last?
  rw [List.reverse_append, List.reverse_singleton, List.singleton_append, List.find?_cons]
  by_cases hs : s = a.symbol
  · rw [if_pos hs, beq_iff_eq.2 hs.symm]
    rfl
  · rw [if_neg hs, beq_false_of_ne (Ne.symm hs)]

/-- The last entry for a symbol decides. -/
theorem lookup_foldl {actions : List DraftAction} (h : ∀ a ∈ actions, a.IsWritable)
    (s : SymbolIdx) : (actions.foldl insertInto []).lookup s = last? actions s := by
  induction actions using List.reverseRecOn with
  | nil => rfl
  | append_singleton actions a ih =>
    obtain ⟨hactions, ha⟩ := List.forall_mem_append.1 h
    obtain ⟨action, haction⟩ := (ha a List.mem_cons_self).exists_ofCode?
    rw [List.foldl_append, List.foldl_cons, List.foldl_nil, last?_concat, insertInto, haction,
      ActionMap.lookup_insert, ih hactions]

end DraftAction

theorem Tail.actions_numbers {actions : List DraftAction} (h : ∀ a ∈ actions, a.IsWritable)
    (acc : ActionMap) :
    Tail.actions acc (actions.flatMap fun a =>
        [Draft.number a.symbol, .int a.kind, Draft.number a.target, .empty]) =
      .ok (actions.foldl DraftAction.insertInto acc) := by
  induction actions generalizing acc with
  | nil => rfl
  | cons a actions ih =>
    obtain ⟨ha, hactions⟩ := List.forall_mem_cons.1 h
    obtain ⟨action, haction⟩ := ha.exists_ofCode?
    simp only [List.flatMap_cons, List.cons_append, List.nil_append, Tail.actions, bind_eq_ok]
    refine ⟨a.symbol, Field.index_number _ ha.symbol, a.kind, rfl, a.target,
      Field.index_number _ ha.target, ?_⟩
    rw [haction, List.foldl_cons, DraftAction.insertInto, haction]
    exact ih hactions _

/-! ### The rows of a draft -/

namespace Draft

/-- The row of a property. -/
def propertyRow (p : (String × String) × Nat) : Property :=
  ⟨p.2, p.1.1, p.1.2⟩

/-- The row of a character set. -/
def charsetRow (c : List CodeRange × Nat) : Option CharacterSet :=
  some ⟨c.2, 0, c.1⟩

/-- The row of a symbol, if its kind is one. -/
def symbolRow (s : (String × Int16) × Nat) : Option SymbolRow := do
  let kind ← SymbolKind.ofCode? s.1.2
  return ⟨s.2, s.1.1, kind⟩

/-- The row of a lexical group, if its modes are modes. -/
def groupRow (g : DraftGroup × Nat) : Option Group := do
  let advance ← AdvanceMode.ofCode? g.1.advance
  let ending ← EndingMode.ofCode? g.1.ending
  return ⟨g.2, g.1.name, g.1.container, g.1.startSymbol, g.1.endSymbol, advance, ending,
    g.1.nesting⟩

/-- The row of a production. -/
def productionRow (p : (SymbolIdx × List SymbolIdx) × Nat) : Option ProductionRow :=
  some ⟨p.2, p.1.1, p.1.2⟩

/-- The row of a state of the lexical automaton. -/
def dfaRow (s : DraftState × Nat) : Option DfaRow :=
  some ⟨s.2, s.1.accept, s.1.edges⟩

/-- The row of a state of the LALR automaton. -/
def lalrRow (s : List DraftAction × Nat) : Option LalrRow :=
  some ⟨s.2, s.1.foldl DraftAction.insertInto []⟩

end Draft

/-! ### Adding records -/

namespace Table

variable {t t' t'' : Table} {rs rs' : List Record}

/-- Adding the records to the one table gives the other, wherever they stand. -/
def Adds (rs : List Record) (t t' : Table) : Prop :=
  ∀ offset, (located offset rs).foldlM addRecord t = .ok t'

theorem Adds.append (h : Adds rs t t') (h' : Adds rs' t' t'') : Adds (rs ++ rs') t t'' := by
  intro offset
  rw [located_append, List.foldlM_append, bind_eq_ok]
  exact ⟨t', h _, h' _⟩

theorem Adds.of_addRow {kind : UInt8} {r : Record}
    (h : t.addRow kind (.byte kind :: r) = .ok t') : Adds [.byte kind :: r] t t' := by
  intro offset
  simp only [located, List.foldlM_cons, List.foldlM_nil, bind_pure, addRecord]
  exact mapError_eq_ok.2 h

/-! ### One record -/

section

open Draft

theorem adds_property {p : (String × String) × Nat} (hi : p.2 < numberLimit) :
    Adds [propertyRecord p] t { t with properties := t.properties ++ [propertyRow p] } := by
  refine Adds.of_addRow (?_ : t.addProperty (propertyRecord p) = _)
  simp only [addProperty, bind_eq_ok]
  exact ⟨p.2, Field.count_number hi, p.1.1, rfl, p.1.2, rfl, rfl⟩

theorem adds_charset {c : List CodeRange × Nat} (hi : c.2 < numberLimit)
    (hranges : c.1.length < numberLimit) (hlt : c.2 < t.charsets.length) :
    Adds [charsetRecord c] t { t with charsets := t.charsets.set c.2 (charsetRow c) } := by
  refine Adds.of_addRow (?_ : t.addCharset (charsetRecord c) = _)
  have hlen : (charsetRecord c).length = 5 + 2 * c.1.length := by
    simp only [charsetRecord, List.length_append, List.length_cons, List.length_nil,
      List.length_flatMap, List.map_const', List.sum_replicate_nat, Nat.mul_comm]
  simp only [addCharset, bind_eq_ok, placeRow_eq_ok]
  exact ⟨c.2, Field.index_number _ hi, 0, rfl, c.1.length, Field.count_number hranges, (),
    Field.require_of_le (Nat.le_of_eq hlen.symm), c.1, Tail.ranges_words c.1, _, ⟨hlt, rfl⟩, rfl⟩

theorem adds_symbol {s : (String × Int16) × Nat} (hi : s.2 < numberLimit)
    (hkind : 0 ≤ s.1.2.toInt ∧ s.1.2.toInt ≤ 7) (hlt : s.2 < t.symbols.length) :
    Adds [symbolRecord s] t { t with symbols := t.symbols.set s.2 (symbolRow s) } := by
  refine Adds.of_addRow (?_ : t.addSymbol (symbolRecord s) = _)
  obtain ⟨kind, hkind⟩ := SymbolKind.exists_ofCode? hkind
  simp only [addSymbol, bind_eq_ok, symbolRow, hkind]
  refine ⟨s.2, Field.index_number _ hi, s.1.2, rfl, ?_⟩
  simp only [hkind, bind_eq_ok, placeRow_eq_ok]
  exact ⟨s.1.1, rfl, _, ⟨hlt, rfl⟩, rfl⟩

theorem adds_group {g : DraftGroup × Nat} (hi : g.2 < numberLimit) (hg : g.1.IsWritable)
    (hlt : g.2 < t.groups.length) :
    Adds [groupRecord g] t { t with groups := t.groups.set g.2 (groupRow g) } := by
  refine Adds.of_addRow (?_ : t.addGroup (groupRecord g) = _)
  obtain ⟨advance, hadvance⟩ := AdvanceMode.exists_ofCode? hg.advance
  obtain ⟨ending, hending⟩ := EndingMode.exists_ofCode? hg.ending
  have hlen : (groupRecord g).length = 10 + g.1.nesting.length := by
    simp only [groupRecord, List.length_append, List.length_cons, List.length_nil, List.length_map]
  have hnesting : Tail.nesting (((groupRecord g).drop 10).take g.1.nesting.length) =
      .ok g.1.nesting := by
    have hdrop : (groupRecord g).drop 10 = g.1.nesting.map number := rfl
    rw [hdrop, List.take_of_length_le (List.length_map _).le]
    exact mapM_index_number _ hg.nesting
  simp only [addGroup, bind_eq_ok, groupRow, hadvance, hending]
  refine ⟨g.2, Field.index_number _ hi, g.1.advance, rfl, g.1.ending, rfl, g.1.nesting.length,
    Field.count_number hg.nestingLength, (), Field.require_of_le (Nat.le_of_eq hlen.symm),
    g.1.nesting, hnesting, g.1.name, rfl, g.1.container, Field.index_number _ hg.container,
    g.1.startSymbol, Field.index_number _ hg.startSymbol, g.1.endSymbol,
    Field.index_number _ hg.endSymbol, ?_⟩
  simp only [hadvance, hending, bind_eq_ok, placeRow_eq_ok]
  exact ⟨_, ⟨hlt, rfl⟩, rfl⟩

theorem adds_production {p : (SymbolIdx × List SymbolIdx) × Nat} (hi : p.2 < numberLimit)
    (hp : p.1.1 < numberLimit ∧ ∀ h ∈ p.1.2, h < numberLimit) (hlt : p.2 < t.productions.length) :
    Adds [productionRecord p] t
      { t with productions := t.productions.set p.2 (productionRow p) } := by
  refine Adds.of_addRow (?_ : t.addProduction (productionRecord p) = _)
  simp only [addProduction, bind_eq_ok, placeRow_eq_ok]
  exact ⟨p.2, Field.index_number _ hi, p.1.1, Field.index_number _ hp.1, (),
    Field.require_of_le (Nat.le_add_left _ _), p.1.2, mapM_index_number _ hp.2, _, ⟨hlt, rfl⟩, rfl⟩

theorem adds_dfaState {s : DraftState × Nat} {charsets states : Nat} (hi : s.2 < numberLimit)
    (hs : s.1.Within charsets states) (hcharsets : charsets ≤ numberLimit)
    (hstates : states ≤ numberLimit) (hlt : s.2 < t.dfaStates.length) :
    Adds [dfaRecord s] t { t with dfaStates := t.dfaStates.set s.2 (dfaRow s) } := by
  refine Adds.of_addRow (?_ : t.addDfaState (dfaRecord s) = _)
  have hedges : Tail.edges ((dfaRecord s).drop 5) = .ok s.1.edges :=
    Tail.edges_numbers (fun e he => Nat.lt_of_lt_of_le (hs.charset e he) hcharsets)
      fun e he => Nat.lt_of_lt_of_le (hs.target e he) hstates
  simp only [addDfaState, bind_eq_ok]
  refine ⟨s.2, Field.index_number _ hi, (), Field.require_of_le (Nat.le_add_left _ _),
    s.1.accept.isSome, rfl, ?_⟩
  obtain ⟨⟨accept, edges⟩, i⟩ := s
  cases accept with
  | none =>
    simp only [Option.isSome_none, Bool.false_eq_true, if_false, bind_eq_ok, placeRow_eq_ok]
    exact ⟨none, rfl, edges, hedges, _, ⟨hlt, rfl⟩, rfl⟩
  | some a =>
    have haccept : Field.index 'D' .symbols (some (number a)) = .ok a :=
      Field.index_number _ (hs.accept a rfl)
    simp only [Option.isSome_some, if_true, bind_eq_ok, placeRow_eq_ok]
    exact ⟨some a, congrArg (some <$> ·) haccept, edges, hedges, _, ⟨hlt, rfl⟩, rfl⟩

theorem adds_lalrState {s : List DraftAction × Nat} (hi : s.2 < numberLimit)
    (hs : ∀ a ∈ s.1, a.IsWritable) (hlt : s.2 < t.lalrStates.length) :
    Adds [lalrRecord s] t { t with lalrStates := t.lalrStates.set s.2 (lalrRow s) } := by
  refine Adds.of_addRow (?_ : t.addLalrState (lalrRecord s) = _)
  simp only [addLalrState, bind_eq_ok, placeRow_eq_ok]
  exact ⟨s.2, Field.index_number _ hi, (), Field.require_of_le (Nat.le_add_left _ _), _,
    Tail.actions_numbers hs [], _, ⟨hlt, rfl⟩, rfl⟩

end

/-! ### All records of a part -/

/-- Rows fill a part from the front. -/
theorem adds_rows {α β : Type} {put : List (Option α) → Table} {record : β × Nat → Record}
    {row : β × Nat → Option α} {bs : List β} (done : List (Option α))
    (h : ∀ b ∈ bs.zipIdx done.length, ∀ rows : List (Option α), b.2 < rows.length →
      Adds [record b] (put rows) (put (rows.set b.2 (row b)))) :
    Adds ((bs.zipIdx done.length).map record) (put (done ++ List.replicate bs.length none))
      (put (done ++ (bs.zipIdx done.length).map row)) := by
  induction bs generalizing done with
  | nil => exact fun _ => rfl
  | cons b bs ih =>
    rw [List.zipIdx_cons] at h ⊢
    obtain ⟨hb, hbs⟩ := List.forall_mem_cons.1 h
    have hlen : (done ++ [row (b, done.length)]).length = done.length + 1 := by
      rw [List.length_append, List.length_singleton]
    have hset : (done ++ List.replicate (b :: bs).length none).set done.length
        (row (b, done.length)) = done ++ row (b, done.length) :: List.replicate bs.length none := by
      rw [List.length_cons, List.replicate_succ, List.set_append_right _ _ (Nat.le_refl _),
        Nat.sub_self, List.set_cons_zero]
    have hfirst := hb (done ++ List.replicate (b :: bs).length none) (by simp)
    have hrest := ih (done ++ [row (b, done.length)]) (hlen ▸ hbs)
    simp only [hlen, List.append_assoc, List.singleton_append] at hrest
    rw [hset] at hfirst
    exact hfirst.append hrest

/-- The records of a part turn the room for its rows into the rows. -/
theorem adds_part {α β : Type} (put : List (Option α) → Table) {record : β × Nat → Record}
    (row : β × Nat → Option α) {bs : List β}
    (h : ∀ b i, b ∈ bs → i < bs.length → ∀ rows : List (Option α), i < rows.length →
      Adds [record (b, i)] (put rows) (put (rows.set i (row (b, i))))) :
    Adds (bs.zipIdx.map record) (put (List.replicate bs.length none))
      (put (bs.zipIdx.map row)) := by
  refine adds_rows [] fun b hb => ?_
  obtain ⟨b, i⟩ := b
  obtain ⟨-, hi, hmem⟩ := List.mem_zipIdx hb
  exact h b i (hmem ▸ List.getElem_mem _) (by simpa using hi)

/-- The records of the properties add them one after the other. -/
theorem adds_properties (t : Table) (ps : List (String × String)) (k : Nat)
    (h : k + ps.length ≤ numberLimit) :
    Adds ((ps.zipIdx k).map Draft.propertyRecord) t
      { t with properties := t.properties ++ (ps.zipIdx k).map Draft.propertyRow } := by
  induction ps generalizing k t with
  | nil =>
    rw [List.zipIdx_nil, List.map_nil, List.map_nil, List.append_nil]
    exact fun _ => rfl
  | cons p ps ih =>
    rw [List.length_cons] at h
    have hk : k < numberLimit := by omega
    have hrest := ih { t with properties := t.properties ++ [Draft.propertyRow (p, k)] } (k + 1)
      (by omega)
    rw [List.append_assoc, List.singleton_append] at hrest
    exact (adds_property (p := (p, k)) hk).append hrest

end Table

/-! ### The whole table -/

namespace Draft

variable {d : Draft}

/-- The rows of all parts. -/
def table (d : Draft) : Table where
  properties := d.properties.zipIdx.map propertyRow
  charsets := d.charsets.zipIdx.map charsetRow
  symbols := d.symbols.zipIdx.map symbolRow
  groups := d.groups.zipIdx.map groupRow
  productions := d.productions.zipIdx.map productionRow
  dfaStates := d.dfa.zipIdx.map dfaRow
  lalrStates := d.lalr.zipIdx.map lalrRow
  initial := some (0, 0)

/-- The rows of the properties only, with room for those of all other parts. -/
def emptyTable (d : Draft) : Table where
  properties := d.properties.zipIdx.map propertyRow
  charsets := List.replicate d.charsets.length none
  symbols := List.replicate d.symbols.length none
  groups := List.replicate d.groups.length none
  productions := List.replicate d.productions.length none
  dfaStates := List.replicate d.dfa.length none
  lalrStates := List.replicate d.lalr.length none
  initial := some (0, 0)

theorem adds_start (hroom : d.HasRoom) :
    Table.Adds (d.properties.zipIdx.map propertyRecord ++ [d.sizesRecord, initialRecord]) {}
      d.emptyTable := by
  have hproperties := Table.adds_properties {} d.properties 0
    ((Nat.zero_add _).symm ▸ hroom.properties)
  have hsizes : Table.Adds [d.sizesRecord] { properties := d.properties.zipIdx.map propertyRow }
      { d.emptyTable with initial := none } := by
    refine .of_addRow (?_ : Table.setSizes _ d.sizesRecord = _)
    simp only [Table.setSizes, bind_eq_ok]
    exact ⟨_, Field.count_number hroom.symbols, _, Field.count_number hroom.charsets,
      _, Field.count_number hroom.productions, _, Field.count_number hroom.dfa,
      _, Field.count_number hroom.lalr, _, Field.count_number hroom.groups, rfl⟩
  have hinitial : Table.Adds [initialRecord] { d.emptyTable with initial := none } d.emptyTable :=
    .of_addRow rfl
  exact hproperties.append (hsizes.append hinitial)

/-- The records of a draft that can be written add its rows. -/
theorem adds_records (h : d.WellFormed) (hroom : d.HasRoom) : Table.Adds d.records {} d.table := by
  have hcharsets := Table.adds_part (fun rows => { d.emptyTable with charsets := rows }) charsetRow
    fun c i hc hi _ hlt =>
      Table.adds_charset (hi.trans hroom.charsets) (hroom.ranges c hc) hlt
  have hsymbols := Table.adds_part
    (fun rows => { d.emptyTable with charsets := d.table.charsets, symbols := rows }) symbolRow
    fun s i hs hi _ hlt => Table.adds_symbol (hi.trans hroom.symbols) (h.symbol s hs).2 hlt
  have hgroups := Table.adds_part
    (fun rows => { d.emptyTable with
      charsets := d.table.charsets, symbols := d.table.symbols, groups := rows }) groupRow
    fun g i hg hi _ hlt => Table.adds_group (hi.trans hroom.groups) (h.group g hg) hlt
  have hproductions := Table.adds_part
    (fun rows => { d.table with
      productions := rows, dfaStates := d.emptyTable.dfaStates,
      lalrStates := d.emptyTable.lalrStates }) productionRow
    fun p i hp hi _ hlt =>
      Table.adds_production (hi.trans hroom.productions) (h.production p hp) hlt
  have hdfaStates := Table.adds_part
    (fun rows => { d.table with dfaStates := rows, lalrStates := d.emptyTable.lalrStates }) dfaRow
    fun s i hs hi _ hlt =>
      Table.adds_dfaState (hi.trans hroom.dfa) (h.dfaState s hs) hroom.charsets.le hroom.dfa.le hlt
  have hlalrStates := Table.adds_part (fun rows => { d.table with lalrStates := rows }) lalrRow
    fun s i hs hi _ hlt => Table.adds_lalrState (hi.trans hroom.lalr) (h.lalrState s hs) hlt
  exact (((((adds_start hroom).append hcharsets).append hsymbols).append hgroups).append
    hproductions).append hdfaStates |>.append hlalrStates

/-- Of the records of a draft, only those of properties, symbols and groups hold strings. -/
theorem storable_records (h : d.WellFormed) (hroom : d.HasRoom) :
    ∀ r ∈ d.records, r.IsStorable := by
  intro r hr
  refine ⟨hroom.values r hr, ?_⟩
  simp only [records, List.append_assoc, List.mem_append, List.mem_map, List.mem_cons,
    List.not_mem_nil, or_false] at hr
  rcases hr with ⟨⟨p, i⟩, hp, rfl⟩ | (rfl | rfl) | ⟨c, -, rfl⟩ | ⟨⟨s, i⟩, hs, rfl⟩ |
    ⟨⟨g, i⟩, hg, rfl⟩ | ⟨p, -, rfl⟩ | ⟨s, -, rfl⟩ | ⟨s, -, rfl⟩
  case inl =>
    simpa [propertyRecord, number] using h.property p (List.fst_mem_of_mem_zipIdx hp)
  case inr.inr.inr.inl =>
    simpa [symbolRecord, number] using (h.symbol s (List.fst_mem_of_mem_zipIdx hs)).1
  case inr.inr.inr.inr.inl =>
    simpa [groupRecord, number] using (h.group g (List.fst_mem_of_mem_zipIdx hg)).name
  case inr.inr.inr.inr.inr.inr.inl =>
    cases haccept : s.1.accept <;>
      simp only [dfaRecord, number, haccept, List.forall_mem_append, List.forall_mem_flatMap,
        List.forall_mem_cons, Value.isStorable_byte, Value.isStorable_int, Value.isStorable_bool,
        Value.isStorable_empty, List.not_mem_nil, Option.map_some, Option.map_none,
        Option.getD_some, Option.getD_none, false_implies, implies_true, and_true]
  all_goals
    simp only [sizesRecord, initialRecord, charsetRecord, productionRecord, lalrRecord, number,
      word, List.forall_mem_append, List.forall_mem_flatMap, List.forall_mem_map,
      List.forall_mem_cons, Value.isStorable_byte, Value.isStorable_int, Value.isStorable_empty,
      List.not_mem_nil, false_implies, implies_true, and_true]

/-- The table holds exactly the parts of the draft. -/
structure Describes (d : Draft) (t : Table) : Prop where
  /-- The properties, in order and with their positions. -/
  properties : t.properties = d.properties.zipIdx.map propertyRow
  /-- The character sets, all of them in the first plane. -/
  charsets : t.charsets = d.charsets.zipIdx.map charsetRow
  /-- The symbols. -/
  symbols : t.symbols = d.symbols.zipIdx.map symbolRow
  /-- The lexical groups. -/
  groups : t.groups = d.groups.zipIdx.map groupRow
  /-- The productions. -/
  productions : t.productions = d.productions.zipIdx.map productionRow
  /-- The states of the lexical automaton. -/
  dfaStates : t.dfaStates = d.dfa.zipIdx.map dfaRow
  /-- As many states of the LALR automaton. -/
  lalrLength : t.lalrStates.length = d.lalr.length
  /-- In each of them, the action on a symbol is that of its last entry. -/
  lalrStates : ∀ i actions, d.lalr[i]? = some actions →
    ∃ row : LalrRow, t.lalrStates[i]? = some (some row) ∧ row.index = i ∧ row.IsSorted ∧
      ∀ s, row.actions.lookup s = DraftAction.last? actions s
  /-- The first state of either automaton is the initial one. -/
  initial : t.initial = some (0, 0)
  /-- No row is missing. -/
  complete : t.IsComplete

/-- No row is missing if each part has one. -/
theorem none_notMem_rows {α β : Type} {row : β × Nat → Option α} {bs : List β}
    (h : ∀ b i, b ∈ bs → ∃ a, row (b, i) = some a) : none ∉ bs.zipIdx.map row := by
  intro hmem
  obtain ⟨⟨b, i⟩, hb, hnone⟩ := List.mem_map.1 hmem
  obtain ⟨a, ha⟩ := h b i (List.fst_mem_of_mem_zipIdx hb)
  rw [ha] at hnone
  cases hnone

theorem isComplete_table (h : d.WellFormed) : d.table.IsComplete where
  charsets := none_notMem_rows fun _ _ _ => ⟨_, rfl⟩
  symbols := none_notMem_rows fun s i hs => by
    obtain ⟨kind, hkind⟩ := SymbolKind.exists_ofCode? (h.symbol s hs).2
    exact ⟨⟨i, s.1, kind⟩, by rw [symbolRow, hkind]; rfl⟩
  groups := none_notMem_rows fun g i hg => by
    obtain ⟨advance, hadvance⟩ := AdvanceMode.exists_ofCode? (h.group g hg).advance
    obtain ⟨ending, hending⟩ := EndingMode.exists_ofCode? (h.group g hg).ending
    exact ⟨_, by rw [groupRow, hadvance, hending]; rfl⟩
  productions := none_notMem_rows fun _ _ _ => ⟨_, rfl⟩
  dfaStates := none_notMem_rows fun _ _ _ => ⟨_, rfl⟩
  lalrStates := none_notMem_rows fun _ _ _ => ⟨_, rfl⟩
  initial := nofun

theorem decode_eq_table (h : d.WellFormed) (hroom : d.HasRoom) :
    Table.decode d.toBytes = .ok d.table :=
  (Table.decode_eq (storable_records h hroom)).trans (adds_records h hroom _)

theorem describes_table (h : d.WellFormed) (hroom : d.HasRoom) : d.Describes d.table where
  properties := rfl
  charsets := rfl
  symbols := rfl
  groups := rfl
  productions := rfl
  dfaStates := rfl
  lalrLength := by rw [table, List.length_map, List.length_zipIdx]
  lalrStates := fun i actions hi => by
    have hrow : d.table.lalrStates[i]? = some (lalrRow (actions, i)) := by
      simp only [table, List.getElem?_map, List.getElem?_zipIdx, hi, Option.map_some, Nat.zero_add]
    exact ⟨_, hrow, rfl,
      (Table.ordered_of_decode (decode_eq_table h hroom)).actions _ (List.mem_of_getElem? hrow),
      DraftAction.lookup_foldl (h.lalrState actions (List.mem_of_getElem? hi))⟩
  initial := rfl
  complete := isComplete_table h

/-- **Decoding gives back what was drafted**, if everything that the draft was given can be written
and a table has room for all of it. -/
theorem decode_toBytes {calls : List Call} (h : ∀ c ∈ calls, c.IsWritable)
    (hroom : (ofCalls calls).HasRoom) :
    ∃ t, Table.decode (ofCalls calls).toBytes = .ok t ∧ (ofCalls calls).Describes t :=
  have hwf := WellFormed.ofCalls h
  ⟨_, decode_eq_table hwf hroom, describes_table hwf hroom⟩

/-- Calls that draft letters, and blocks of them.  The second action on symbol 0 replaces the
first one. -/
def letterCalls : List Call :=
  [.property "Name" "Letters", .symbol "Letters" 1, .symbol "Start" 4, .symbol "End" 5,
    .symbol "List" 0, .group ⟨"Block", 0, 1, 2, 1, 0, [0]⟩, .production 3 [0, 3], .literal 1 "<!",
    .pattern 0 [.one [⟨0, 0xFFFF⟩], .many [⟨97, 122⟩]],
    .lalrState [⟨0, 1, 1⟩, ⟨3, 3, 0⟩, ⟨0, 2, 0⟩]]

theorem decode_toBytes_letters :
    ∃ t, Table.decode (ofCalls letterCalls).toBytes = .ok t ∧ (ofCalls letterCalls).Describes t :=
  decode_toBytes (by decide) (by decide)

/-- A value with a `U+0000` in it ends there, and what comes after it is no record. -/
theorem not_decode_toBytes_zero :
    '\x00' ∉ "Name".toList ∧ (ofCalls [.property "Name" "a\x00b"]).HasRoom ∧
      Table.decode (ofCalls [.property "Name" "a\x00b"]).toBytes =
        .error ⟨.unknownRecordTag 98, some 72⟩ := by
  refine ⟨by decide, by decide, ?_⟩
  decide +kernel

end Draft

end CompiledGrammar
