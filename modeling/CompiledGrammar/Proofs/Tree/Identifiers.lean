import CompiledGrammar.Proofs.Grammar.Derived
import CompiledGrammar.Proofs.Tree.Evaluation
import Mathlib.Data.List.Infix

/-!
# Identifiers of productions

An action is set for the production that an identifier names.  The identifier is a text, put
together from those of the symbols with blanks between them, and a name may hold blanks itself: two
productions can have one identifier (`Grammar.identifiers_coincide`), and then it names the last.

* `Grammar.Identifies`: an identifier names a production, also for setting its action.
* `Grammar.Loaded.exists_identifies`: the identifier of a production names the last that has it.
* `Grammar.IdsDelimited`: identifiers of symbols can be told apart where a blank follows them.  The
  identifier of a production then determines its head and its handles
  (`Grammar.Loaded.eq_of_id_eq`), by reading off one symbol after the other.

`Grammar.Loaded.identifies_productions` combines these.
-/

namespace CompiledGrammar

namespace Grammar

variable {g : Grammar} {p q : Production}

/-! ### What an identifier names -/

/-- The identifier names the production with the given number: looking it up finds that one, and
setting an action by it sets the action of that production and of no other. -/
structure Identifies (g : Grammar) (id : String) (i : ProductionIdx) : Prop where
  productionIdx? : g.productionIdx? id = some i
  setActionById? : ∀ {τ : Type} (ev : Evaluator τ) (f : Evaluate τ),
    ∃ ev', ev.setActionById? g id f = some ev' ∧ ev'.action? i = some f ∧
      ∀ j, j ≠ i → ev'.action? j = ev.action? j

theorem identifies_iff {id : String} {i : ProductionIdx} :
    g.Identifies id i ↔ g.productionIdx? id = some i := by
  refine ⟨Identifies.productionIdx?, fun h => ⟨h, fun ev f => ⟨ev.setAction i f, ?_, ?_, ?_⟩⟩⟩
  · rw [Evaluator.setActionById?, h, Option.map_some]
  · rw [Evaluator.action?_setAction, if_pos rfl]
  · intro j hj
    rw [Evaluator.action?_setAction, if_neg hj.symm]

/-- **The identifier of a production names the last production that has it.** -/
theorem Loaded.exists_identifies (hg : g.Loaded) (hp : p ∈ g.productions) :
    ∃ i q, g.productions[i]? = some q ∧ q.id = p.id ∧ g.Identifies p.id i ∧
      ∀ j r, g.productions[j]? = some r → r.id = p.id → j ≤ i := by
  have hsome : (g.productions.toList.reverse.find? (·.id == p.id)).isSome = true := by
    rw [List.find?_isSome]
    exact ⟨p, List.mem_reverse.2 hp.val, beq_self_eq_true _⟩
  obtain ⟨q, hfind⟩ := Option.isSome_iff_exists.1 hsome
  -- Seen from the end, the productions before the one that is found have other identifiers.
  obtain ⟨hid, later, earlier, hsplit, hlater⟩ := List.find?_eq_some_iff_append.1 hfind
  have hlist : g.productions.toList = earlier.reverse ++ q :: later.reverse := by
    rw [← List.reverse_reverse g.productions.toList, hsplit]
    simp
  have hq : g.productions[earlier.length]? = some q := by
    rw [← Array.getElem?_toList, hlist]
    simp
  refine ⟨earlier.length, q, hq, beq_iff_eq.1 hid, identifies_iff.2 ?_, fun j r hr hrid => ?_⟩
  · rw [Grammar.productionIdx?, hfind, Option.map_some, hg.index_eq hq]
  · by_contra hj
    obtain ⟨k, rfl⟩ := Nat.exists_eq_add_of_lt (Nat.lt_of_not_le hj)
    rw [← Array.getElem?_toList, hlist, ← List.length_reverse, Nat.add_assoc,
      List.getElem?_append_right (Nat.le_add_right _ _), Nat.add_sub_cancel_left,
      List.getElem?_cons_succ] at hr
    have hmem : r ∈ later := List.mem_reverse.1 (List.mem_of_getElem? hr)
    simpa [hrid] using hlater r hmem

/-! ### Reading an identifier -/

/-- The identifier of a symbol, with the blank after it. -/
def spelling (g : Grammar) (s : SymbolIdx) : List Char :=
  ((g.symbolId? s).getD "" ++ " ").toList

/-- The symbols that productions mention. -/
def mentioned (g : Grammar) : List SymbolIdx :=
  g.productions.toList.flatMap fun p => p.head :: p.handles

/-- No symbol that productions mention is spelled like the beginning of another. -/
def IdsDelimited (g : Grammar) : Prop :=
  ∀ s ∈ g.mentioned, ∀ t ∈ g.mentioned, g.spelling s <+: g.spelling t → s = t

instance (g : Grammar) : Decidable g.IdsDelimited :=
  inferInstanceAs
    (Decidable (∀ s ∈ g.mentioned, ∀ t ∈ g.mentioned, g.spelling s <+: g.spelling t → s = t))

theorem head_mem_mentioned (hp : p ∈ g.productions) : p.head ∈ g.mentioned :=
  List.mem_flatMap.2 ⟨p, hp.val, List.mem_cons_self⟩

theorem handles_subset_mentioned (hp : p ∈ g.productions) : p.handles ⊆ g.mentioned :=
  fun _ hs => List.mem_flatMap.2 ⟨p, hp.val, List.mem_cons_of_mem _ hs⟩

theorem spelling_ne_nil (s : SymbolIdx) : g.spelling s ≠ [] := by
  simp [spelling]

/-- Where a text begins with the spelling of a symbol, no other symbol can be read. -/
theorem IdsDelimited.append_inj (h : g.IdsDelimited) {s t : SymbolIdx} (hs : s ∈ g.mentioned)
    (ht : t ∈ g.mentioned) {a b : List Char} (heq : g.spelling s ++ a = g.spelling t ++ b) :
    s = t ∧ a = b := by
  have hst : s = t := by
    rcases List.prefix_or_prefix_of_prefix (List.prefix_append (g.spelling s) a)
      (heq ▸ List.prefix_append (g.spelling t) b) with hprefix | hprefix
    · exact h s hs t ht hprefix
    · exact (h t ht s hs hprefix).symm
  subst hst
  exact ⟨rfl, List.append_cancel_left heq⟩

theorem IdsDelimited.flatMap_inj (h : g.IdsDelimited) {ss ts : List SymbolIdx}
    (hss : ss ⊆ g.mentioned) (hts : ts ⊆ g.mentioned)
    (heq : ss.flatMap g.spelling = ts.flatMap g.spelling) : ss = ts := by
  induction ss generalizing ts with
  | nil =>
    cases ts with
    | nil => rfl
    | cons t ts => exact absurd (List.append_eq_nil_iff.1 heq.symm).1 (spelling_ne_nil t)
  | cons s ss ih =>
    cases ts with
    | nil => exact absurd (List.append_eq_nil_iff.1 heq).1 (spelling_ne_nil s)
    | cons t ts =>
      rw [List.cons_subset] at hss hts
      obtain ⟨rfl, hrest⟩ := h.append_inj hss.1 hts.1 heq
      rw [ih hss.2 hts.2 hrest]

/-- The identifier of a production spells its head and, after `::=`, its handles. -/
theorem Loaded.id_append_blank (hg : g.Loaded) (hp : p ∈ g.productions) :
    (p.id ++ " ").toList =
      g.spelling p.head ++ ("::= ".toList ++ p.handles.flatMap g.spelling) := by
  obtain ⟨r, eofSymbol, errorSymbol, productions, rfl, hlinked⟩ := hg.exists_linked
  have hspelling : spelling { r.toGrammar eofSymbol errorSymbol with productions } =
      fun s => (r.symbolId s ++ " ").toList := by
    funext s
    simp [spelling, symbolId?, Rows.toGrammar, Rows.linkSymbols, Rows.symbolId,
      Function.comp_def]
  have hhandles (handles : List SymbolIdx) : (r.handlesId handles ++ " ").toList =
      ' ' :: handles.flatMap fun s => (r.symbolId s ++ " ").toList := by
    induction handles with
    | nil => simp [Rows.handlesId]
    | cons s handles ih =>
      rw [Rows.handlesId, String.append_assoc, String.toList_append, ih, List.flatMap_cons]
      simp
  rw [(hlinked p hp).id, Rows.productionId, String.append_assoc, String.toList_append, hhandles,
    hspelling]
  simp

/-- If the identifiers of symbols can be told apart, that of a production determines its head and
its handles. -/
theorem Loaded.eq_of_id_eq (hg : g.Loaded) (h : g.IdsDelimited) (hp : p ∈ g.productions)
    (hq : q ∈ g.productions) (hid : p.id = q.id) : p.head = q.head ∧ p.handles = q.handles := by
  have hspelled := hg.id_append_blank hp
  rw [hid, hg.id_append_blank hq] at hspelled
  obtain ⟨hhead, hrest⟩ := h.append_inj (head_mem_mentioned hq) (head_mem_mentioned hp) hspelled
  exact ⟨hhead.symm, (h.flatMap_inj (handles_subset_mentioned hq) (handles_subset_mentioned hp)
    (List.append_cancel_left hrest)).symm⟩

/-! ### Identification -/

/-- **Identifiers name productions.**  The identifier of a production names the last one that has
it, so each names its own production exactly if no two are the same; and that is so if no two
productions have the same head and handles, and the identifiers of the symbols that they mention
can be told apart. -/
theorem Loaded.identifies_productions (hg : g.Loaded) :
    (∀ p ∈ g.productions, ∃ i q, g.productions[i]? = some q ∧ q.id = p.id ∧
      g.Identifies p.id i ∧ ∀ j r, g.productions[j]? = some r → r.id = p.id → j ≤ i) ∧
    ((∀ i p, g.productions[i]? = some p → g.Identifies p.id i) ↔
      ∀ p ∈ g.productions, ∀ q ∈ g.productions, p.id = q.id → p = q) ∧
    (g.IdsDelimited → (∀ p ∈ g.productions, ∀ q ∈ g.productions, p.head = q.head →
        p.handles = q.handles → p = q) →
      ∀ i p, g.productions[i]? = some p → g.Identifies p.id i) := by
  have hdistinct (h : ∀ p ∈ g.productions, ∀ q ∈ g.productions, p.id = q.id → p = q)
      (i : ProductionIdx) (p : Production) (hp : g.productions[i]? = some p) :
      g.Identifies p.id i := by
    obtain ⟨j, q, hq, hid, hj, -⟩ := hg.exists_identifies (Array.mem_of_getElem? hp)
    cases h q (Array.mem_of_getElem? hq) p (Array.mem_of_getElem? hp) hid
    rwa [← hg.index_eq hp, hg.index_eq hq]
  refine ⟨fun p hp => hg.exists_identifies hp, ⟨fun h p hp q hq hid => ?_, hdistinct⟩,
    fun hdelimited hdiffer => hdistinct fun p hp q hq hid => ?_⟩
  · obtain ⟨i, hi⟩ := Array.mem_iff_getElem?.1 hp
    obtain ⟨j, hj⟩ := Array.mem_iff_getElem?.1 hq
    have hfound := (h i p hi).productionIdx?
    rw [hid, (h j q hj).productionIdx?] at hfound
    cases hfound
    exact Option.some.inj (hi.symm.trans hj)
  · obtain ⟨hhead, hhandles⟩ := hg.eq_of_id_eq hdelimited hp hq hid
    exact hdiffer p hp q hq hhead hhandles

set_option maxRecDepth 10000 in
/-- In arithmetic every production is named by its identifier. -/
theorem identifies_operators : ∃ g, Grammar.ofBytes Sample.operators.toBytes = .ok g ∧
    g.IdsDelimited ∧ g.productions.size = 10 ∧
      ∀ i p, g.productions[i]? = some p → g.Identifies p.id i := by
  have hcheck : Grammar.loadsWith Sample.operators.toBytes (fun g =>
      decide g.IdsDelimited && g.productions.size == 10 &&
        decide (∀ p ∈ g.productions, ∀ q ∈ g.productions, p.head = q.head →
          p.handles = q.handles → p = q)) = true := by
    decide +kernel
  obtain ⟨g, hload, hg⟩ := Grammar.exists_of_loadsWith hcheck
  simp only [Bool.and_eq_true, decide_eq_true_eq, beq_iff_eq] at hg
  obtain ⟨⟨hdelimited, hsize⟩, hdiffer⟩ := hg
  exact ⟨g, hload, hdelimited, hsize,
    (Loaded.ofBytes hload).identifies_productions.2.2 hdelimited hdiffer⟩

set_option maxRecDepth 10000 in
/-- **Different productions can have one identifier.**  No two symbols have the same name and kind,
and no two productions the same head and handles; but with a blank in the name of a symbol, the
identifier of the first production names the second. -/
theorem identifiers_coincide : ∃ g, Grammar.ofBytes Sample.phrases.toBytes = .ok g ∧
    (∀ s ∈ g.symbols, ∀ t ∈ g.symbols, s.name = t.name → s.kind = t.kind → s = t) ∧
    (∀ p ∈ g.productions, ∀ q ∈ g.productions, p.head = q.head → p.handles = q.handles → p = q) ∧
    g.productionId? 0 = some "<S> ::= a b" ∧ g.Identifies "<S> ::= a b" 1 ∧
      ¬ g.Identifies "<S> ::= a b" 0 := by
  have hcheck : Grammar.loadsWith Sample.phrases.toBytes (fun g =>
      decide (∀ s ∈ g.symbols, ∀ t ∈ g.symbols, s.name = t.name → s.kind = t.kind → s = t) &&
      decide (∀ p ∈ g.productions, ∀ q ∈ g.productions, p.head = q.head →
        p.handles = q.handles → p = q) &&
      g.productionId? 0 == some "<S> ::= a b" &&
      g.productionIdx? "<S> ::= a b" == some 1) = true := by
    decide +kernel
  obtain ⟨g, hload, hg⟩ := Grammar.exists_of_loadsWith hcheck
  simp only [Bool.and_eq_true, decide_eq_true_eq, beq_iff_eq] at hg
  obtain ⟨⟨⟨hsymbols, hproductions⟩, hid⟩, hfound⟩ := hg
  refine ⟨g, hload, hsymbols, hproductions, hid, identifies_iff.2 hfound, fun h => ?_⟩
  cases hfound.symm.trans h.productionIdx?

end Grammar

end CompiledGrammar
