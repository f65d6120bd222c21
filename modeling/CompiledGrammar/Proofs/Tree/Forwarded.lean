import CompiledGrammar.Proofs.Grammar.Derived
import CompiledGrammar.Proofs.Parser.Prefix
import CompiledGrammar.Proofs.Tree.Contract
import CompiledGrammar.Proofs.Tree.Trimmed

/-!
# Forwarded productions

A production is forwarded if one of its handles stands for the whole: an only child takes the place
of its node.  Linking infers which productions are forwarded, and which terminals are left out, by
counting handles.  The two fit together: a production that was inferred to be forwarded always has
one operand left.

* `length_operands_of_infersForward` is the count: of handles that are terminals or non-terminals
  one is not left out, in each of the three cases in which forwarding is inferred.
* So no node of a simplified derivation is of such a production (`unforwarded_simplify`), whichever
  productions merge the children of their children.
* `SimplifiedBuilder.unforwarded_of_accept` says that of the tree that the builder has made, and
  counts the candidates of every reduction on the way to it.
-/

namespace CompiledGrammar

/-! ### Productions of a tree -/

namespace Tree

mutual

/-- The productions at the nodes, from the root on. -/
def productions : Tree → List ProductionIdx
  | leaf _ => []
  | node i children => i :: productionsAll children

/-- The productions at the nodes of some trees. -/
def productionsAll : List Tree → List ProductionIdx
  | [] => []
  | c :: cs => c.productions ++ productionsAll cs

end

@[simp] theorem productions_leaf (token : Token) : (leaf token).productions = [] := by
  simp only [productions]

@[simp] theorem productions_node (i : ProductionIdx) (children : List Tree) :
    (node i children).productions = i :: children.flatMap productions := by
  simp only [productions]
  induction children with
  | nil => rfl
  | cons c cs ih =>
    simp only [productionsAll, List.flatMap_cons, List.cons.injEq, true_and] at ih ⊢
    rw [ih]

end Tree

/-! ### Inferred rules -/

namespace Grammar

variable {g g' : Grammar} {p : Production}

/-- The production was inferred to be forwarded. -/
def infersForward (g : Grammar) (p : Production) : Bool :=
  (inferRules g.symbols.toList p.toProductionRow).forwardChild

/-- The productions that are forwarded are those for which that was inferred. -/
def ForwardsInferred (g : Grammar) : Prop :=
  ∀ p ∈ g.productions, p.rules.forwardChild = g.infersForward p

/-- They are as long as nothing has been changed. -/
theorem RulesInferred.forwardsInferred (hg : g.RulesInferred) : g.ForwardsInferred :=
  fun p hp => congrArg TreeRules.forwardChild (hg p hp)

/-- They still are when it has been changed which children are merged. -/
theorem ForwardsInferred.setMergeChild (hg : g.ForwardsInferred) {i : ProductionIdx} {merge : Bool}
    (h : g.setMergeChild? i merge = some g') : g'.ForwardsInferred := by
  obtain ⟨productions, rfl, hproductions⟩ := exists_of_modifyRules? h
  intro p hp
  rcases hproductions p hp with hold | ⟨q, hq, rfl⟩
  · exact hg p hold
  · exact hg q hq

/-- Productions derive non-terminals from terminals and non-terminals. -/
structure ProperProductions (g : Grammar) : Prop where
  head : ∀ p ∈ g.productions, g.hasKind p.head .nonTerminal = true
  handles : ∀ p ∈ g.productions, ∀ h ∈ p.handles,
    g.hasKind h .terminal = true ∨ g.hasKind h .nonTerminal = true

instance (g : Grammar) : Decidable g.ProperProductions :=
  decidable_of_iff
    ((∀ p ∈ g.productions, g.hasKind p.head .nonTerminal = true) ∧
      ∀ p ∈ g.productions, ∀ h ∈ p.handles,
        g.hasKind h .terminal = true ∨ g.hasKind h .nonTerminal = true)
    ⟨fun h => ⟨h.1, h.2⟩, fun h => ⟨h.head, h.handles⟩⟩

/-! ### Counting handles -/

/-- The symbol is a terminal whose text can vary. -/
def isVaried (g : Grammar) (s : SymbolIdx) : Bool :=
  g.hasKind s .terminal && !g.hasSingleLexeme s

/-- The rules of a production by its handles. -/
theorem inferRules_eq (g : Grammar) (p : ProductionRow) :
    (inferRules g.symbols.toList p).forwardChild =
        (p.handles.countP (g.hasKind · .nonTerminal) == 1 &&
            p.handles.countP (g.hasKind · .terminal) == 0 ||
          p.handles.countP (g.hasKind · .nonTerminal) == 0 && p.handles.countP g.isVaried == 1 ||
          p.handles.countP (g.hasKind · .nonTerminal) == 0 &&
            p.handles.countP (g.hasKind · .terminal) == 1) ∧
      (inferRules g.symbols.toList p).removeSingleLexeme =
        ((0 < p.handles.countP (g.hasKind · .nonTerminal) || 0 < p.handles.countP g.isVaried) &&
          p.handles.countP g.isVaried < p.handles.countP (g.hasKind · .terminal)) := by
  have hcount (q : Symbol → Bool) (q' : SymbolIdx → Bool) (h : ∀ s, g.symbols[s]?.any q = q' s) :
      (p.handles.filterMap fun s => g.symbols.toList[s]?).countP q = p.handles.countP q' := by
    rw [List.countP_filterMap]
    congr 1
    funext s
    rw [← h, Array.getElem?_toList]
    cases g.symbols[s]? <;> rfl
  have hvaried (s : SymbolIdx) :
      (g.symbols[s]?.any fun s => s.kind == .terminal && !s.singleLexeme) = g.isVaried s := by
    simp only [isVaried, hasKind, hasSingleLexeme]
    cases g.symbols[s]? with
    | none => rfl
    | some symbol =>
      simp only [Option.any_some]
      cases symbol.kind <;> rfl
  simp only [inferRules, hcount _ _ hvaried,
    hcount (·.kind == .nonTerminal) (g.hasKind · .nonTerminal) fun _ => rfl,
    hcount (·.kind == .terminal) (g.hasKind · .terminal) fun _ => rfl, and_self]

/-- No handle is counted twice: it is a non-terminal or a terminal, and a terminal has a single
lexeme or can vary. -/
theorem countP_handles {handles : List SymbolIdx}
    (h : ∀ s ∈ handles, g.hasKind s .terminal = true ∨ g.hasKind s .nonTerminal = true) :
    handles.countP (g.hasKind · .nonTerminal) + handles.countP (g.hasKind · .terminal) =
        handles.length ∧
      handles.countP (g.hasKind · .nonTerminal) + handles.countP g.isVaried =
        handles.countP (!g.hasSingleLexeme ·) := by
  have hcases : ∀ s,
      (g.hasKind s .terminal = true ∧ g.hasKind s .nonTerminal = false) ∨
      (g.hasKind s .terminal = false ∧ (g.hasKind s .nonTerminal = true →
        g.hasSingleLexeme s = false)) := by
    intro s
    unfold hasKind hasSingleLexeme
    cases g.symbols[s]? with
    | none => exact Or.inr ⟨rfl, nofun⟩
    | some symbol =>
      simp only [Option.any_some]
      cases symbol.kind <;> simp
  induction handles with
  | nil => exact ⟨rfl, rfl⟩
  | cons s handles ih =>
    obtain ⟨hs, hhandles⟩ := List.forall_mem_cons.1 h
    obtain ⟨hlength, hfixed⟩ := ih hhandles
    simp only [List.countP_cons, List.length_cons, isVaried]
    rcases hcases s with ⟨hterminal, hnot⟩ | ⟨hnot, hsingle⟩
    · simp only [hterminal, hnot, Bool.true_and, Bool.false_eq_true, ↓reduceIte]
      omega
    · have hnonTerminal := hs.resolve_left (by rw [hnot]; exact Bool.false_ne_true)
      simp only [hnot, hnonTerminal, hsingle hnonTerminal, Bool.false_and, Bool.not_false,
        Bool.false_eq_true, ↓reduceIte]
      omega

end Grammar

section

variable {g : Grammar} {p : Production} {i : ProductionIdx}

/-- Whether a child is left out depends on its symbol. -/
theorem isFixed_eq (hproper : g.ProperProductions) {t : Tree} {s : SymbolIdx}
    (h : t.symbol? g = some s) : t.isFixed g = g.hasSingleLexeme s := by
  cases t with
  | leaf token =>
    cases h
    rfl
  | node i children =>
    obtain ⟨p, hp, rfl⟩ := Option.map_eq_some_iff.1 h
    have hhead := hproper.head p (Array.mem_of_getElem? hp)
    rw [isFixed_of_nonTerminal h hhead]
    -- a non-terminal has no lexemes
    unfold Grammar.hasKind at hhead
    unfold Grammar.hasSingleLexeme
    cases hsymbol : g.symbols[p.head]? with
    | none => rfl
    | some symbol =>
      rw [hsymbol, Option.any_some, beq_iff_eq] at hhead
      simp [hhead]

/-- The operands of a node are counted by its handles. -/
theorem length_operands (hproper : g.ProperProductions) (rules : TreeRules) {children : List Tree}
    {handles : List SymbolIdx} (h : children.map (Tree.symbol? g) = handles.map some) :
    (operands g rules children).length =
      handles.countP fun s => !(rules.removeSingleLexeme && g.hasSingleLexeme s) := by
  induction children generalizing handles with
  | nil =>
    rw [List.map_eq_nil_iff.1 h.symm]
    simp only [operands, List.length_nil, List.countP_nil]
  | cons c cs ih =>
    obtain ⟨s, rest, rfl, hs, hrest⟩ := List.map_eq_cons_iff.1 h.symm
    have hlength := ih hrest.symm
    rw [operands, isFixed_eq hproper hs.symm, List.countP_cons]
    cases rules.removeSingleLexeme && g.hasSingleLexeme s with
    | true => simpa using hlength
    | false => simpa using hlength

/-- **One operand of a forwarded production is not left out.** -/
theorem length_operands_of_infersForward (hg : g.Loaded) (hproper : g.ProperProductions)
    (hp : p ∈ g.productions) (hforward : g.infersForward p = true) {children : List Tree}
    (hchildren : children.map (Tree.symbol? g) = p.handles.map some) :
    (operands g p.rules children).length = 1 := by
  obtain ⟨hforwardChild, hremove⟩ := Grammar.inferRules_eq g p.toProductionRow
  obtain ⟨hlength, hfixed⟩ := Grammar.countP_handles (hproper.handles p hp)
  have hle : p.handles.countP g.isVaried ≤ p.handles.countP (g.hasKind · .terminal) :=
    List.countP_mono_left fun s _ hs => (Bool.and_eq_true_iff.1 hs).1
  rw [Grammar.infersForward, hforwardChild] at hforward
  rw [length_operands hproper _ hchildren, hg.removeSingleLexeme_eq hp]
  simp only [Bool.or_eq_true, Bool.and_eq_true, beq_iff_eq] at hforward
  cases hleft : (inferRules g.symbols.toList p.toProductionRow).removeSingleLexeme with
  | true =>
    -- what remains are the non-terminals and the terminals that can vary
    simp only [Bool.true_and]
    rw [hremove] at hleft
    simp only [Bool.and_eq_true, Bool.or_eq_true, decide_eq_true_eq] at hleft
    omega
  | false =>
    -- all handles remain
    simp only [Bool.false_and, Bool.not_false, List.countP_true]
    rw [hremove] at hleft
    simp only [Bool.and_eq_false_iff, Bool.or_eq_false_iff, decide_eq_false_iff_not] at hleft
    omega

/-! ### Simplified trees -/

/-- No node of the tree is of a production that was inferred to be forwarded. -/
def Tree.Unforwarded (g : Grammar) (t : Tree) : Prop :=
  ∀ i ∈ t.productions, ∀ p, g.productions[i]? = some p → g.infersForward p = false

theorem Tree.unforwarded_node {children : List Tree} :
    (Tree.node i children).Unforwarded g ↔
      (∀ p, g.productions[i]? = some p → g.infersForward p = false) ∧
        ∀ c ∈ children, c.Unforwarded g := by
  simp only [Unforwarded, productions_node, List.mem_cons, List.mem_flatMap]
  constructor
  · exact fun h => ⟨h i (Or.inl rfl), fun c hc j hj => h j (Or.inr ⟨c, hc, hj⟩)⟩
  · rintro ⟨hi, hchildren⟩ j (rfl | ⟨c, hc, hj⟩)
    · exact hi
    · exact hchildren c hc j hj

theorem Tree.Unforwarded.of_mem_children {t c : Tree} (h : t.Unforwarded g)
    (hc : c ∈ t.children) : c.Unforwarded g := by
  cases t with
  | leaf token => cases hc
  | node i children => exact (unforwarded_node.1 h).2 c hc

theorem mem_listChildren {os : List Operand} {t : Tree} (h : t ∈ listChildren g p os) :
    ∃ o ∈ os, t = o.tree ∨ t ∈ o.tree.children := by
  by_cases hnone : ∀ o ∈ os, o.production.any (g.derives · p.head) = false
  · rw [listChildren_of_forall hnone] at h
    obtain ⟨o, ho, rfl⟩ := List.mem_map.1 h
    exact ⟨o, ho, Or.inl rfl⟩
  · obtain ⟨before, list, after, rfl, hbefore, hlist⟩ := exists_cut hnone
    rw [listChildren_append hbefore hlist] at h
    split_ifs at h <;>
      simp only [List.mem_append, List.map_append, List.map_cons, List.mem_cons, List.mem_map]
        at h ⊢
    · rcases h with (⟨o, ho, rfl⟩ | h) | ⟨o, ho, rfl⟩
      · exact ⟨o, Or.inl ho, Or.inl rfl⟩
      · exact ⟨list, Or.inr (Or.inl rfl), Or.inr h⟩
      · exact ⟨o, Or.inr (Or.inr ho), Or.inl rfl⟩
    · rcases h with ⟨o, ho, rfl⟩ | ⟨o, ho, rfl⟩
      · exact ⟨o, Or.inl ho, Or.inl rfl⟩
      · exact ⟨o, Or.inr (Or.inr ho), Or.inl rfl⟩
    · rcases h with ⟨o, ho, rfl⟩ | rfl | ⟨o, ho, rfl⟩
      · exact ⟨o, Or.inl ho, Or.inl rfl⟩
      · exact ⟨list, Or.inr (Or.inl rfl), Or.inl rfl⟩
      · exact ⟨o, Or.inr (Or.inr ho), Or.inl rfl⟩

theorem Operand.eq_or_mem_children {o : Operand} {t : Tree} (h : t ∈ o.contribution p) :
    t = o.tree ∨ t ∈ o.tree.children := by
  unfold contribution at h
  split at h
  · rename_i q children htree
    split at h
    · exact Or.inr (by rw [htree]; exact h)
    · exact Or.inl (List.mem_singleton.1 h)
  · exact Or.inl (List.mem_singleton.1 h)

/-- A node that is made of operands is not of a production that is forwarded if that leaves only one
of them. -/
theorem unforwarded_ofOperands (hindex : g.productions[p.index]? = some p)
    (hrule : p.rules.forwardChild = g.infersForward p) {os : List Operand}
    (hone : g.infersForward p = true → os.length = 1) (hos : ∀ o ∈ os, o.tree.Unforwarded g) :
    (Simplified.ofOperands g p os).tree.Unforwarded g := by
  rw [← hrule] at hone
  cases hforward : p.rules.forwardChild with
  | true =>
    obtain ⟨o, rfl⟩ := List.length_eq_one_iff.1 (hone hforward)
    simp only [Simplified.ofOperands, hforward]
    exact hos o (List.mem_singleton_self o)
  | false =>
    have hroot : ∀ q, g.productions[p.index]? = some q → g.infersForward q = false := by
      intro q hq
      cases hindex.symm.trans hq
      rw [← hrule, hforward]
    have hpart : ∀ o ∈ os, ∀ t, t = o.tree ∨ t ∈ o.tree.children → t.Unforwarded g := by
      rintro o ho t (rfl | ht)
      · exact hos o ho
      · exact (hos o ho).of_mem_children ht
    simp only [Simplified.ofOperands, hforward]
    split
    · refine Tree.unforwarded_node.2 ⟨hroot, fun t ht => ?_⟩
      obtain ⟨o, ho, hmem⟩ := mem_listChildren ht
      exact hpart o ho t hmem
    · refine Tree.unforwarded_node.2 ⟨hroot, fun t ht => ?_⟩
      obtain ⟨o, ho, hmem⟩ := List.mem_flatMap.1 ht
      exact hpart o ho t (Operand.eq_or_mem_children hmem)

theorem tree_of_mem_operands {rules : TreeRules} {children : List Tree} {o : Operand}
    (h : o ∈ operands g rules children) : ∃ c ∈ children, o.tree = (c.simplify g).tree := by
  induction children with
  | nil =>
    simp only [operands] at h
    cases h
  | cons c cs ih =>
    rw [operands] at h
    split at h
    · obtain ⟨d, hd, htree⟩ := ih h
      exact ⟨d, List.mem_cons_of_mem c hd, htree⟩
    · rcases List.mem_cons.1 h with rfl | h
      · exact ⟨c, List.mem_cons_self, rfl⟩
      · obtain ⟨d, hd, htree⟩ := ih h
        exact ⟨d, List.mem_cons_of_mem c hd, htree⟩

/-- **A simplified derivation has no node of a forwarded production.** -/
theorem unforwarded_simplify (hg : g.Loaded) (hproper : g.ProperProductions)
    (hforward : g.ForwardsInferred) {t : Tree} (ht : t.IsDerivation g) :
    (t.simplify g).tree.Unforwarded g := by
  induction ht with
  | leaf token =>
    rw [simplify_leaf]
    intro i hi
    rw [Tree.productions_leaf] at hi
    cases hi
  | @node i p children hp hchildren _ ih =>
    have hmem := Array.mem_of_getElem? hp
    rw [simplify_node hp]
    refine unforwarded_ofOperands (hg.getElem?_index hp) (hforward p hmem)
      (fun hinfers => length_operands_of_infersForward hg hproper hmem hinfers hchildren)
      fun o ho => ?_
    obtain ⟨c, hc, htree⟩ := tree_of_mem_operands ho
    rw [htree]
    exact ih c hc

end

/-! ### Builders -/

namespace SimplifiedBuilder

variable {g : Grammar} {l : Lexer} {items : List (Item NodeId)} {trees : List Tree}

/-- The items have entries for the trees. -/
def HasEntries (items : List (Item NodeId)) (trees : List Tree) : Prop :=
  ∃ es : List Entry, List.Forall₂ (fun item e => e.Of item) items es ∧ es.map Entry.tree = trees

theorem HasEntries.handles {below : List (Item NodeId)} {ts : List Tree}
    (h : HasEntries (items ++ below) (trees ++ ts)) (hlen : items.length = trees.length) :
    HasEntries items.reverse trees.reverse := by
  obtain ⟨es, hof, htrees⟩ := h
  obtain ⟨fs, rest, rfl, rfl, rfl⟩ := List.map_eq_append_iff.1 htrees
  rw [List.length_map] at hlen
  exact ⟨fs.reverse, List.forall₂_reverse_iff.2 (forall₂_of_append hlen hof).1, List.map_reverse⟩

/-- There are as many candidates as operands. -/
theorem length_candidates (h : HasEntries items trees) (rules : TreeRules) (a : Arena) :
    (candidates g rules items a).1.length = (operands g rules trees).length := by
  obtain ⟨es, hof, rfl⟩ := h
  rw [candidates_eq hof, operands_eq, List.length_map, List.length_map]

theorem watches_entries (hg : g.Loaded) : Watches g (onEvent g) (Builds g) fun _ => HasEntries where
  tracks := tracks hg
  ignoresStates := ignoresStates_builds
  eliminated _ _ := rfl
  accept _ _ := rfl
  weaken := fun ⟨es, hof, htrees, _⟩ => ⟨es, hof, htrees⟩
  accepted h := h

/-- If the next step reduces a production that was inferred to be forwarded, then one of the handles
is not left out. -/
theorem length_candidates_of_reduce (hg : g.Loaded) (hproper : g.ProperProductions)
    (hpops : g.PopsHandles l) {c : Config} (hreaches : Reaches g l {} c) {p : Parser NodeId}
    (hat : p.At g l c) (hentries : HasEntries p.items (c.frames.map Frame.tree))
    (hevent : (p.step g).1 = .reduce) {r : Reduction NodeId}
    (hr : (p.step g).2.reduction = some r) {production : Production}
    (hproduction : g.productions[r.production]? = some production)
    (hforward : g.infersForward production = true) (a : Arena) :
    (candidates g production.rules r.handles a).1.length = 1 := by
  have hfollows := hat.step
  generalize hstep : c.step g l = outcome at hfollows
  generalize p.step g = result at hfollows hevent hr
  cases hfollows with
  | shift | accept | fail => cases hevent
  | @reduce q i _ state handles below hs fs hi hitems hframes hlen hn _ _ hreduction =>
    cases hreduction.symm.trans hr
    cases (hg.getElem?_index hi).symm.trans hproduction
    -- after the step the handles are the children of a derivation
    have hsound := hpops.sound hg (hreaches.tail (Config.step_eq_ok.1 hstep))
    have hderivation := hsound.derivation _ List.mem_cons_self
    cases hderivation with
    | node hp hchildren _ =>
      cases hp.symm.trans hproduction
      rw [hitems, hframes, List.map_append] at hentries
      have hhandles := hentries.handles (by rw [hlen, List.length_map])
      rw [← List.map_reverse] at hhandles
      rw [length_candidates hhandles]
      exact length_operands_of_infersForward hg hproper (Array.mem_of_getElem? hp) hforward
        hchildren

/-- **Forwarded productions leave no node.**  Productions derive non-terminals from terminals and
non-terminals, they are forwarded if that was inferred, and reductions take off their handles.  Then
the tree that the simplified builder makes of an input has no node of a production that was inferred
to be forwarded, for each of the reductions of such a production leaves out all handles but one. -/
theorem unforwarded_of_accept (hg : g.Loaded) (hproper : g.ProperProductions)
    (hforward : g.ForwardsInferred) (hpops : g.PopsHandles l) {n : Nat} {b : SimplifiedBuilder}
    {p : Parser NodeId}
    (h : (Parser.start g l false).runWith g (onEvent g) n {} = some (.accept, b, p)) :
    (∀ root ∈ b.root, ∃ t, b.arena.Represents root t ∧ t.Unforwarded g) ∧
      ∀ m b' p', (Parser.start g l false).afterSteps? g (onEvent g) m {} = some (b', p') →
        (p'.step g).1 = .reduce → ∀ r ∈ (p'.step g).2.reduction,
          ∀ production ∈ g.productions[r.production]?, g.infersForward production = true →
            (candidates g production.rules r.handles b'.arena).1.length = 1 := by
  constructor
  · have hends := (tracks hg).runWith n (Parser.at_start g l) builds_start
    rw [h] at hends
    obtain ⟨d, hrun⟩ := hends.exists_accept
    rw [hrun] at hends
    obtain ⟨s, q, hresult, hbuilds, -, -⟩ := hends
    cases hresult
    have hsound := hpops.sound hg (Config.reaches_of_run hrun).1
    have htop := represents_topPayload hbuilds
    intro root hroot
    cases hframes : d.frames with
    | nil =>
      rw [hframes] at htop
      cases htop.symm.trans hroot
    | cons f frames =>
      rw [hframes] at htop
      obtain ⟨node, hnode, hrepresents⟩ := htop
      cases hnode.symm.trans hroot
      refine ⟨_, hrepresents, unforwarded_simplify hg hproper hforward (hsound.derivation f ?_)⟩
      rw [hframes]
      exact List.mem_cons_self
  · intro m b' p' hafter hevent r hr production hproduction hinfers
    have hwatched := (watches_entries hg).after hg m (Parser.Mirrors.start g l false) (s := {})
      builds_start
    cases hconfig : Config.afterSteps? g l m {} with
    | none =>
      rw [hconfig] at hwatched
      cases hafter.symm.trans hwatched
    | some c =>
      rw [hconfig] at hwatched
      obtain ⟨s, q, hresult, hmirrors, hentries⟩ := hwatched
      cases hafter.symm.trans hresult
      exact length_candidates_of_reduce hg hproper hpops (Config.reaches_of_afterSteps? hconfig)
        hmirrors.at_of_false hentries hevent hr hproduction hinfers _

set_option maxRecDepth 10000 in
/-- The sum `1+2*3`, by the grammar of arithmetic with children merged into the node of a sum.  The
second step reduces a production that was inferred to be forwarded. -/
theorem unforwarded_of_accept_sum :
    ∃ g, Grammar.Loaded g ∧ g.ProperProductions ∧ g.ForwardsInferred ∧
      (∃ p ∈ g.productions, p.rules.mergeChild = true) ∧ ∃ b p root t,
        (Parser.start g (({} : Lexer).load (.owned "1+2*3")) false).runWith g (onEvent g) 40 {} =
          some (.accept, b, p) ∧
        b.root = some root ∧ b.arena.Represents root t ∧ t.Unforwarded g ∧
        ∃ (r : Reduction NodeId) (production : Production) (a : Arena),
          g.productions[r.production]? = some production ∧ g.infersForward production = true ∧
          (candidates g production.rules r.handles a).1.length = 1 := by
  have hcheck : Grammar.loadsWith Sample.operators.toBytes (fun g =>
      (g.setMergeChild? 0 true).any fun g => g.checkConsistent 13 &&
        decide (g.ProperProductions ∧ ∃ p ∈ g.productions, p.rules.mergeChild = true) &&
        (((Parser.start g (({} : Lexer).load (.owned "1+2*3")) false).runWith g (onEvent g) 40
          {}).any fun (event, b, _) => event == .accept && b.root.isSome) &&
        ((Parser.start g (({} : Lexer).load (.owned "1+2*3")) false).afterSteps? g (onEvent g) 1
          {}).any fun (_, p) => (p.step g).1 == .reduce && (p.step g).2.reduction.any fun r =>
            g.productions[r.production]?.any g.infersForward) = true := by
    decide +kernel
  obtain ⟨g, hload, hg⟩ := Grammar.exists_of_loadsWith hcheck
  simp only [Option.any_eq_true, Bool.and_eq_true, decide_eq_true_eq, beq_iff_eq] at hg
  obtain ⟨g', hmerge, ⟨⟨hcons, hproper, hmerges⟩, ⟨event, b, p⟩, hresult, hevent, hroot⟩,
    ⟨b', p'⟩, hafter, hreduce, r, hr, production, hproduction, hinfers⟩ := hg
  obtain rfl : event = .accept := hevent
  obtain ⟨root, hroot⟩ := Option.isSome_iff_exists.1 hroot
  have hg' : g'.Loaded := .setMergeChild (.ofBytes hload) hmerge
  have hforward := (Grammar.rulesInferred_of_ofBytes hload).forwardsInferred.setMergeChild hmerge
  have hpops := (Grammar.consistent_of_check hcons).popsHandles hg'
  obtain ⟨htree, hcandidates⟩ := unforwarded_of_accept hg' hproper hforward (hpops _) hresult
  obtain ⟨t, ht, hunforwarded⟩ := htree root hroot
  exact ⟨g', hg', hproper, hforward, hmerges, b, p, root, t, hresult, hroot, ht, hunforwarded,
    r, production, b'.arena, hproduction, hinfers,
    hcandidates 1 b' p' hafter hreduce r hr production hproduction hinfers⟩

end SimplifiedBuilder

end CompiledGrammar
