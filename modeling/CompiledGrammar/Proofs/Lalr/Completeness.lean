import CompiledGrammar.Proofs.Grammar.Loaded
import CompiledGrammar.Proofs.Lalr.Items
import CompiledGrammar.Proofs.Parser.Machine

/-!
# Completeness of parsing

With valid item sets, the automaton parses everything that the grammar derives from the start
symbol: led by a derivation of the input it shifts its leaves and reduces its nodes, from left to
right and from the leaves up (`ItemSets.Valid.runs`), and accepts (`ItemSets.Valid.accepts`).

Which symbol comes next is what makes it take the right turn.  A tree together with what comes after
it starts with a symbol that the item sets foresee (`ItemSets.Valid.foresees`).
-/

namespace CompiledGrammar

variable {g : Grammar} {l : Lexer} {c : ItemSets} {start : SymbolIdx}

/-! ### Reading ahead -/

/-- The tokens from the one after `m` others are the given ones, and nothing is wrong with them. -/
def Yields (g : Grammar) (l : Lexer) : Nat → List Token → Prop
  | _, [] => True
  | m, t :: ts => l.tokenAt g m = t ∧ g.hasKind t.symbol .error = false ∧
      g.hasKind t.symbol .nonTerminal = false ∧ Yields g l (m + 1) ts

theorem yields_append {m : Nat} {ts us : List Token} :
    Yields g l m (ts ++ us) ↔ Yields g l m ts ∧ Yields g l (m + ts.length) us := by
  induction ts generalizing m with
  | nil => simp [Yields]
  | cons t ts ih =>
    rw [List.cons_append, Yields, Yields, ih, List.length_cons, Nat.add_right_comm m,
      Nat.add_assoc m]
    simp only [and_assoc]

/-- The tokens and the one after them start with the next one. -/
theorem Yields.head?_eq {m : Nat} {ts : List Token} (h : Yields g l m ts) :
    (ts ++ [l.tokenAt g (m + ts.length)]).head? = some (l.tokenAt g m) := by
  cases ts with
  | nil => rfl
  | cons t ts => rw [← h.1]; rfl

theorem Yields.terminal {m : Nat} {ts : List Token} (h : Yields g l m ts) :
    ∀ t ∈ ts, g.hasKind t.symbol .nonTerminal = false := by
  induction ts generalizing m with
  | nil => exact nofun
  | cons t ts ih =>
    intro u hu
    rcases List.mem_cons.1 hu with rfl | hu
    · exact h.2.2.1
    · exact ih h.2.2.2 u hu

namespace ItemSets

/-! ### What comes first -/

theorem mem_firstOf {ss next : List SymbolIdx} {s : SymbolIdx} (h : s ∈ c.firstOf g ss next) :
    s ∈ c.firstOf g ss [] ∨
      s ∈ next ∧ ∀ x ∈ ss, g.hasKind x .nonTerminal = true ∧ c.nullable x = true := by
  induction ss with
  | nil => exact Or.inr ⟨h, nofun⟩
  | cons x ss ih =>
    unfold firstOf at h ⊢
    split at h
    · rename_i hkind
      rw [if_pos hkind]
      rcases List.mem_append.1 h with h | h
      · exact Or.inl (List.mem_append_left _ h)
      · split at h
        · rename_i hnullable
          rw [if_pos hnullable]
          rcases ih h with h | ⟨h, hall⟩
          · exact Or.inl (List.mem_append_right _ h)
          · refine Or.inr ⟨h, ?_⟩
            intro y hy
            rcases List.mem_cons.1 hy with rfl | hy
            · exact ⟨hkind, hnullable⟩
            · exact hall y hy
        · cases h
    · rename_i hkind
      rw [if_neg hkind]
      exact Or.inl h

theorem firstOf_cons (s : SymbolIdx) (ss next : List SymbolIdx) :
    c.firstOf g (s :: ss) next = c.firstOf g [s] (c.firstOf g ss next) := by
  simp only [firstOf]

/-- The item sets foresee the tree: together with what comes after it, it starts with a symbol that
may come first. -/
def Foresees (c : ItemSets) (g : Grammar) (t : Tree) : Prop :=
  ∀ {s : SymbolIdx} {next : List SymbolIdx} {a b : Token}, t.symbol? g = some s →
    (∀ u ∈ t.leaves, g.hasKind u.symbol .nonTerminal = false) → b.symbol ∈ next →
    (t.leaves ++ [b]).head? = some a → a.symbol ∈ c.firstOf g [s] next

theorem foresees_forest {children : List Tree} (h : ∀ t ∈ children, c.Foresees g t) :
    ∀ {ss next : List SymbolIdx} {a b : Token},
      children.map (Tree.symbol? g) = ss.map some →
      (∀ u ∈ children.flatMap Tree.leaves, g.hasKind u.symbol .nonTerminal = false) →
      b.symbol ∈ next → (children.flatMap Tree.leaves ++ [b]).head? = some a →
      a.symbol ∈ c.firstOf g ss next := by
  induction children with
  | nil =>
    intro ss next a b hsymbols _ hb ha
    cases ss with
    | nil => cases ha; exact hb
    | cons s ss => cases hsymbols
  | cons t children ih =>
    intro ss next a b hsymbols hterminal hb ha
    cases ss with
    | nil => cases hsymbols
    | cons s ss =>
      rw [List.map_cons, List.map_cons, List.cons.injEq] at hsymbols
      rw [List.flatMap_cons] at hterminal ha
      -- what comes after the first tree is the start of its siblings
      obtain ⟨b', hb'⟩ : ∃ b', (children.flatMap Tree.leaves ++ [b]).head? = some b' := by
        cases children.flatMap Tree.leaves with
        | nil => exact ⟨b, rfl⟩
        | cons u us => exact ⟨u, rfl⟩
      have hrest := ih (fun t ht => h t (List.mem_cons_of_mem _ ht)) hsymbols.2
        (fun u hu => hterminal u (List.mem_append_right _ hu)) hb hb'
      rw [firstOf_cons]
      refine h t List.mem_cons_self hsymbols.1
        (fun u hu => hterminal u (List.mem_append_left _ hu)) hrest ?_
      cases hleaves : t.leaves with
      | nil => rw [hleaves] at ha; exact hb'.symm.trans ha
      | cons u us => rw [hleaves] at ha; exact ha

namespace Valid

/-- What comes first in the handles of a production comes first in its head. -/
theorem mem_firstOf_head (hc : c.Valid g start) {i : ProductionIdx} {p : Production}
    (hp : g.productions[i]? = some p) {next : List SymbolIdx} {s : SymbolIdx}
    (h : s ∈ c.firstOf g p.handles next) : s ∈ c.firstOf g [p.head] next := by
  unfold firstOf
  rw [if_pos (hc.head_nonTerminal hp)]
  rcases mem_firstOf h with h | ⟨h, hall⟩
  · exact List.mem_append_left _ (hc.first hp s h)
  · rw [if_pos (hc.nullable hp hall)]
    exact List.mem_append_right _ h

theorem foresees (hc : c.Valid g start) {t : Tree} (ht : t.IsDerivation g) : c.Foresees g t := by
  induction ht with
  | leaf token =>
    intro s next a b hs hterminal hb ha
    rw [Tree.leaves_leaf] at ha hterminal
    cases hs
    cases ha
    unfold firstOf
    rw [if_neg (by rw [hterminal _ (List.mem_singleton_self _)]; exact Bool.false_ne_true)]
    exact List.mem_singleton_self _
  | @node i p children hp hsymbols _ ih =>
    intro s next a b hs hterminal hb ha
    rw [Tree.leaves_node] at hterminal ha
    obtain rfl : p.head = s := Option.some.inj ((Tree.symbol?_node hp).symm.trans hs)
    exact hc.mem_firstOf_head hp (foresees_forest ih hsymbols hterminal hb ha)

end Valid

/-! ### Led by a derivation -/

/-- Where its root may come next, the automaton reads the tree and pushes it. -/
def Runs (c : ItemSets) (g : Grammar) (l : Lexer) (t : Tree) : Prop :=
  ∀ {frames : List Frame} {m : Nat} {s : SymbolIdx} {q : LalrStateIdx}, t.symbol? g = some s →
    enters? g (g.topOf frames) s = some q →
    (g.hasKind s .nonTerminal = true → c.starts (g.topOf frames) s = true ∧
      (l.tokenAt g (m + t.leaves.length)).symbol ∈ c.follow s) →
    Yields g l m t.leaves →
    Reaches g l ⟨frames, m⟩ ⟨⟨q, t⟩ :: frames, m + t.leaves.length⟩

namespace Valid

/-- From an item on, the automaton reads the trees of all handles to come. -/
theorem runs_forest (hc : c.Valid g start) {i : ProductionIdx} {p : Production}
    (hp : g.productions[i]? = some p) {children : List Tree}
    (hruns : ∀ t ∈ children, t.IsDerivation g ∧ c.Runs g l t) :
    ∀ {d : Nat} {frames : List Frame} {m : Nat}, d ≤ p.handles.length →
      children.map (Tree.symbol? g) = (p.handles.drop d).map some →
      (i, d) ∈ c.items g (g.topOf frames) →
      Yields g l m (children.flatMap Tree.leaves) →
      (l.tokenAt g (m + (children.flatMap Tree.leaves).length)).symbol ∈ c.follow p.head →
      ∃ fs : List Frame, fs.reverse.map Frame.tree = children ∧
        Reaches g l ⟨frames, m⟩ ⟨fs ++ frames, m + (children.flatMap Tree.leaves).length⟩ ∧
        (i, p.handles.length) ∈ c.items g (g.topOf (fs ++ frames)) := by
  induction children with
  | nil =>
    intro d frames m hd hsymbols hitem _ _
    have hend : d = p.handles.length := by
      refine Nat.le_antisymm hd (List.drop_eq_nil_iff.1 ?_)
      exact List.map_eq_nil_iff.1 hsymbols.symm
    exact ⟨[], rfl, .refl, hend ▸ hitem⟩
  | cons t children ih =>
    intro d frames m hd hsymbols hitem hyields hfollow
    have hlt : d < p.handles.length := by
      by_contra hge
      rw [List.drop_eq_nil_of_le (Nat.le_of_not_lt hge)] at hsymbols
      cases hsymbols
    rw [List.drop_eq_getElem_cons hlt, List.map_cons, List.map_cons, List.cons.injEq] at hsymbols
    obtain ⟨hsymbol, hsymbols⟩ := hsymbols
    have hs : p.handles[d]? = some p.handles[d] := List.getElem?_eq_getElem hlt
    obtain ⟨hstarts, q, henters, hnext⟩ := hc.next hitem hp hs
    rw [List.flatMap_cons, List.length_append, ← Nat.add_assoc] at hfollow ⊢
    rw [List.flatMap_cons] at hyields
    obtain ⟨hfirst, hrest⟩ := yields_append.1 hyields
    obtain ⟨hderivation, hrun⟩ := hruns t List.mem_cons_self
    have hruns' := fun u hu => hruns u (List.mem_cons_of_mem _ hu)
    -- the token after the tree is the first one of its siblings to come
    have hahead := foresees_forest (fun u hu => hc.foresees (hruns' u hu).1) hsymbols hrest.terminal
      hfollow hrest.head?_eq
    have hreaches := hrun hsymbol henters
      (fun hkind => ⟨hstarts hkind, hc.follow hp hs hkind _ hahead⟩) hfirst
    have hnext' : (i, d + 1) ∈ c.items g (g.topOf (⟨q, t⟩ :: frames)) := hnext
    obtain ⟨fs, htrees, hreaches', hitem'⟩ := ih hruns' hlt hsymbols hnext' hrest hfollow
    refine ⟨fs ++ [⟨q, t⟩], ?_, ?_, ?_⟩
    · rw [List.reverse_append, List.reverse_singleton, List.singleton_append, List.map_cons, htrees]
    · rw [List.append_assoc, List.singleton_append]
      exact hreaches.trans hreaches'
    · rw [List.append_assoc, List.singleton_append]
      exact hitem'

theorem runs (hg : g.Loaded) (hc : c.Valid g start) {t : Tree} (ht : t.IsDerivation g) :
    c.Runs g l t := by
  induction ht with
  | leaf token =>
    -- a leaf is shifted
    intro frames m s q hs henters _ hyields
    rw [Tree.leaves_leaf] at hyields ⊢
    cases hs
    obtain ⟨rfl, herror, hterminal, -⟩ := hyields
    unfold enters? at henters
    rw [if_neg (by rw [hterminal]; exact Bool.false_ne_true)] at henters
    split at henters
    · rename_i haction
      cases henters
      exact .single (.shift herror haction)
    · cases henters
  | @node i p children hp hsymbols hchildren ih =>
    -- the children of a node are read from its first item on, and then reduced
    intro frames m s q hs henters hstart hyields
    obtain rfl : p.head = s := Option.some.inj ((Tree.symbol?_node hp).symm.trans hs)
    have hkind := hc.head_nonTerminal hp
    obtain ⟨hstarts, hfollow⟩ := hstart hkind
    rw [Tree.leaves_node] at hyields hfollow ⊢
    obtain ⟨fs, rfl, hreaches, hitem⟩ := hc.runs_forest hp
      (fun t ht => ⟨hchildren t ht, ih t ht⟩) (Nat.zero_le _) hsymbols
      (mem_items_of_starts hstarts hp rfl) hyields hfollow
    obtain ⟨herror, haction⟩ := hc.reduce hitem hp _ hfollow
    unfold enters? at henters
    rw [if_pos hkind] at henters
    have hlen : fs.length = p.handles.length := by
      simpa using congrArg List.length hsymbols
    have hmove := Move.reduce herror haction hp hlen henters
    rw [hg.index_eq hp] at hmove
    exact hreaches.tail hmove

/-- **Completeness of parsing.**  A derivation of an input from the start symbol is what the
automaton has on its stack when it accepts. -/
theorem accepts (hg : g.Loaded) (hc : c.Valid g start) {k : Nat} (hend : l.EndsAt g k)
    (hscanned : (l.tokenAt g k).symbol ∈ g.scanned) (hyields : Yields g l 0 (l.tokens g k))
    {t : Tree} (ht : t.IsDerivation g) (hs : t.symbol? g = some start)
    (hleaves : t.leaves = l.tokens g k) :
    ∃ q, Reaches g l {} ⟨[⟨q, t⟩], k⟩ ∧ Config.step g l ⟨[⟨q, t⟩], k⟩ = .error .accept := by
  obtain ⟨hstarts, q, hgoto, haccept⟩ := hc.start
  obtain ⟨hfollow, herror, haction⟩ := haccept _ hscanned hend.endOfFile
  have henters : enters? g (g.topOf []) start = some q := by
    unfold enters?
    rw [if_pos hc.start_nonTerminal]
    exact hgoto
  have hlen : 0 + t.leaves.length = k := by rw [hleaves, Lexer.length_tokens, Nat.zero_add]
  have hreaches := hc.runs hg (l := l) ht hs henters (m := 0)
    (fun _ => ⟨hstarts, by rw [hlen]; exact hfollow⟩) (by rw [hleaves]; exact hyields)
  rw [hlen] at hreaches
  exact ⟨q, hreaches, Config.step_eq_accept.2 ⟨herror, haction⟩⟩

end Valid

end ItemSets

end CompiledGrammar
