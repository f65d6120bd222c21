import CompiledGrammar.Proofs.Grammar.Loaded
import CompiledGrammar.Proofs.Lalr.Path
import CompiledGrammar.Proofs.Tree.Concrete
import CompiledGrammar.Table.Sample

/-!
# Soundness of parsing

With a consistent table, all that is on the stack has been derived from the input so far:

* the frames are linked by transitions over the symbols of their trees (`Linked`), so the handles
  that a reduction takes off make a path to the state that reduces;
* every tree is a derivation, and the leaves of all of them are the tokens shifted so far
  (`Config.Sound`, kept by every move in `Config.Sound.move`).

For that alone it is enough that reductions take off their handles (`Grammar.PopsHandles`).

When the input is accepted there is one tree left, of the start symbol (`Config.Sound.accept`), and
it is what the concrete builder has built (`Parser.derivation_of_accept`).
-/

namespace CompiledGrammar

theorem Grammar.transition?_of_shift {g : Grammar} {q t : LalrStateIdx} {s : SymbolIdx}
    (h : g.action? q s = some (.shift t)) : g.transition? q s = some t := by
  simp only [transition?, h]
  rfl

theorem Grammar.transition?_of_goto {g : Grammar} {q t : LalrStateIdx} {s : SymbolIdx}
    (h : g.goto? q s = some t) : g.transition? q s = some t := by
  simp only [transition?, action?_of_goto h]
  rfl

/-- Each frame is entered from the one below by a transition over the symbol of its tree. -/
inductive Linked (g : Grammar) : List Frame → Prop where
  /-- Nothing has been entered yet. -/
  | nil : Linked g []
  /-- One more frame. -/
  | cons {f : Frame} {frames : List Frame} {s : SymbolIdx} :
      f.tree.symbol? g = some s → g.transition? (g.topOf frames) s = some f.state →
      Linked g frames → Linked g (f :: frames)

namespace Linked

variable {g : Grammar}

/-- Frames on top of others make a path from the state below to the state on top. -/
theorem path {fs below : List Frame} (h : Linked g (fs ++ below)) :
    Linked g below ∧ ∃ symbols, g.Path (g.topOf below) symbols (g.topOf (fs ++ below)) ∧
      symbols.length = fs.length ∧
      fs.reverse.map (fun f => f.tree.symbol? g) = symbols.map some := by
  induction fs with
  | nil => exact ⟨h, [], .nil, rfl, rfl⟩
  | cons f fs ih =>
    cases h with
    | cons hsymbol htransition hrest =>
      obtain ⟨hbelow, symbols, hpath, hlen, hsymbols⟩ := ih hrest
      refine ⟨hbelow, _, .snoc hpath htransition, ?_, ?_⟩
      · rw [List.length_append, List.length_singleton, hlen, List.length_cons]
      · rw [List.reverse_cons, List.map_append, List.map_append, hsymbols, List.map_singleton,
          hsymbol, List.map_singleton]

theorem shift {l : Lexer} {frames : List Frame} {m : Nat} {state : LalrStateIdx}
    (h : Linked g frames)
    (haction : g.action? (g.topOf frames) (l.tokenAt g m).symbol = some (.shift state)) :
    Linked g (⟨state, .leaf (l.tokenAt g m)⟩ :: frames) :=
  .cons (Tree.symbol?_leaf g _) (Grammar.transition?_of_shift haction) h

theorem reduce (hg : g.Loaded) {below : List Frame} {i : ProductionIdx} {p : Production}
    {state : LalrStateIdx} {children : List Tree} (h : Linked g below)
    (hp : g.productions[i]? = some p) (hgoto : g.goto? (g.topOf below) p.head = some state) :
    Linked g (⟨state, .node p.index children⟩ :: below) :=
  .cons (Tree.symbol?_node (hg.getElem?_index hp)) (Grammar.transition?_of_goto hgoto) h

end Linked

namespace Config

variable {g : Grammar} {l : Lexer} {c d : Config} {start : SymbolIdx}

/-- What is on the stack has been derived from the input so far. -/
structure Sound (g : Grammar) (l : Lexer) (c : Config) : Prop where
  /-- The frames are linked. -/
  linked : Linked g c.frames
  /-- The trees are derivations. -/
  derivation : ∀ f ∈ c.frames, f.tree.IsDerivation g
  /-- Their leaves are the tokens that have been shifted. -/
  leaves : c.frames.reverse.flatMap (fun f => f.tree.leaves) = l.tokens g c.shifted

theorem sound_initial : Sound g l {} := ⟨.nil, nofun, rfl⟩

/-- If the configuration reduces, it takes off frames that have the symbols of the handles. -/
def PopsHandles (g : Grammar) (l : Lexer) (c : Config) : Prop :=
  ∀ {handles below : List Frame} {i : ProductionIdx} {p : Production},
    c.frames = handles ++ below →
    g.action? (c.state g) (c.lookahead g l).symbol = some (.reduce i) →
    g.productions[i]? = some p → handles.length = p.handles.length →
    handles.reverse.map (fun f => f.tree.symbol? g) = p.handles.map some

/-- With a consistent table the path to a state that reduces is over the handles. -/
theorem Sound.popsHandles (hcons : g.Consistent start) (h : Sound g l c) : c.PopsHandles g l := by
  intro handles below i p hframes haction hp hlen
  obtain ⟨frames, m⟩ := c
  obtain rfl : frames = handles ++ below := hframes
  obtain ⟨-, symbols, hpath, hlen', hsymbols⟩ := h.linked.path
  rw [hcons.reduce haction hp hpath (hlen'.trans hlen)] at hsymbols
  exact hsymbols

theorem Sound.move (hg : g.Loaded) (hpops : c.PopsHandles g l) (h : Sound g l c)
    (hmove : Move g l c d) : Sound g l d := by
  have hleaves := leaves_of_move hmove h.leaves
  obtain ⟨hlinked, hderivation, -⟩ := h
  cases hmove with
  | shift herror haction =>
    exact ⟨hlinked.shift haction, List.forall_mem_cons.2 ⟨.leaf _, hderivation⟩, hleaves⟩
  | reduce herror haction hp hlen hgoto =>
    refine ⟨hlinked.path.1.reduce hg hp hgoto, List.forall_mem_cons.2 ⟨?_, ?_⟩, hleaves⟩
    · refine .node (hg.getElem?_index hp) ?_ (List.forall_mem_map.2 fun f hf => ?_)
      · rw [List.map_map]
        exact hpops rfl haction hp hlen
      · exact hderivation f (List.mem_append_left _ (List.mem_reverse.1 hf))
    · exact fun f hf => hderivation f (List.mem_append_right _ hf)

theorem Sound.reaches (hg : g.Loaded) (hcons : g.Consistent start) (h : Sound g l c)
    (hreaches : Reaches g l c d) : Sound g l d := by
  induction hreaches with
  | refl => exact h
  | tail _ hmove ih => exact ih.move hg (ih.popsHandles hcons) hmove

/-- Where the input is accepted, the stack is one derivation of the start symbol. -/
theorem Sound.accept (hcons : g.Consistent start) (h : Sound g l c)
    (haccept : c.step g l = .error .accept) :
    ∃ f, c.frames = [f] ∧ f.tree.IsDerivation g ∧ f.tree.symbol? g = some start ∧
      f.tree.leaves = l.tokens g c.shifted := by
  obtain ⟨-, haction⟩ := step_eq_accept.1 haccept
  obtain ⟨frames, m⟩ := c
  obtain ⟨hlinked, hderivation, hleaves⟩ := h
  cases hlinked with
  | nil => exact absurd haction hcons.not_accept_initial
  | @cons f below s hsymbol htransition hbelow =>
    obtain ⟨hinitial, rfl⟩ := hcons.accept haction htransition
    cases hbelow with
    | nil =>
      refine ⟨f, rfl, hderivation f List.mem_cons_self, hsymbol, ?_⟩
      simpa using hleaves
    | @cons below rest _ _ henter _ =>
      -- the state below is the initial one, and would have been entered
      replace hinitial : below.state = g.lalrInitial := hinitial
      rw [hinitial] at henter
      exact absurd henter hcons.not_enter_initial

end Config

/-- On the input of a lexer, every reduction takes off frames that have the symbols of its
handles. -/
def Grammar.PopsHandles (g : Grammar) (l : Lexer) : Prop :=
  ∀ c, Reaches g l {} c → c.PopsHandles g l

theorem Grammar.Consistent.popsHandles {g : Grammar} {start : SymbolIdx}
    (hcons : g.Consistent start) (hg : g.Loaded) (l : Lexer) : g.PopsHandles l :=
  fun _ hreaches => (Config.sound_initial.reaches hg hcons hreaches).popsHandles hcons

/-- That is enough for the trees on the stack to be derivations. -/
theorem Grammar.PopsHandles.sound {g : Grammar} {l : Lexer} {c : Config} (hpops : g.PopsHandles l)
    (hg : g.Loaded) (hreaches : Reaches g l {} c) : c.Sound g l := by
  induction hreaches with
  | refl => exact Config.sound_initial
  | tail hreaches hmove ih => exact ih.move hg (hpops _ hreaches) hmove

/-- **Soundness of parsing.**  If the table is consistent and the input is accepted, then one item
is left on the stack, for the start symbol, and what the concrete builder has built is a derivation
of the start symbol.  Its leaves are the tokens that were read before the one that was accepted
on. -/
theorem Parser.derivation_of_accept {g : Grammar} {start : SymbolIdx} (hg : g.Loaded)
    (hcons : g.Consistent start) {l : Lexer} {n : Nat} {b : ConcreteBuilder} {p : Parser NodeId}
    (h : (Parser.start g l false).runWith g ConcreteBuilder.onEvent n {} = some (.accept, b, p)) :
    ∃ item root t k,
      p.stack g = [⟨g.lalrInitial, .bottom, none⟩, item] ∧ item.origin.symbol? g = some start ∧
      b.root = some root ∧ b.arena.Represents root t ∧
      t.IsDerivation g ∧ t.symbol? g = some start ∧ t.leaves = l.tokens g k ∧
      p.lookahead = .pending (l.tokenAt g k) := by
  have hends := ConcreteBuilder.endsAs g l n
  rw [h] at hends
  obtain ⟨d, hrun⟩ := hends.exists_accept
  obtain ⟨hreaches, haccept⟩ := Config.reaches_of_run hrun
  obtain ⟨f, hframes, hderivation, hsymbol, hleaves⟩ :=
    (Config.sound_initial.reaches hg hcons hreaches).accept hcons haccept
  obtain ⟨b', p', hresult, hat, hlookahead, hroot⟩ := ConcreteBuilder.root_of_accept hrun
  rw [h] at hresult
  cases hresult
  rw [hframes] at hroot
  obtain ⟨root, hroot, hrepresents⟩ := hroot
  have hitems := hat.items
  rw [hframes] at hitems
  cases hp : p.items with
  | nil => rw [hp] at hitems; cases hitems
  | cons item items =>
    rw [hp] at hitems
    obtain ⟨hitem, hrest⟩ := List.forall₂_cons.1 hitems
    cases hrest
    refine ⟨item, root, f.tree, d.shifted, ?_, ?_, hroot, hrepresents, hderivation, hsymbol,
      hleaves, hlookahead⟩
    · simp only [Parser.stack, hp, List.reverse_singleton]
    · rw [hitem.origin]
      exact hsymbol

set_option maxRecDepth 10000 in
/-- The list `[a]` of the sample grammar of lists is accepted, and derived. -/
theorem Parser.derivation_of_accept_list :
    ∃ g, Grammar.ofBytes Sample.lists.toBytes = .ok g ∧ ∃ b p,
      (Parser.start g (({} : Lexer).load (.owned "[a]")) false).runWith g ConcreteBuilder.onEvent
        20 {} = some (.accept, b, p) ∧
      ∃ item root t k,
        p.stack g = [⟨g.lalrInitial, .bottom, none⟩, item] ∧ item.origin.symbol? g = some 10 ∧
        b.root = some root ∧ b.arena.Represents root t ∧
        t.IsDerivation g ∧ t.symbol? g = some 10 ∧
        t.leaves = (({} : Lexer).load (.owned "[a]")).tokens g k ∧
        p.lookahead = .pending ((({} : Lexer).load (.owned "[a]")).tokenAt g k) := by
  have hcheck : Grammar.loadsWith Sample.lists.toBytes (fun g => g.checkConsistent 10 &&
      ((Parser.start g (({} : Lexer).load (.owned "[a]")) false).runWith g ConcreteBuilder.onEvent
        20 {}).any (fun result => result.1 == .accept)) = true := by
    decide +kernel
  obtain ⟨g, hload, hg⟩ := Grammar.exists_of_loadsWith hcheck
  obtain ⟨hcons, hrun⟩ := Bool.and_eq_true_iff.1 hg
  obtain ⟨⟨event, b, p⟩, hresult, hevent⟩ := (Option.any_eq_true _ _).1 hrun
  obtain rfl : event = .accept := by simpa using hevent
  exact ⟨g, hload, b, p, hresult,
    derivation_of_accept (.ofBytes hload) (Grammar.consistent_of_check hcons) hresult⟩

end CompiledGrammar
