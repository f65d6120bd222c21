import CompiledGrammar.Proofs.Parser.Tracking
import CompiledGrammar.Tree.Concrete

/-!
# Concrete trees are the trees of the automaton

The concrete builder gives each item of the stack a node at which its arena holds the tree of the
item (`ConcreteBuilder.tracks`).  At the end of an accepted input the root is the node of the
topmost item (`ConcreteBuilder.root_of_accept`).
-/

namespace CompiledGrammar

/-- The payload of the item is a node at which the arena holds the tree. -/
def Arena.Holds (a : Arena) (item : Item NodeId) (t : Tree) : Prop :=
  ∃ id, item.payload = some id ∧ a.Represents id t

namespace Arena

variable {a : Arena} {items : List (Item NodeId)} {trees : List Tree}

theorem Holds.alloc {item : Item NodeId} {t : Tree} (h : a.Holds item t) (n : Node) :
    (a.alloc n).2.Holds item t := by
  obtain ⟨id, hid, ht⟩ := h
  exact ⟨id, hid, ht.alloc n⟩

theorem represents_payloads (h : List.Forall₂ a.Holds items trees) :
    List.Forall₂ a.Represents (items.filterMap Item.payload) trees := by
  induction h with
  | nil => exact .nil
  | cons hfirst _ ih =>
    obtain ⟨id, hid, ht⟩ := hfirst
    rw [List.filterMap_cons_some hid]
    exact .cons ht ih

/-- The tree of the topmost item is held at its payload. -/
theorem represents_topPayload {p : Parser NodeId} (h : List.Forall₂ a.Holds p.items trees) :
    match trees.head? with
    | some t => ∃ root, p.topPayload? = some root ∧ a.Represents root t
    | none => p.topPayload? = none := by
  unfold Parser.topPayload? Parser.top?
  generalize p.items = items at h
  cases h with
  | nil => rfl
  | cons hfirst _ =>
    obtain ⟨id, hid, ht⟩ := hfirst
    exact ⟨id, hid, ht⟩

end Arena

/-- Shifting makes a node of the token that was shifted. -/
theorem Arena.allocShifted_eq {a : Arena} {p : Parser NodeId} {token : Token}
    (h : p.lookahead = .consumed token) :
    a.allocShifted p = ((a.allocTerm token).2, p.setPayload (some (a.allocTerm token).1)) := by
  unfold allocShifted
  rw [h]
  rfl

namespace ConcreteBuilder

variable {g : Grammar} {l : Lexer}

/-- The builder holds the trees of all items. -/
def Builds (b : ConcreteBuilder) (items : List (Item NodeId)) (trees : List Tree) : Prop :=
  List.Forall₂ b.arena.Holds items trees

theorem tracks : Tracks g onEvent Builds where
  shift {b p state token items trees} hbuilds hitems hlookahead := by
    refine ⟨{ b with arena := (b.arena.allocTerm token).2 }, some (b.arena.allocTerm token).1, ?_,
      .cons ⟨_, rfl, Arena.represents_allocTerm token⟩ (hbuilds.imp fun _ _ h => h.alloc _)⟩
    simp only [onEvent, Arena.allocShifted_eq hlookahead]
  reduce {b p state i production handles below hs ts} hbuilds hi hlen _ hitems hreduction := by
    obtain ⟨hhandles, hbelow⟩ := forall₂_of_append hlen hbuilds
    have hids := Arena.represents_payloads (List.forall₂_reverse_iff.2 hhandles)
    have hnode := Arena.represents_allocNonterm (p := production.index) hids
    refine ⟨{ b with arena := (b.arena.allocNonterm _ _).2 }, _, ?_,
      .cons ⟨_, rfl, hnode⟩ (hbelow.imp fun _ _ h => h.alloc _)⟩
    simp only [onEvent, hreduction]

theorem endsAs (g : Grammar) (l : Lexer) (n : Nat) :
    EndsAs g l onEvent Builds (Config.run g l n {})
      ((Parser.start g l false).runWith g onEvent n {}) :=
  tracks.runWith n (Parser.at_start g l) .nil

/-- When the input is accepted, the root is the node of the topmost item. -/
theorem root_of_accept {n : Nat} {d : Config} (h : Config.run g l n {} = some (d, .accept)) :
    ∃ b q, (Parser.start g l false).runWith g onEvent n {} = some (.accept, b, q) ∧
      Parser.At g l d q ∧ q.lookahead = .pending (d.lookahead g l) ∧
      match d.frames.head? with
      | some f => ∃ root, b.root = some root ∧ b.arena.Represents root f.tree
      | none => b.root = none := by
  have hends := endsAs g l n
  rw [h] at hends
  obtain ⟨b, q, hresult, hbuilds, hq, hlookahead⟩ := hends
  refine ⟨_, q, hresult, hq, hlookahead, ?_⟩
  have hroot := Arena.represents_topPayload hbuilds
  rw [List.head?_map] at hroot
  cases hframe : d.frames.head? with
  | none => rw [hframe] at hroot; exact hroot
  | some f => rw [hframe] at hroot; exact hroot

end ConcreteBuilder

end CompiledGrammar
