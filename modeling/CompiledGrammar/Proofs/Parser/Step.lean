import CompiledGrammar.Parser.Run

/-!
# Single steps

A step looks at a token (`Parser.look`) and then acts on it (`Parser.act`).  What an action does
depends on the token, the state on top of the stack and, for reductions, on the items that the
handles of the production take off the stack.

* `Parser.replace_append` says what replacing the handles of a production comes to once the stack
  is split into the handles and what lies below them;
* `Parser.replace_of_lt` says that it fails if there are too few items.
-/

namespace CompiledGrammar

/-- A list is too short for `n` elements, or starts with so many. -/
theorem lt_or_exists_append {α : Type} (xs : List α) (n : Nat) :
    xs.length < n ∨ ∃ front rest, xs = front ++ rest ∧ front.length = n := by
  by_cases h : xs.length < n
  · exact Or.inl h
  · have hlen : (xs.take n).length = n := List.length_take_of_le (Nat.le_of_not_lt h)
    exact Or.inr ⟨xs.take n, xs.drop n, (List.take_append_drop n xs).symm, hlen⟩

namespace Parser

variable {τ : Type} (g : Grammar)

/-- Act on a token that has been looked at. -/
def act (token : Token) (p : Parser τ) : Event × Parser τ :=
  if g.hasKind token.symbol .error then p.fail .lexical token
  else
    match g.action? p.state token.symbol with
    | none => p.fail (.syntactic (g.expectedIn p.state)) token
    | some (.shift state) => p.shift state token
    | some (.reduce production) => p.reduce g production token
    | some .accept => (.accept, p)
    | some (.goto _) => p.fail .internal token

theorem step_eq (p : Parser τ) : p.step g = (p.look g).2.act g (p.look g).1 := rfl

/-- A run takes a step, tells the handler, and goes on unless the step was the last one. -/
theorem runWith_succ {σ : Type} (handler : Handler σ τ) (n : Nat) (s : σ) (p : Parser τ) :
    p.runWith g handler (n + 1) s =
      if (p.step g).1.isFinal then some ((p.step g).1, handler (p.step g).1 s (p.step g).2)
      else (handler (p.step g).1 s (p.step g).2).2.runWith g handler n
        (handler (p.step g).1 s (p.step g).2).1 := rfl

variable {g} {p : Parser τ} {production : Production} {token : Token}

theorem replace_of_lt (h : p.items.length < production.handles.length) :
    p.replace g production token = p.fail .internal token := by
  unfold replace
  rw [if_pos (by simp only [List.length_reverse, List.length_take]; omega)]

/-- The handles are the topmost items, and the head goes on top of what lies below them. -/
theorem replace_append {handles below : List (Item τ)} (hitems : p.items = handles ++ below)
    (hlen : handles.length = production.handles.length) :
    p.replace g production token =
      match g.goto? (g.topState below) production.head with
      | some state =>
        (.reduce,
          { p with
            state, items := ⟨state, .reduced production.index, none⟩ :: below
            reduction := some ⟨production.index, handles.reverse⟩ })
      | none => { p with items := below }.fail .internal token := by
  have htake : p.items.take production.handles.length = handles := by
    rw [hitems, ← hlen, List.take_left]
  have hdrop : p.items.drop production.handles.length = below := by
    rw [hitems, ← hlen, List.drop_left]
  have henough : ¬ handles.reverse.length < production.handles.length := by
    rw [List.length_reverse, hlen]
    exact Nat.lt_irrefl _
  cases hgoto : g.goto? (g.topState below) production.head <;>
    simp only [replace, htake, hdrop, if_neg henough, hgoto]

end Parser

end CompiledGrammar
