import CompiledGrammar.Proofs.Parser.Machine
import Mathlib.Data.List.Forall2

/-!
# Parsers follow the automaton

A parser that does not trim reductions takes the steps of the parsing automaton, and a builder that
watches it builds what the automaton has on its stack.

* `Parser.At` places a parser at a configuration of the automaton: the items of its stack stand for
  the frames, and its lexer is where the next token comes from;
* `Tracks` is what a handler has to keep up: a relation between its state, the items with the
  payloads it gave them, and the trees on the stack of the automaton.  It does so for shifts and for
  reductions, one at a time;
* `Tracks.runWith` concludes that a whole run ends as that of the automaton does, in as many steps,
  with the relation still there if the input is accepted.
-/

namespace CompiledGrammar

/-- Lists that are related one after the other are related one by one. -/
theorem forall₂_of_append {α β : Type} {R : α → β → Prop} {as as' : List α} {bs bs' : List β}
    (hlen : as.length = bs.length) (h : List.Forall₂ R (as ++ as') (bs ++ bs')) :
    List.Forall₂ R as bs ∧ List.Forall₂ R as' bs' := by
  have htake := List.forall₂_take as.length h
  have hdrop := List.forall₂_drop as.length h
  rw [List.take_left, List.take_left' hlen.symm] at htake
  rw [List.drop_left, List.drop_left' hlen.symm] at hdrop
  exact ⟨htake, hdrop⟩

/-- An item stands for a frame: it leads to its state, and came from the root of its tree. -/
structure Item.StandsFor {τ : Type} (item : Item τ) (frame : Frame) : Prop where
  state : item.state = frame.state
  origin : item.origin = frame.tree.origin

namespace Parser

variable {σ τ : Type}

/-- A parser is at a configuration of the automaton that takes its tokens from `l`. -/
structure At (g : Grammar) (l : Lexer) (c : Config) (p : Parser τ) : Prop where
  /-- It does not trim. -/
  plain : p.trim = false
  /-- Its state is the one on top of the stack. -/
  state : p.state = c.state g
  /-- Its items stand for the frames. -/
  items : List.Forall₂ Item.StandsFor p.items c.frames
  /-- The next token has been read, or is the next one to be read. -/
  input : (p.lookahead = .pending (c.lookahead g l) ∧ p.lexer = l.skip g (c.shifted + 1)) ∨
    ((∀ t, p.lookahead ≠ .pending t) ∧ p.lexer = l.skip g c.shifted)

variable {g : Grammar} {l : Lexer} {c : Config} {p : Parser τ}

theorem at_start (g : Grammar) (l : Lexer) : At g l {} (start g l false : Parser τ) :=
  ⟨rfl, rfl, .nil, Or.inr ⟨(nofun), rfl⟩⟩

theorem items_setPayload {item : Item τ} {items : List (Item τ)} (h : p.items = item :: items)
    (payload : Option τ) : (p.setPayload payload).items = { item with payload } :: items := by
  simp only [setPayload, h]

theorem setPayload_self {item : Item τ} {items : List (Item τ)} (h : p.items = item :: items) :
    p.setPayload item.payload = p := by
  simp only [setPayload, h]
  cases p
  simp_all

theorem topState_eq {items : List (Item τ)} {frames : List Frame}
    (h : List.Forall₂ Item.StandsFor items frames) : g.topState items = g.topOf frames := by
  cases h with
  | nil => rfl
  | cons hf _ => exact hf.state

namespace At

/-- Whatever is attached to an item, it stands for the same frame. -/
theorem setPayload (h : At g l c p) (payload : Option τ) : At g l c (p.setPayload payload) := by
  cases hitems : p.items with
  | nil => simpa only [Parser.setPayload, hitems] using h
  | cons item items =>
    have hstand := h.items
    rw [hitems] at hstand
    cases hframes : c.frames with
    | nil => rw [hframes] at hstand; cases hstand
    | cons frame frames =>
      rw [hframes] at hstand
      obtain ⟨hitem, hrest⟩ := List.forall₂_cons.1 hstand
      simp only [Parser.setPayload, hitems]
      exact ⟨h.plain, h.state, by rw [hframes]; exact .cons ⟨hitem.state, hitem.origin⟩ hrest,
        h.input⟩

theorem setReduction (h : At g l c p) (reduction : Option (Reduction τ)) :
    At g l c { p with reduction } :=
  ⟨h.plain, h.state, h.items, h.input⟩

/-- Looking at the next token changes nothing else. -/
theorem look (h : At g l c p) : ∃ q, p.look g = (c.lookahead g l, q) ∧ At g l c q ∧
    q.items = p.items ∧ q.lookahead = .pending (c.lookahead g l) := by
  rcases h.input with ⟨hpending, hlexer⟩ | ⟨hnot, hlexer⟩
  · -- the token has been read before
    refine ⟨{ p with reduction := none }, ?_,
      ⟨h.plain, h.state, h.items, Or.inl ⟨hpending, hlexer⟩⟩, rfl, hpending⟩
    simp only [Parser.look, hpending]
  · -- the token is read now
    have hread := Lexer.readToken_skip (g := g) (l := l) c.shifted
    refine ⟨{ p with
        lexer := l.skip g (c.shifted + 1), lookahead := .pending (c.lookahead g l)
        reduction := none }, ?_,
      ⟨h.plain, h.state, h.items, Or.inl ⟨rfl, rfl⟩⟩, rfl, rfl⟩
    unfold Parser.look
    split
    · rename_i token htoken
      exact absurd htoken (hnot token)
    · rw [hlexer, hread]
      rfl

end At

/-- A step of the automaton from `c`, and the step of a parser that follows it from `p`. -/
inductive Follows (g : Grammar) (l : Lexer) (c : Config) (p : Parser τ) :
    Except Verdict Config → Event × Parser τ → Prop where
  /-- Both shift the next token. -/
  | shift {q : Parser τ} {state : LalrStateIdx} :
      At g l ⟨⟨state, .leaf (c.lookahead g l)⟩ :: c.frames, c.shifted + 1⟩ q →
      q.items = ⟨state, .shifted (c.lookahead g l), none⟩ :: p.items →
      q.lookahead = .consumed (c.lookahead g l) →
      Follows g l c p
        (.ok ⟨⟨state, .leaf (c.lookahead g l)⟩ :: c.frames, c.shifted + 1⟩) (.shift, q)
  /-- Both reduce a production. -/
  | reduce {q : Parser τ} {i : ProductionIdx} {production : Production} {state : LalrStateIdx}
      {handles below : List (Item τ)} {hs fs : List Frame} :
      g.productions[i]? = some production →
      p.items = handles ++ below → c.frames = hs ++ fs → handles.length = hs.length →
      hs.length = production.handles.length →
      At g l ⟨⟨state, .node production.index (hs.reverse.map Frame.tree)⟩ :: fs, c.shifted⟩ q →
      q.items = ⟨state, .reduced production.index, none⟩ :: below →
      q.reduction = some ⟨production.index, handles.reverse⟩ →
      Follows g l c p
        (.ok ⟨⟨state, .node production.index (hs.reverse.map Frame.tree)⟩ :: fs, c.shifted⟩)
        (.reduce, q)
  /-- Both accept. -/
  | accept {q : Parser τ} :
      At g l c q → q.items = p.items → q.lookahead = .pending (c.lookahead g l) →
      Follows g l c p (.error .accept) (.accept, q)
  /-- Both fail. -/
  | fail {q : Parser τ} {fault : ParseFault} :
      q.error = some ⟨fault, c.state g, c.lookahead g l⟩ →
      Follows g l c p (.error (.fail fault)) (.error, q)

namespace At

variable {q : Parser τ}

theorem follows_fail (hq : q.state = c.state g) (fault : ParseFault) (items : List (Item τ)) :
    Follows g l c p (.error (.fail fault)) ({ q with items }.fail fault (c.lookahead g l)) :=
  .fail (by simp only [← hq])

/-- A reduction takes off the items that stand for the frames that the automaton takes off. -/
theorem reduce (h : At g l c q) (hitems : q.items = p.items)
    (hinput : q.lookahead = .pending (c.lookahead g l)) (i : ProductionIdx) :
    Follows g l c p (c.reduce g i) (q.reduce g i (c.lookahead g l)) := by
  obtain ⟨frames, m⟩ := c
  unfold Parser.reduce
  cases hi : g.productions[i]? with
  | none =>
    simp only [Config.reduce, hi]
    exact follows_fail h.state .internal q.items
  | some production =>
    simp only [h.plain, Bool.false_and, Bool.false_eq_true, ↓reduceIte]
    rcases lt_or_exists_append frames production.handles.length with hlt | ⟨hs, fs, rfl, hlen⟩
    · rw [Config.reduce_of_lt hi hlt, replace_of_lt (by rw [h.items.length_eq]; exact hlt)]
      exact follows_fail h.state .internal q.items
    · have hge : ¬ q.items.length < production.handles.length := by
        rw [h.items.length_eq, List.length_append, hlen]
        omega
      -- as many items as frames are taken off, so those that stay still stand for each other
      obtain ⟨handles, below, hsplit, hn⟩ := (lt_or_exists_append q.items _).resolve_left hge
      have hlen' : handles.length = hs.length := hn.trans hlen.symm
      obtain ⟨-, hbelow⟩ := forall₂_of_append hlen' (hsplit ▸ h.items)
      rw [Config.reduce_append hi hlen, replace_append hsplit hn, topState_eq hbelow]
      cases g.goto? (g.topOf fs) production.head with
      | none => exact follows_fail h.state .internal below
      | some state =>
        have hstand : Item.StandsFor (⟨state, .reduced production.index, none⟩ : Item τ)
            ⟨state, .node production.index (hs.reverse.map Frame.tree)⟩ := ⟨rfl, rfl⟩
        exact .reduce hi (hitems ▸ hsplit) rfl hlen' hlen
          ⟨h.plain, rfl, .cons hstand hbelow, h.input⟩ rfl rfl

/-- A parser follows the automaton step by step. -/
theorem step (h : At g l c p) : Follows g l c p (c.step g l) (p.step g) := by
  obtain ⟨q, hlook, hq, hitems, hpending⟩ := h.look
  rw [step_eq, hlook]
  have hfail := fun fault => follows_fail (l := l) (p := p) hq.state fault q.items
  unfold Config.step act
  split
  · exact hfail _
  rw [hq.state]
  cases g.action? (c.state g) (c.lookahead g l).symbol with
  | none => exact hfail _
  | some action =>
    cases action with
    | shift state =>
      refine .shift ⟨hq.plain, rfl, .cons ⟨rfl, rfl⟩ hq.items, Or.inr ⟨nofun, ?_⟩⟩ ?_ rfl
      · rcases hq.input with ⟨-, hlexer⟩ | ⟨hnot, -⟩
        · exact hlexer
        · exact absurd hpending (hnot _)
      · simp only [hitems]
    | reduce i => exact hq.reduce hitems hpending i
    | accept => exact .accept hq hitems hpending
    | goto state => exact hfail _

end At

end Parser

/-! ### Handlers -/

section

variable {σ τ : Type}

/-- The handler keeps up a relation between its state, the items of the stack and the trees they
stand for: the one that holds below a new item is extended to it, by what the handler does to its
own state and to the payload of the new item. -/
structure Tracks (g : Grammar) (handler : Handler σ τ)
    (R : σ → List (Item τ) → List Tree → Prop) : Prop where
  /-- It does so for a token that was shifted. -/
  shift : ∀ {s : σ} {p : Parser τ} {state : LalrStateIdx} {token : Token} {items : List (Item τ)}
    {trees : List Tree}, R s items trees → p.items = ⟨state, .shifted token, none⟩ :: items →
    p.lookahead = .consumed token →
    ∃ s' payload, handler .shift s p = (s', p.setPayload payload) ∧
      R s' (⟨state, .shifted token, payload⟩ :: items) (.leaf token :: trees)
  /-- It does so for a production that was reduced. -/
  reduce : ∀ {s : σ} {p : Parser τ} {state : LalrStateIdx} {i : ProductionIdx}
    {production : Production} {handles below : List (Item τ)} {hs ts : List Tree},
    R s (handles ++ below) (hs ++ ts) → g.productions[i]? = some production →
    handles.length = hs.length → hs.length = production.handles.length →
    p.items = ⟨state, .reduced production.index, none⟩ :: below →
    p.reduction = some ⟨production.index, handles.reverse⟩ →
    ∃ s' payload, handler .reduce s p = (s', p.setPayload payload) ∧
      R s' (⟨state, .reduced production.index, payload⟩ :: below)
        (.node production.index hs.reverse :: ts)

/-- How a run of a parser ends, given how the run of the automaton does.  The handler has been told
of the verdict; the relation is the one before that. -/
def EndsAs (g : Grammar) (l : Lexer) (handler : Handler σ τ)
    (R : σ → List (Item τ) → List Tree → Prop) :
    Option (Config × Verdict) → Option (Event × σ × Parser τ) → Prop
  | none, result => result = none
  | some (d, .accept), result => ∃ s q, result = some (.accept, handler .accept s q) ∧
      R s q.items (d.frames.map Frame.tree) ∧ Parser.At g l d q ∧
      q.lookahead = .pending (d.lookahead g l)
  | some (d, .fail fault), result => ∃ s q, result = some (.error, handler .error s q) ∧
      q.error = some ⟨fault, d.state g, d.lookahead g l⟩

variable {g : Grammar} {l : Lexer} {handler : Handler σ τ}
  {R : σ → List (Item τ) → List Tree → Prop}

/-- Only a run of the automaton that accepts makes the parser accept. -/
theorem EndsAs.exists_accept {outcome : Option (Config × Verdict)} {s : σ} {q : Parser τ}
    (h : EndsAs g l handler R outcome (some (.accept, s, q))) :
    ∃ d, outcome = some (d, .accept) := by
  match outcome, h with
  | some (d, .accept), _ => exact ⟨d, rfl⟩
  | some (d, .fail fault), h =>
    obtain ⟨_, _, h, -⟩ := h
    cases h

namespace Tracks

/-- The relation goes on over a step that a parser takes with the automaton, and so does that of any
parser `r` that holds the same after the step. -/
theorem follows (htracks : Tracks g handler R) {s : σ} {p q r : Parser τ} {c d : Config} {e : Event}
    (h : Parser.Follows g l c p (.ok d) (e, q)) (hR : R s p.items (c.frames.map Frame.tree))
    (hitems : r.items = q.items) (hlookahead : r.lookahead = q.lookahead)
    (hreduction : r.reduction = q.reduction) :
    e.isFinal = false ∧ q.At g l d ∧ ∃ s' payload, handler e s r = (s', r.setPayload payload) ∧
      R s' (r.setPayload payload).items (d.frames.map Frame.tree) := by
  cases h with
  | @shift q state hq hpush hconsumed =>
    obtain ⟨s', payload, hhandler, hR'⟩ :=
      htracks.shift hR (hitems.trans hpush) (hlookahead.trans hconsumed)
    refine ⟨rfl, hq, s', payload, hhandler, ?_⟩
    rw [Parser.items_setPayload (hitems.trans hpush)]
    exact hR'
  | @reduce q i production state handles below hs fs hi hsplit hframes hlen hn hq hpush htaken =>
    rw [hsplit, hframes, List.map_append] at hR
    obtain ⟨s', payload, hhandler, hR'⟩ := htracks.reduce hR hi (by rw [hlen, List.length_map])
      (by rw [List.length_map, hn]) (hitems.trans hpush) (hreduction.trans htaken)
    refine ⟨rfl, hq, s', payload, hhandler, ?_⟩
    rw [Parser.items_setPayload (hitems.trans hpush), List.map_cons, List.map_reverse]
    exact hR'

/-- **A builder follows the automaton.**  A parser that a handler watches runs as the automaton
does, and the relation that the handler keeps up holds at the end. -/
theorem runWith (htracks : Tracks g handler R) (n : Nat) {s : σ} {p : Parser τ} {c : Config}
    (hp : p.At g l c) (hR : R s p.items (c.frames.map Frame.tree)) :
    EndsAs g l handler R (c.run g l n) (p.runWith g handler n s) := by
  -- by induction on the number of steps, both sides of which take one and then go on
  induction n generalizing s p c with
  | zero => rfl
  | succ n ih =>
    have hfollows := hp.step
    unfold Config.run Parser.runWith Parser.stepWith
    generalize c.step g l = outcome at hfollows
    generalize p.step g = result at hfollows
    obtain ⟨e, q⟩ := result
    cases outcome with
    | ok d =>
      obtain ⟨hfinal, hq, s', payload, hhandler, hR'⟩ := htracks.follows hfollows hR rfl rfl rfl
      simp only [hhandler, hfinal, Bool.false_eq_true, ↓reduceIte]
      exact ih (hq.setPayload payload) hR'
    | error verdict =>
      cases hfollows with
      | accept hq hitems hlookahead => exact ⟨s, q, rfl, hitems ▸ hR, hq, hlookahead⟩
      | fail herror => exact ⟨s, q, rfl, herror⟩

end Tracks

/-! ### Runs that nobody watches -/

/-- The handler that does nothing. -/
def passive : Handler σ τ := fun _ s p => (s, p)

theorem tracks_passive :
    Tracks g (passive : Handler Unit τ) fun _ _ _ => True where
  shift _ hitems _ := ⟨(), none, by rw [Parser.setPayload_self hitems]; rfl, trivial⟩
  reduce _ _ _ _ hitems _ := ⟨(), none, by rw [Parser.setPayload_self hitems]; rfl, trivial⟩

theorem Parser.run_eq_runWith (n : Nat) (p : Parser τ) :
    p.run g n = (p.runWith g passive n ()).map fun (event, _, q) => (event, q) := by
  unfold Parser.run
  induction n generalizing p with
  | zero => rfl
  | succ n ih =>
    have hwith : p.runWith g passive (n + 1) () =
        if (p.step g).1.isFinal then some ((p.step g).1, (), (p.step g).2)
        else (p.step g).2.runWith g passive n () := rfl
    rw [hwith, Parser.runUntil]
    dsimp only
    split
    · rfl
    · exact ih _

theorem Parser.run_of_accept {n : Nat} {d : Config}
    (h : Config.run g l n {} = some (d, .accept)) :
    ∃ q, (Parser.start g l false : Parser τ).run g n = some (.accept, q) := by
  have hends := (tracks_passive (τ := τ)).runWith n (s := ()) (Parser.at_start g l) trivial
  rw [h] at hends
  obtain ⟨_, q, hresult, -⟩ := hends
  exact ⟨q, by rw [run_eq_runWith, hresult]; rfl⟩

/-- What a parser accepts is accepted by the automaton. -/
theorem Parser.exists_run_of_accept {n : Nat} {q : Parser τ}
    (h : (Parser.start g l false : Parser τ).run g n = some (.accept, q)) :
    ∃ d, Config.run g l n {} = some (d, .accept) := by
  have hends := (tracks_passive (τ := τ)).runWith n (s := ()) (Parser.at_start g l) trivial
  rw [run_eq_runWith] at h
  obtain ⟨⟨event, _, r⟩, hrun, hevent⟩ := Option.map_eq_some_iff.1 h
  cases hevent
  rw [hrun] at hends
  exact hends.exists_accept

theorem Parser.run_of_fail {n : Nat} {d : Config} {fault : ParseFault}
    (h : Config.run g l n {} = some (d, .fail fault)) :
    ∃ q, (Parser.start g l false : Parser τ).run g n = some (.error, q) ∧
      q.error = some ⟨fault, d.state g, d.lookahead g l⟩ := by
  have hends := (tracks_passive (τ := τ)).runWith n (s := ()) (Parser.at_start g l) trivial
  rw [h] at hends
  obtain ⟨_, q, hresult, herror⟩ := hends
  exact ⟨q, by rw [run_eq_runWith, hresult]; rfl, herror⟩

end

end CompiledGrammar
