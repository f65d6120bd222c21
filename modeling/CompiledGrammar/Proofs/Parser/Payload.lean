import CompiledGrammar.Proofs.Parser.Trimming

/-!
# Parsers do not look at payloads

What a parser does depends on the states and origins of its items only.

* `Parser.mapPayload` changes all payloads of a parser, and goes along with every step
  (`Parser.step_mapPayload`).
* A handler that only attaches payloads (`Handler.Attaches`) therefore changes nothing about the way
  that a parser takes: it is told of the same events in the same states as if nobody were watching
  (`Parser.told_eq_steps`).
-/

namespace CompiledGrammar

variable {σ τ υ : Type}

/-! ### Changing payloads -/

/-- The item with another payload. -/
def Item.mapPayload (f : Option τ → Option υ) (item : Item τ) : Item υ :=
  ⟨item.state, item.origin, f item.payload⟩

/-- The reduction with other payloads. -/
def Reduction.mapPayload (f : Option τ → Option υ) (r : Reduction τ) : Reduction υ :=
  ⟨r.production, r.handles.map (·.mapPayload f)⟩

namespace Parser

/-- The parser with other payloads. -/
def mapPayload (f : Option τ → Option υ) (p : Parser τ) : Parser υ where
  lexer := p.lexer
  trim := p.trim
  state := p.state
  items := p.items.map (·.mapPayload f)
  lookahead := p.lookahead
  reduction := p.reduction.map (·.mapPayload f)
  error := p.error

variable {g : Grammar} {f : Option τ → Option υ}

theorem topState_map (items : List (Item τ)) :
    g.topState (items.map (·.mapPayload f)) = g.topState items := by
  cases items <;> rfl

theorem setPayload_mapPayload (p : Parser τ) (payload : Option τ) :
    (p.setPayload payload).mapPayload f = (p.mapPayload f).setPayload (f payload) := by
  obtain ⟨lexer, trim, state, items, lookahead, reduction, error⟩ := p
  cases items <;> rfl

theorem look_mapPayload (p : Parser τ) :
    (p.mapPayload f).look g = ((p.look g).1, (p.look g).2.mapPayload f) := by
  obtain ⟨lexer, trim, state, items, lookahead, reduction, error⟩ := p
  cases lookahead <;> rfl

theorem rename_mapPayload (p : Parser τ) (production : Production) (token : Token) :
    (p.mapPayload f).rename g production token =
      ((p.rename g production token).1, (p.rename g production token).2.mapPayload f) := by
  obtain ⟨lexer, trim, state, items, lookahead, reduction, error⟩ := p
  cases items with
  | nil => rfl
  | cons item items =>
    simp only [rename, mapPayload, List.map_cons, topState_map]
    cases g.goto? (g.topState items) production.head <;> rfl

theorem replace_mapPayload (hf : f none = none) (p : Parser τ) (production : Production)
    (token : Token) :
    (p.mapPayload f).replace g production token =
      ((p.replace g production token).1, (p.replace g production token).2.mapPayload f) := by
  rcases lt_or_exists_append p.items production.handles.length with hlt | ⟨hs, below, hitems, hlen⟩
  · have hlt' : (p.mapPayload f).items.length < production.handles.length := by
      rw [mapPayload, List.length_map]
      exact hlt
    rw [replace_of_lt hlt, replace_of_lt hlt']
    rfl
  · have hitems' : (p.mapPayload f).items =
        hs.map (·.mapPayload f) ++ below.map (·.mapPayload f) := by
      rw [mapPayload, hitems, List.map_append]
    rw [replace_append hitems hlen, replace_append hitems' (by rw [List.length_map, hlen]),
      topState_map]
    cases g.goto? (g.topState below) production.head with
    | none => rfl
    | some state =>
      simp only [mapPayload, List.map_cons, Item.mapPayload, hf, Option.map_some,
        Reduction.mapPayload, List.map_reverse]

theorem act_mapPayload (hf : f none = none) (p : Parser τ) (token : Token) :
    (p.mapPayload f).act g token = ((p.act g token).1, (p.act g token).2.mapPayload f) := by
  unfold act
  split
  · rfl
  rw [show (p.mapPayload f).state = p.state from rfl]
  cases g.action? p.state token.symbol with
  | none => rfl
  | some action =>
    cases action with
    | shift state => simp only [shift, mapPayload, List.map_cons, Item.mapPayload, hf]
    | reduce i =>
      simp only [reduce]
      cases g.productions[i]? with
      | none => rfl
      | some production =>
        rw [show (p.mapPayload f).trim = p.trim from rfl]
        dsimp only
        split
        · exact rename_mapPayload p production token
        · exact replace_mapPayload hf p production token
    | accept => rfl
    | goto state => rfl

/-- **A step does not look at payloads.** -/
theorem step_mapPayload (hf : f none = none) (p : Parser τ) :
    (p.mapPayload f).step g = ((p.step g).1, (p.step g).2.mapPayload f) := by
  rw [step_eq, step_eq, look_mapPayload]
  exact act_mapPayload hf _ _

/-! ### Handlers that attach payloads -/

end Parser

/-- All a handler does to a parser is to attach a payload to the topmost item, if it does anything
at all. -/
def Handler.Attaches (handler : Handler σ τ) : Prop :=
  ∀ event s p, (handler event s p).2 = p ∨
    ∃ payload, (handler event s p).2 = p.setPayload payload

namespace Parser

variable {g : Grammar}

/-- The parser without its payloads. -/
def erase (p : Parser τ) : Parser Unit := p.mapPayload fun _ => none

theorem step_erase (p : Parser τ) : p.erase.step g = ((p.step g).1, (p.step g).2.erase) :=
  step_mapPayload rfl p

theorem erase_setPayload (p : Parser τ) (payload : Option τ) :
    (p.setPayload payload).erase = p.erase := by
  obtain ⟨lexer, trim, state, items, lookahead, reduction, error⟩ := p
  cases items <;> rfl

/-- What a handler is told in at most `n` steps, up to and including the first final event: the
events, each with the state after it. -/
def told (g : Grammar) (handler : Handler σ τ) : Nat → σ → Parser τ → List (Event × LalrStateIdx)
  | 0, _, _ => []
  | n + 1, s, p =>
    let (event, s, next) := p.stepWith g handler s
    (event, next.state) :: if event.isFinal then [] else told g handler n s next

variable {handler : Handler σ τ}

theorem erase_of_attaches (h : handler.Attaches) (event : Event) (s : σ) (p : Parser τ) :
    (handler event s p).2.erase = p.erase := by
  rcases h event s p with heq | ⟨payload, heq⟩
  · rw [heq]
  · rw [heq, erase_setPayload]

theorem steps_erase (n : Nat) (p : Parser τ) :
    p.erase.steps g n = (p.steps g n).map fun step => (step.1, step.2.erase) := by
  induction n generalizing p with
  | zero => rfl
  | succ n ih =>
    rw [steps, steps, step_erase]
    dsimp only
    split
    · rfl
    · rw [ih, List.map_cons]

theorem map_steps_erase (n : Nat) (p : Parser τ) :
    (p.erase.steps g n).map (fun step => (step.1, step.2.state)) =
      (p.steps g n).map fun step => (step.1, step.2.state) := by
  rw [steps_erase, List.map_map]
  rfl

/-- **A handler that attaches payloads does not change the way of a parser.** -/
theorem told_eq_steps (h : handler.Attaches) (n : Nat) (s : σ) (p : Parser τ) :
    p.told g handler n s = (p.steps g n).map fun step => (step.1, step.2.state) := by
  induction n generalizing s p with
  | zero => rfl
  | succ n ih =>
    have herase := erase_of_attaches h (p.step g).1 s (p.step g).2
    have hstate : (handler (p.step g).1 s (p.step g).2).2.state = (p.step g).2.state :=
      congrArg (state (τ := Unit)) herase
    rw [told, steps, List.map_cons]
    dsimp only [stepWith]
    rw [hstate]
    split
    · rfl
    · rw [ih, ← map_steps_erase, herase, map_steps_erase]

/-- It ends the way in the same place, too. -/
theorem erase_runWith (h : handler.Attaches) (n : Nat) (s : σ) (p : Parser τ) :
    (p.runWith g handler n s).map (fun (event, _, q) => (event, q.erase)) = p.erase.run g n := by
  unfold run
  induction n generalizing s p with
  | zero => rfl
  | succ n ih =>
    have herase := erase_of_attaches h (p.step g).1 s (p.step g).2
    rw [runWith_succ, runUntil, step_erase]
    dsimp only
    split
    · rw [← herase]
      rfl
    · rw [ih, herase]

end Parser

end CompiledGrammar
