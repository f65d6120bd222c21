import CompiledGrammar.Proofs.Lexer.Position
import CompiledGrammar.Proofs.Parser.Checked

/-!
# Lines and columns of a parse

A parser holds tokens: on its stack, as the token that decides the next step, and in its last error.
All of them are tokens of its lexer, and those have the position of their first byte
(`Parser.Located`); a step keeps that up (`Parser.Located.step`), and so does every operation.

`position_eq_positionAt` says the same of lexers and parsers: after any sequence of operations,
lines and columns are a function of the text and the offset.
-/

namespace CompiledGrammar

namespace Parser

variable {τ : Type} {g : Grammar} {terminator : UInt8} {p : Parser τ} {token : Token}

/-- The lexer of the parser has come about by operations, and all tokens that the parser holds have
the position of their first byte. -/
structure Located (g : Grammar) (terminator : UInt8) (p : Parser τ) : Prop where
  lexer : p.lexer.Reachable g terminator
  items : ∀ item ∈ p.items, ∀ token ∈ item.origin.token?, token.Located terminator p.input
  lookahead : ∀ token ∈ p.lookahead.token?, token.Located terminator p.input
  error : ∀ e ∈ p.error, e.token.Located terminator p.input

namespace Located

theorem start {lexer : Lexer} (hlexer : lexer.Reachable g terminator) (trim : Bool) :
    (start g lexer trim : Parser τ).Located g terminator :=
  ⟨hlexer, nofun, nofun, nofun⟩

theorem look (hg : g.WellFormed) (h : p.Located g terminator) :
    (p.look g).1.Located terminator (p.look g).2.input ∧ (p.look g).2.Located g terminator := by
  unfold Parser.look
  split
  · rename_i token hpending
    exact ⟨h.lookahead token (by rw [hpending]; rfl), { h with }⟩
  · -- the lexer moves on in the same input
    have htoken := h.lexer.located_readToken hg
    have hlexer := h.lexer.readToken
    have hbuffer := p.lexer.buffer_readToken (g := g)
    have hitems := h.items
    have herror := h.error
    unfold input at hitems herror
    generalize p.lexer.readToken g = read at htoken hlexer hbuffer
    obtain ⟨token, lexer⟩ := read
    rw [← hbuffer] at hitems herror
    refine ⟨htoken, hlexer, hitems, ?_, herror⟩
    rintro t ⟨⟩
    exact htoken

/-- An error is about the token that a step looked at. -/
theorem fail (h : p.Located g terminator) (fault : ParseFault)
    (htoken : token.Located terminator p.input) : (p.fail fault token).2.Located g terminator := by
  refine { h with error := ?_ }
  rintro e ⟨⟩
  exact htoken

theorem drop (h : p.Located g terminator) (n : Nat) :
    { p with items := p.items.drop n }.Located g terminator :=
  { h with items := fun i hi => h.items i (List.mem_of_mem_drop hi) }

theorem rename (h : p.Located g terminator) (production : Production)
    (htoken : token.Located terminator p.input) :
    (p.rename g production token).2.Located g terminator := by
  unfold Parser.rename
  split
  · exact h.fail _ htoken
  rename_i item items hitems
  have hall := h.items
  rw [hitems] at hall
  obtain ⟨hitem, hbelow⟩ := List.forall_mem_cons.1 hall
  split
  · exact { h with items := List.forall_mem_cons.2 ⟨hitem, hbelow⟩ }
  · exact h.fail _ htoken

theorem replace (h : p.Located g terminator) (production : Production)
    (htoken : token.Located terminator p.input) :
    (p.replace g production token).2.Located g terminator := by
  have hbelow := h.drop production.handles.length
  unfold Parser.replace
  dsimp only
  split
  · exact h.fail _ htoken
  split
  · exact { hbelow with items := List.forall_mem_cons.2 ⟨nofun, hbelow.items⟩ }
  · exact hbelow.fail _ htoken

theorem act (h : p.Located g terminator) (htoken : token.Located terminator p.input) :
    (p.act g token).2.Located g terminator := by
  unfold Parser.act
  split
  · exact h.fail _ htoken
  cases g.action? p.state token.symbol with
  | none => exact h.fail _ htoken
  | some action =>
    cases action with
    | shift state =>
      refine { h with items := List.forall_mem_cons.2 ⟨?_, h.items⟩, lookahead := ?_ }
      · rintro t ⟨⟩
        exact htoken
      · rintro t ⟨⟩
        exact htoken
    | reduce i =>
      dsimp only [Parser.reduce]
      split
      · exact h.fail _ htoken
      rename_i production _
      split
      · exact h.rename production htoken
      · exact h.replace production htoken
    | accept => exact h
    | goto state => exact h.fail _ htoken

/-- **A step keeps the positions of all tokens right**, and fails at the position of the token it
looked at. -/
theorem step (hg : g.WellFormed) (h : p.Located g terminator) :
    (p.step g).2.Located g terminator := by
  obtain ⟨htoken, hlooked⟩ := h.look hg
  exact hlooked.act htoken

theorem setPayload (h : p.Located g terminator) (payload : Option τ) :
    (p.setPayload payload).Located g terminator := by
  unfold Parser.setPayload
  split
  · exact h
  · rename_i item items hitems
    have hall := h.items
    rw [hitems] at hall
    obtain ⟨hitem, hbelow⟩ := List.forall_mem_cons.1 hall
    exact { h with items := List.forall_mem_cons.2 ⟨hitem, hbelow⟩ }

theorem run (hg : g.WellFormed) (h : p.Located g terminator) (op : Op τ) :
    (op.run g p).2.Located g terminator := by
  cases op with
  | load input => exact .start (h.lexer.load input) p.trim
  | reset => exact .start h.lexer.reset p.trim
  | release => exact .start (h.lexer.load .empty) p.trim
  | step => exact h.step hg
  | attach payload => exact h.setPayload payload

theorem after (hg : g.WellFormed) (h : p.Located g terminator) (ops : List (Op τ)) :
    (p.after g ops).Located g terminator := by
  induction ops generalizing p with
  | nil => exact h
  | cons op ops ih => exact ih (h.run hg op)

end Located

end Parser

/-- **Line and column are a function of the text before a byte.**  Whatever a lexer has been
through, its position is that of its offset in its input, and a token that it gives has the position
of its first byte, also if it stands for a group, or is the end of the input inside of one.  So have
the tokens that a parser looks at or has shifted, and an error is at the first byte of its token. -/
theorem position_eq_positionAt {τ : Type} {g : Grammar} (hg : g.Loaded) (lineTerminator : UInt8)
    (trim : Bool) :
    (∀ (ops : List Lexer.Op) (l : Lexer), ({ lineTerminator } : Lexer).after g ops = l →
      l.cursor.position = l.buffer.positionAt lineTerminator l.cursor.offset ∧
      ∀ (op : Lexer.Op) (token : Token) (next : Lexer), op.run g l = (some token, next) →
        next.cursor.position = next.buffer.positionAt lineTerminator next.cursor.offset ∧
        token.position = next.buffer.positionAt lineTerminator token.span.start) ∧
    ∀ (ops : List (Parser.Op τ)) (p : Parser τ),
      (Parser.new g trim lineTerminator : Parser τ).after g ops = p →
      p.lexer.cursor.position = p.input.positionAt lineTerminator p.lexer.cursor.offset ∧
      (∀ token ∈ p.lookahead.token?,
        token.position = p.input.positionAt lineTerminator token.span.start) ∧
      (∀ item ∈ p.items, ∀ token ∈ item.origin.token?,
        token.position = p.input.positionAt lineTerminator token.span.start) ∧
      ∀ e ∈ p.error, e.position = p.input.positionAt lineTerminator e.token.span.start := by
  have hwf := hg.wellFormed
  have hcursor {l : Lexer} (h : l.Reachable g lineTerminator) :
      l.cursor.position = l.buffer.positionAt lineTerminator l.cursor.offset := by
    rw [← h.lineTerminator_eq]
    exact (h.located hwf).cursor
  refine ⟨?_, ?_⟩
  · rintro ops l rfl
    have h : (({ lineTerminator } : Lexer).after g ops).Reachable g lineTerminator :=
      Lexer.Reachable.new.after ops
    refine ⟨hcursor h, fun op token next hrun => ⟨?_, h.located_of_run hwf hrun⟩⟩
    have hnext := h.run op
    rw [hrun] at hnext
    exact hcursor hnext
  · rintro ops p rfl
    have h : ((Parser.new g trim lineTerminator : Parser τ).after g ops).Located g lineTerminator :=
      (Parser.Located.start .new trim).after hwf ops
    exact ⟨hcursor h.lexer, h.lookahead, h.items, h.error⟩

set_option maxRecDepth 10000 in
/-- A line terminator that is the second byte of `é`, inside of a comment: the comment starts on the
first line and ends on the second, where the parse fails. -/
theorem position_eq_positionAt_accent :
    ∃ g, Grammar.ofBytes Sample.operators.toBytes = .ok g ∧
      (∃ (l next : Lexer) (token : Token),
        ({ lineTerminator := 0xA9 } : Lexer).after g [.load (.owned "1/*é*/ x"), .scan] = l ∧
        Lexer.Op.scan.run g l = (some token, next) ∧
        token.span = ⟨1, 7⟩ ∧ token.position = ⟨1, 2⟩ ∧
        next.cursor.offset = 7 ∧ next.cursor.position = ⟨2, 3⟩) ∧
      ∃ (p : Parser Unit) (e : ParseError),
        (Parser.new g false 0xA9).after g
          (.load (.owned "1/*é*/ x") :: List.replicate 5 .step) = p ∧
        p.error = some e ∧ e.token.span.start = 8 ∧ e.position = ⟨2, 4⟩ := by
  generalize hscans : [Lexer.Op.load (.owned "1/*é*/ x"), .scan] = scans
  generalize hsteps :
    Parser.Op.load (.owned "1/*é*/ x") :: List.replicate 5 (.step : Parser.Op Unit) = steps
  have hcheck : Grammar.loadsWith Sample.operators.toBytes (fun g =>
      let (token?, next) := Lexer.Op.scan.run g (({ lineTerminator := 0xA9 } : Lexer).after g scans)
      let p := (Parser.new g false 0xA9).after g steps
      token?.map (·.span) == some ⟨1, 7⟩ && next.cursor.offset == 7 &&
        next.buffer == .owned "1/*é*/ x" && p.error.map (·.token.span.start) == some 8 &&
        p.input == .owned "1/*é*/ x") = true := by
    rw [← hscans, ← hsteps]
    decide +kernel
  obtain ⟨g, hload, hg⟩ := Grammar.exists_of_loadsWith hcheck
  simp only [Bool.and_eq_true, beq_iff_eq, Option.map_eq_some_iff] at hg
  obtain ⟨⟨⟨⟨⟨token, htoken, hspan⟩, hoffset⟩, hbuffer⟩, e, he, hstart⟩, hinput⟩ := hg
  obtain ⟨hlexer, hparser⟩ :=
    position_eq_positionAt (τ := Unit) (.ofBytes hload) 0xA9 false
  obtain ⟨hcursor, hposition⟩ := (hlexer scans _ rfl).2 .scan token _ (Prod.ext htoken rfl)
  obtain ⟨-, -, -, herror⟩ := hparser steps _ rfl
  refine ⟨g, hload, ⟨_, _, token, rfl, Prod.ext htoken rfl, hspan, ?_, hoffset, ?_⟩,
    _, e, rfl, he, hstart, ?_⟩
  · rw [hposition, hbuffer, hspan]
    decide
  · rw [hcursor, hbuffer, hoffset]
    decide
  · rw [herror e he, hinput, hstart]
    decide

end CompiledGrammar
