import CompiledGrammar.Proofs.Lalr.Decision
import CompiledGrammar.Table.Sample

/-!
# The sample tables decide their languages

The sample tables are drafted by hand, with the symbols that may follow the head of a production as
what the production is reduced on.  For each there is a certificate, so each decides the language of
its grammar (`Sample.samples_decided`).
-/

namespace CompiledGrammar

namespace Sample

/-- The draft makes a grammar with the given productions, and its parser decides, on every input,
what can be derived from the start symbol. -/
def Decided (d : Draft) (start : String) (productions : List String) : Prop :=
  ∃ g s, Grammar.ofBytes d.toBytes = .ok g ∧ g.symbolId? s = some start ∧
    g.productions.toList.map (·.id) = productions ∧
    ∀ (lineTerminator : UInt8) (input : Buffer), ∃ k n event p,
      ((({ lineTerminator } : Lexer).load input).EndsAt g k) ∧
        Parser.Decides g s (({ lineTerminator } : Lexer).load input) k n event p

/-- All there is to be checked about a draft. -/
def check (d : Draft) (start : SymbolIdx) (startId : String) (productions : List String)
    (c : Certificate) : Bool :=
  Grammar.loadsWith d.toBytes fun g =>
    g.symbolId? start == some startId && g.productions.toList.map (·.id) == productions &&
      c.check g start

theorem decided_of_check {d : Draft} {startId : String} {productions : List String}
    (start : SymbolIdx) (c : Certificate) (h : check d start startId productions c = true) :
    Decided d startId productions := by
  obtain ⟨g, hload, hg⟩ := Grammar.exists_of_loadsWith h
  simp only [Bool.and_eq_true, beq_iff_eq] at hg
  obtain ⟨⟨hstart, hproductions⟩, hc⟩ := hg
  exact ⟨g, start, hload, hstart, hproductions, fun _ input =>
    Parser.decides (.ofBytes hload) hc (Lexer.opensGroups_load input)⟩

/-- The certificate for arithmetic. -/
def operatorsCertificate : Certificate :=
  let followE := [11, 6, 8, 0]
  let followM := followE ++ [9, 10]
  { items :=
      { states :=
          [([], [13, 14, 15, 16]), ([(0, 1), (1, 1)], []), ([(2, 1), (3, 1), (4, 1)], []),
            ([(5, 1)], []), ([(6, 1)], [16]), ([(7, 1)], []), ([(8, 1)], []),
            ([(9, 1)], [13, 14, 15, 16]), ([(0, 2)], [14, 15, 16]), ([(1, 2)], [14, 15, 16]),
            ([(3, 2)], [15, 16]), ([(4, 2)], [15, 16]), ([(6, 2)], []),
            ([(9, 2), (0, 1), (1, 1)], []), ([(0, 3), (3, 1), (4, 1)], []),
            ([(1, 3), (3, 1), (4, 1)], []), ([(3, 3)], []), ([(4, 3)], []), ([(9, 3)], [])]
        first := fun s => if s = 16 then [12, 7] else [6, 12, 7]
        nullable := fun _ => false
        follow := fun s => if s = 13 then followE else followM }
    ranking :=
      { rank := fun q => [0, 0, 1, 2, 0, 3, 4, 0, 0, 0, 0, 0, 2, 0, 0, 0, 0, 0, 2].getD q 0
        frame := 1 } }

/-- The certificate for lists. -/
def listsCertificate : Certificate :=
  { items :=
      { states :=
          [([], [10]), ([], []), ([(0, 1)], [11]), ([(1, 1)], [12]), ([(0, 2), (2, 1)], []),
            ([(3, 1)], []), ([(1, 2), (4, 1)], []), ([(0, 3)], []), ([(2, 2)], []), ([(1, 3)], []),
            ([(4, 2)], []), ([(2, 3)], []), ([(4, 3)], [])]
        first := fun s => if s = 10 then [5, 7] else [9]
        nullable := fun s => s == 12
        follow := fun s => if s = 10 then [0] else if s = 11 then [6, 3] else [8, 9] }
    ranking :=
      { rank := fun q => [0, 0, 0, 2, 0, 1].getD q 0
        frame := 1 } }

/-- The certificate for lines of words. -/
def commentsCertificate : Certificate :=
  { items :=
      { states := [([], [10]), ([(0, 1), (1, 1)], []), ([(0, 2)], []), ([(1, 2)], [])]
        first := fun _ => [3, 4]
        nullable := fun _ => true
        follow := fun _ => [0, 3, 4] }
    ranking :=
      { rank := fun q => if q = 0 then 2 else 0
        frame := 1 } }

/-- The productions of arithmetic. -/
def operatorsGrammar : List String :=
  ["<E> ::= <E> + <M>", "<E> ::= <E> - <M>", "<E> ::= <M>",
    "<M> ::= <M> * <N>", "<M> ::= <M> / <N>", "<M> ::= <N>",
    "<N> ::= - <V>", "<N> ::= <V>",
    "<V> ::= Num", "<V> ::= ( <E> )"]

/-- The productions of lists. -/
def listsGrammar : List String :=
  ["<List> ::= [ <List1> ]", "<List> ::= \x7b <List2> \x7d",
    "<List1> ::= <List1> , Id", "<List1> ::= Id",
    "<List2> ::= <List2> Id ;", "<List2> ::="]

/-- The productions of lines of words. -/
def commentsGrammar : List String :=
  ["<Lines> ::= <Lines> Id", "<Lines> ::= <Lines> NewLine", "<Lines> ::="]

set_option maxRecDepth 10000 in
theorem operators_decided : Decided operators "<E>" operatorsGrammar :=
  decided_of_check 13 operatorsCertificate (by decide +kernel)

set_option maxRecDepth 10000 in
theorem lists_decided : Decided lists "<List>" listsGrammar :=
  decided_of_check 10 listsCertificate (by decide +kernel)

set_option maxRecDepth 10000 in
theorem comments_decided : Decided comments "<Lines>" commentsGrammar :=
  decided_of_check 10 commentsCertificate (by decide +kernel)

/-- **The sample tables decide their languages.**  Parsing ends on every input, accepts exactly what
the productions derive, and builds the only derivation there is. -/
theorem samples_decided :
    Decided operators "<E>" operatorsGrammar ∧ Decided lists "<List>" listsGrammar ∧
      Decided comments "<Lines>" commentsGrammar :=
  ⟨operators_decided, lists_decided, comments_decided⟩

end Sample

end CompiledGrammar
