import CompiledGrammar.Table.Draft

/-!
# Sample tables

Small grammars, drafted by hand, that between them use every feature of a table.

* `Sample.operators`: arithmetic over numbers, with comments that nest.
* `Sample.lists`: comma-separated and semicolon-terminated lists.
* `Sample.comments`: lines of words, with block comments and line comments.
* `Sample.pairs`: pairs in parentheses, the left part of which has a name of its own.
* `Sample.doubled`: one letter, with a table that is not consistent.
* `Sample.accented`: words in letters of Latin-1, with a class that names some letters twice.
* `Sample.marks`: numbers with a sign, names and two symbols more, to see which have one lexeme.
* `Sample.phrases`: two letters, or one symbol with both of them in its name.
-/

namespace CompiledGrammar

namespace Sample

/-! ### Codes and classes -/

/-- The code of non-terminals. -/
def nonTerminal : Int16 := 0
/-- The code of terminals. -/
def terminal : Int16 := 1
/-- The code of noise. -/
def noise : Int16 := 2
/-- The code of the end of the input. -/
def endOfFile : Int16 := 3
/-- The code of symbols that open a group. -/
def groupStart : Int16 := 4
/-- The code of symbols that close a group. -/
def groupEnd : Int16 := 5
/-- The code of the error symbol. -/
def error : Int16 := 7

/-- Shift a symbol. -/
def shift (symbol : SymbolIdx) (state : LalrStateIdx) : DraftAction := ⟨symbol, 1, state⟩
/-- Reduce a production on a symbol. -/
def reduce (symbol : SymbolIdx) (production : ProductionIdx) : DraftAction :=
  ⟨symbol, 2, production⟩
/-- Go to a state on a symbol. -/
def goto (symbol : SymbolIdx) (state : LalrStateIdx) : DraftAction := ⟨symbol, 3, state⟩
/-- Accept on a symbol. -/
def accept (symbol : SymbolIdx) : DraftAction := ⟨symbol, 4, 0⟩

/-- The characters from `first` to `last`. -/
def range (first last : Char) : CodeRange :=
  ⟨UInt16.ofNat first.toNat, UInt16.ofNat last.toNat⟩

/-- White space, line ends included. -/
def whitespace : Atom := .many [range '\t' '\n', range '\r' '\r', range ' ' ' ']

/-- White space within a line. -/
def blanks : Atom := .many [range '\t' '\t', range ' ' ' ']

/-- Digits. -/
def digits : Atom := .many [range '0' '9']

/-- Lower-case letters. -/
def letters : Atom := .many [range 'a' 'z']

/-! ### Arithmetic -/

/-- Arithmetic with `+ - * /`, a sign, parentheses and block comments that nest:

```text
<E> ::= <E> + <M> | <E> - <M> | <M>
<M> ::= <M> * <N> | <M> / <N> | <N>
<N> ::= - <V> | <V>
<V> ::= Num | ( <E> )
```

Productions are numbered in this order.  Symbols are 0 end of input, 1 error, 2 white space,
3 comment, 4 and 5 its delimiters, 6 `-`, 7 `(`, 8 `)`, 9 `*`, 10 `/`, 11 `+`, 12 `Num`,
13 `<E>`, 14 `<M>`, 15 `<N>` and 16 `<V>`. -/
def operators : Draft :=
  let followE := [11, 6, 8, 0]
  let followM := followE ++ [9, 10]
  let operand := [shift 6 4, shift 12 6, shift 7 7]
  let base : Draft :=
    { properties := [("Name", "Operators"), ("Version", "1.0")]
      symbols :=
        [("EOF", endOfFile), ("Error", error), ("Whitespace", noise), ("Comment", noise),
          ("Comment Start", groupStart), ("Comment End", groupEnd), ("-", terminal),
          ("(", terminal), (")", terminal), ("*", terminal), ("/", terminal), ("+", terminal),
          ("Num", terminal), ("E", nonTerminal), ("M", nonTerminal), ("N", nonTerminal),
          ("V", nonTerminal)]
      groups := [⟨"Comment", 3, 4, 5, 1, 1, [0]⟩]
      productions :=
        [(13, [13, 11, 14]), (13, [13, 6, 14]), (13, [14]), (14, [14, 9, 15]), (14, [14, 10, 15]),
          (14, [15]), (15, [6, 16]), (15, [16]), (16, [12]), (16, [7, 13, 8])]
      lalr :=
        [[goto 13 1, goto 14 2, goto 15 3, goto 16 5] ++ operand,
          [accept 0, shift 11 8, shift 6 9],
          [shift 9 10, shift 10 11] ++ followE.map (reduce · 2),
          followM.map (reduce · 5),
          [goto 16 12, shift 12 6, shift 7 7],
          followM.map (reduce · 7),
          followM.map (reduce · 8),
          [goto 13 13, goto 14 2, goto 15 3, goto 16 5] ++ operand,
          [goto 14 14, goto 15 3, goto 16 5] ++ operand,
          [goto 14 15, goto 15 3, goto 16 5] ++ operand,
          [goto 15 16, goto 16 5] ++ operand,
          [goto 15 17, goto 16 5] ++ operand,
          followM.map (reduce · 6),
          [shift 8 18, shift 11 8, shift 6 9],
          [shift 9 10, shift 10 11] ++ followE.map (reduce · 0),
          [shift 9 10, shift 10 11] ++ followE.map (reduce · 1),
          followM.map (reduce · 3),
          followM.map (reduce · 4),
          followM.map (reduce · 9)] }
  (((((((((base.pattern 2 [whitespace]).literal 6 "-").literal 7 "(").literal 8 ")").literal 9
    "*").literal 10 "/").literal 11 "+").literal 4 "/*").literal 5 "*/").pattern 12 [digits]

/-! ### Lists -/

/-- Comma-separated and semicolon-terminated lists:

```text
<List>  ::= [ <List1> ] | { <List2> }
<List1> ::= <List1> , Id | Id
<List2> ::= <List2> Id ; |
```

Productions are numbered in this order.  Symbols are 0 end of input, 1 error, 2 white space, 3 `,`,
4 `;`, 5 `[`, 6 `]`, 7 and 8 braces, 9 `Id`, 10 `<List>`, 11 `<List1>` and 12 `<List2>`. -/
def lists : Draft :=
  let base : Draft :=
    { symbols :=
        [("EOF", endOfFile), ("Error", error), ("Whitespace", noise), (",", terminal),
          (";", terminal), ("[", terminal), ("]", terminal), ("\x7b", terminal),
          ("\x7d", terminal), ("Id", terminal), ("List", nonTerminal), ("List1", nonTerminal),
          ("List2", nonTerminal)]
      productions :=
        [(10, [5, 11, 6]), (10, [7, 12, 8]), (11, [11, 3, 9]), (11, [9]), (12, [12, 9, 4]),
          (12, [])]
      lalr :=
        [[goto 10 1, shift 5 2, shift 7 3],
          [accept 0],
          [goto 11 4, shift 9 5],
          [goto 12 6, reduce 8 5, reduce 9 5],
          [shift 6 7, shift 3 8],
          [reduce 6 3, reduce 3 3],
          [shift 8 9, shift 9 10],
          [reduce 0 0],
          [shift 9 11],
          [reduce 0 1],
          [shift 4 12],
          [reduce 6 2, reduce 3 2],
          [reduce 8 4, reduce 9 4]] }
  (((((((base.pattern 2 [whitespace]).literal 3 ",").literal 4 ";").literal 5 "[").literal 6
    "]").literal 7 "\x7b").literal 8 "\x7d").pattern 9 [letters]

/-! ### Comments -/

/-- Lines of words, with block comments that nest and advance by characters, and line comments that
advance by tokens and leave the line end to be scanned:

```text
<Lines> ::= <Lines> Id | <Lines> NewLine |
```

Productions are numbered in this order.  Symbols are 0 end of input, 1 error, 2 white space,
3 `NewLine`, 4 `Id`, 5 block comment, 6 and 7 its delimiters, 8 line comment, 9 its start and
10 `<Lines>`. -/
def comments : Draft :=
  let base : Draft :=
    { symbols :=
        [("EOF", endOfFile), ("Error", error), ("Whitespace", noise), ("NewLine", terminal),
          ("Id", terminal), ("BlockComment", noise), ("BlockComment Start", groupStart),
          ("BlockComment End", groupEnd), ("LineComment", noise),
          ("LineComment Start", groupStart), ("Lines", nonTerminal)]
      groups := [⟨"BlockComment", 5, 6, 7, 1, 1, [0]⟩, ⟨"LineComment", 8, 9, 3, 0, 0, []⟩]
      productions := [(10, [10, 4]), (10, [10, 3]), (10, [])]
      lalr :=
        [[goto 10 1, reduce 0 2, reduce 4 2, reduce 3 2],
          [accept 0, shift 4 2, shift 3 3],
          [reduce 0 0, reduce 4 0, reduce 3 0],
          [reduce 0 1, reduce 4 1, reduce 3 1]] }
  (((((base.pattern 2 [blanks]).literal 3 "\n").pattern 4 [letters]).literal 6 "/*").literal 7
    "*/").literal 9 "//"

/-! ### Pairs -/

/-- Words and pairs in parentheses:

```text
<Pair> ::= ( <Left> <Pair> ) | Id
<Left> ::= <Pair>
```

Productions are numbered in this order.  Symbols are 0 end of input, 1 error, 2 white space, 3 `(`,
4 `)`, 5 `Id`, 6 `<Pair>` and 7 `<Left>`. -/
def pairs : Draft :=
  let operand := [shift 3 2, shift 5 3]
  let base : Draft :=
    { symbols :=
        [("EOF", endOfFile), ("Error", error), ("Whitespace", noise), ("(", terminal),
          (")", terminal), ("Id", terminal), ("Pair", nonTerminal), ("Left", nonTerminal)]
      productions := [(6, [3, 7, 6, 4]), (6, [5]), (7, [6])]
      lalr :=
        [[goto 6 1] ++ operand,
          [accept 0],
          [goto 7 4, goto 6 5] ++ operand,
          [0, 3, 4, 5].map (reduce · 1),
          [goto 6 6] ++ operand,
          [3, 5].map (reduce · 2),
          [shift 4 7],
          [0, 3, 4, 5].map (reduce · 0)] }
  (((base.pattern 2 [whitespace]).literal 3 "(").literal 4 ")").pattern 5 [letters]

/-! ### One letter -/

/-- A single letter:

```text
<S> ::= a
```

The table also shifts a second letter, but has nowhere to go once that has been reduced.  Symbols
are 0 end of input, 1 error, 2 `a` and 3 `<S>`. -/
def doubled : Draft :=
  let base : Draft :=
    { symbols :=
        [("EOF", endOfFile), ("Error", error), ("a", terminal), ("S", nonTerminal)]
      productions := [(3, [2])]
      lalr := [[shift 2 1, goto 3 2], [shift 2 3], [accept 0], [reduce 0 0]] }
  base.literal 2 "a"

/-! ### Letters beyond ASCII -/

/-- Words in letters of Latin-1.  The class of `Word` is all from `À` to `ÿ`, and names those from
`Ø` to `ö` once more.  A `Name` is in `«` and `»`; its class is in three ranges, without the signs
`×` and `÷`.  Symbols are 0 end of input, 1 error, 2 `Word`, 3 `Name` and 4 `«`. -/
def accented : Draft :=
  let base : Draft :=
    { symbols :=
        [("EOF", endOfFile), ("Error", error), ("Word", terminal), ("Name", terminal),
          ("«", terminal)]
      lalr := [[accept 0]] }
  ((base.pattern 2 [.many [range 'À' 'ÿ', range 'Ø' 'ö']]).pattern 3
    [.one [range '«' '«'], .many [range 'À' 'Ö', range 'Ø' 'ö', range 'ø' 'ÿ'],
      .one [range '»' '»']]).literal 4 "«"

/-! ### Fixed texts -/

/-- Numbers with a sign:

```text
<Value> ::= Sign Num
```

Of the terminals, `Sign` is one of two characters, `Name` is `_` or a word, and `Last` is the last
character that a table can name.  Symbols are 0 end of input, 1 error, 2 `Sign`, 3 `Num`, 4 `Name`,
5 `Last` and 6 `<Value>`. -/
def marks : Draft :=
  let base : Draft :=
    { symbols :=
        [("EOF", endOfFile), ("Error", error), ("Sign", terminal), ("Num", terminal),
          ("Name", terminal), ("Last", terminal), ("Value", nonTerminal)]
      productions := [(6, [2, 3])]
      lalr := [[shift 2 1, goto 6 3], [shift 3 2], [reduce 0 0], [accept 0]] }
  ((((base.pattern 2 [.one [range '+' '+', range '-' '-']]).pattern 3 [digits]).literal 4
    "_").pattern 4 [letters]).literal 5 "\uffff"

/-! ### Names with blanks -/

/-- Two letters, or the same with exactly one blank between them:

```text
<S> ::= a b | 'a b'
```

Productions are numbered in this order.  Symbols are 0 end of input, 1 error, 2 `a`, 3 `b`,
4 `a b`, 5 white space and 6 `<S>`. -/
def phrases : Draft :=
  let base : Draft :=
    { symbols :=
        [("EOF", endOfFile), ("Error", error), ("a", terminal), ("b", terminal),
          ("a b", terminal), ("Whitespace", noise), ("S", nonTerminal)]
      productions := [(6, [2, 3]), (6, [4])]
      lalr :=
        [[goto 6 1, shift 2 2, shift 4 3], [accept 0], [shift 3 4], [reduce 0 1], [reduce 0 0]] }
  (((base.literal 2 "a").literal 3 "b").literal 4 "a b").pattern 5 [whitespace]

end Sample

end CompiledGrammar
