import CompiledGrammar.Text.Printable

/-!
# Blanks, names and texts

The smallest parts of a written outline: blanks and comments between its parts, names, and texts in
quotes.

Every reader takes the characters to read and returns those that are left, or fails.  `quote` writes
a text so that `text?` reads it back: quotes, backslashes and characters that are not printable are
escaped.
-/

namespace CompiledGrammar

namespace Literal

/-! ### Blanks -/

/-- Blanks between the parts of an outline. -/
def isBlank (c : Char) : Bool :=
  c == ' ' || c == '\n' || c == '\t' || c == '\r'

/-- What a stretch of characters between two parts of an outline is. -/
inductive Gap where
  /-- Blanks. -/
  | blanks
  /-- A comment up to the end of its line. -/
  | line
  /-- A block comment inside `depth` others.  Block comments nest. -/
  | block (depth : Nat)

/-- Skip the rest of a gap.  A slash that starts no comment is an error, and so is a block comment
that is not closed. -/
def skipGap : Gap → List Char → Option (List Char)
  | .blanks, [] => some []
  | .blanks, '/' :: '/' :: cs => skipGap .line cs
  | .blanks, '/' :: '*' :: cs => skipGap (.block 0) cs
  | .blanks, '/' :: _ => none
  | .blanks, c :: cs => if isBlank c then skipGap .blanks cs else some (c :: cs)
  | .line, [] => some []
  | .line, '\n' :: cs => skipGap .blanks cs
  | .line, _ :: cs => skipGap .line cs
  | .block _, [] => none
  | .block 0, '*' :: '/' :: cs => skipGap .blanks cs
  | .block (depth + 1), '*' :: '/' :: cs => skipGap (.block depth) cs
  | .block depth, '/' :: '*' :: cs => skipGap (.block (depth + 1)) cs
  | .block depth, _ :: cs => skipGap (.block depth) cs

/-- Skip blanks and comments. -/
def skipBlanks (cs : List Char) : Option (List Char) := skipGap .blanks cs

/-! ### Marks and names -/

/-- Read a given character. -/
def mark? (c : Char) : List Char → Option (List Char)
  | d :: rest => if c = d then some rest else none
  | [] => none

/-- Read given characters. -/
def word? (w : String) (cs : List Char) : Option (List Char) :=
  if w.toList.isPrefixOf cs then some (cs.drop w.length) else none

/-- Skip blanks, and a comma with the blanks after it if there is one, and say if there was. -/
def comma? (cs : List Char) : Option (Bool × List Char) := do
  let rest ← skipBlanks cs
  match mark? ',' rest with
  | some rest => return (true, ← skipBlanks rest)
  | none => return (false, rest)

/-- A name starts with an ASCII letter or a low line. -/
def isNameStart (c : Char) : Bool := c.isAlpha || c == '_'

/-- A name goes on with ASCII letters, digits and low lines. -/
def isNameRest (c : Char) : Bool := c.isAlphanum || c == '_'

/-- A marked name consists of what a name does, points and signs. -/
def isMarkedNamePart (c : Char) : Bool := isNameRest c || c == '.' || c == '+' || c == '-'

/-- Read a name that is written as it is. -/
def plainName? : List Char → Option (String × List Char)
  | c :: rest =>
    if isNameStart c then
      some (String.ofList (c :: rest.takeWhile isNameRest), rest.dropWhile isNameRest)
    else none
  | [] => none

/-- Read a name after the mark `r#`, which frees it from having to look like one. -/
def markedName? : List Char → Option (String × List Char)
  | 'r' :: '#' :: rest =>
    match rest.takeWhile isMarkedNamePart with
    | [] => none
    | name => some (String.ofList name, rest.drop name.length)
  | _ => none

/-- Read a name. -/
def name? (cs : List Char) : Option (String × List Char) :=
  (markedName? cs).or (plainName? cs)

/-! ### Texts -/

/-- The value of a hexadecimal digit. -/
def hexDigit? (c : Char) : Option Nat :=
  if '0' ≤ c ∧ c ≤ '9' then some (c.toNat - '0'.toNat)
  else if 'a' ≤ c ∧ c ≤ 'f' then some (c.toNat - 'a'.toNat + 10)
  else if 'A' ≤ c ∧ c ≤ 'F' then some (c.toNat - 'A'.toNat + 10)
  else none

/-- The value of a hexadecimal number. -/
def hexNumber? (cs : List Char) : Option Nat :=
  cs.foldlM (fun n c => (hexDigit? c).map (n * 16 + ·)) 0

/-- Read what follows the backslash of an escape. -/
def escape? : List Char → Option (Char × List Char)
  | '"' :: rest => some ('"', rest)
  | '\'' :: rest => some ('\'', rest)
  | '\\' :: rest => some ('\\', rest)
  | 'n' :: rest => some ('\n', rest)
  | 'r' :: rest => some ('\r', rest)
  | 't' :: rest => some ('\t', rest)
  | '0' :: rest => some ('\x00', rest)
  | 'x' :: a :: b :: rest => (hexNumber? [a, b]).map fun n => (Char.ofNat n, rest)
  | 'u' :: '\x7b' :: rest =>
    let digits := rest.takeWhile (· != '\x7d')
    if 1 ≤ digits.length ∧ digits.length ≤ 6 then do
      let n ← hexNumber? digits
      let rest ← mark? '\x7d' (rest.drop digits.length)
      if n.isValidChar then return (Char.ofNat n, rest) else none
    else none
  | _ => none

theorem length_lt_of_mark? {c : Char} {cs rest : List Char} (h : mark? c cs = some rest) :
    rest.length < cs.length := by
  unfold mark? at h
  grind

theorem length_lt_of_escape? {cs rest : List Char} {c : Char} (h : escape? cs = some (c, rest)) :
    rest.length < cs.length := by
  unfold escape? at h
  split at h
  case h_9 rest' =>
    dsimp only at h
    split at h
    · obtain ⟨n, _, h⟩ := Option.bind_eq_some_iff.1 h
      obtain ⟨rest'', hmark, h⟩ := Option.bind_eq_some_iff.1 h
      have := length_lt_of_mark? hmark
      grind
    · cases h
  all_goals grind [Option.map_eq_some_iff]

/-- Read a text up to its closing quote. -/
def quoted? (cs : List Char) : Option (List Char × List Char) :=
  match cs with
  | [] => none
  | '"' :: rest => some ([], rest)
  | '\\' :: rest =>
    match _h : escape? rest with
    | none => none
    | some (c, rest) => (quoted? rest).map fun (text, rest) => (c :: text, rest)
  | c :: rest => (quoted? rest).map fun (text, rest) => (c :: text, rest)
termination_by cs.length
decreasing_by
  · have := length_lt_of_escape? _h
    simp only [List.length_cons]
    omega
  · simp only [List.length_cons]
    omega

/-- Read a text without escapes, up to a quote with `n` number signs after it. -/
def raw? (n : Nat) : List Char → Option (List Char × List Char)
  | [] => none
  | c :: rest =>
    if c = '"' ∧ rest.take n = List.replicate n '#' then some ([], rest.drop n)
    else (raw? n rest).map fun (text, rest) => (c :: text, rest)

/-- Read a text: in quotes, or after `r`, in quotes between equally many number signs. -/
def text? : List Char → Option (String × List Char)
  | '"' :: rest => (quoted? rest).map fun (text, rest) => (String.ofList text, rest)
  | 'r' :: rest => do
    let signs := rest.takeWhile (· == '#')
    let rest ← mark? '"' (rest.drop signs.length)
    let (text, rest) ← raw? signs.length rest
    return (String.ofList text, rest)
  | _ => none

/-- A character inside quotes. -/
def escaped (c : Char) : List Char :=
  if c = '"' ∨ c = '\'' ∨ c = '\\' then ['\\', c]
  else if c = '\n' then ['\\', 'n']
  else if c = '\r' then ['\\', 'r']
  else if c = '\t' then ['\\', 't']
  else if c = '\x00' then ['\\', '0']
  else if isPrintable c then [c]
  else ['\\', 'u', '\x7b'] ++ Nat.toDigits 16 c.toNat ++ ['\x7d']

/-- A text in quotes. -/
def quote (s : String) : String :=
  String.ofList ('"' :: s.toList.flatMap escaped ++ ['"'])

/-- The characters start with a text in quotes, with or without escapes. -/
def startsText (cs : List Char) : Bool :=
  match cs with
  | '"' :: _ => true
  | 'r' :: '"' :: _ => true
  | 'r' :: '#' :: _ => (markedName? cs).isNone
  | _ => false

end Literal

end CompiledGrammar
