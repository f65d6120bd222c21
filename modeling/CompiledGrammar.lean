import CompiledGrammar.Grammar.Basic
import CompiledGrammar.Grammar.Link
import CompiledGrammar.Grammar.Lookup
import CompiledGrammar.Grammar.SinglePath
import CompiledGrammar.Lexer.Basic
import CompiledGrammar.Lexer.Token
import CompiledGrammar.Lexer.Walk
import CompiledGrammar.Outline.Basic
import CompiledGrammar.Outline.Case
import CompiledGrammar.Outline.Literal
import CompiledGrammar.Parser.Basic
import CompiledGrammar.Parser.Error
import CompiledGrammar.Parser.Item
import CompiledGrammar.Parser.Run
import CompiledGrammar.Proofs.Grammar.Checked
import CompiledGrammar.Proofs.Grammar.Coverage
import CompiledGrammar.Proofs.Grammar.Derived
import CompiledGrammar.Proofs.Grammar.Loaded
import CompiledGrammar.Proofs.Grammar.Lookup
import CompiledGrammar.Proofs.Grammar.SinglePath
import CompiledGrammar.Proofs.Grammar.Transition
import CompiledGrammar.Proofs.Grammar.Validation
import CompiledGrammar.Proofs.Grammar.WellFormed
import CompiledGrammar.Proofs.Grammar.Worklist
import CompiledGrammar.Proofs.Lalr.Completeness
import CompiledGrammar.Proofs.Lalr.Decision
import CompiledGrammar.Proofs.Lalr.Items
import CompiledGrammar.Proofs.Lalr.Path
import CompiledGrammar.Proofs.Lalr.Sample
import CompiledGrammar.Proofs.Lalr.Soundness
import CompiledGrammar.Proofs.Lalr.Stack
import CompiledGrammar.Proofs.Lalr.Termination
import CompiledGrammar.Proofs.Lexer.BlockComment
import CompiledGrammar.Proofs.Lexer.Checked
import CompiledGrammar.Proofs.Lexer.Delimiter
import CompiledGrammar.Proofs.Lexer.LineComment
import CompiledGrammar.Proofs.Lexer.LongestMatch
import CompiledGrammar.Proofs.Lexer.Lossless
import CompiledGrammar.Proofs.Lexer.Nesting
import CompiledGrammar.Proofs.Lexer.Position
import CompiledGrammar.Proofs.Lexer.Reachable
import CompiledGrammar.Proofs.Lexer.Scan
import CompiledGrammar.Proofs.Lexer.SingleLexeme
import CompiledGrammar.Proofs.Lexer.Stream
import CompiledGrammar.Proofs.Lexer.Termination
import CompiledGrammar.Proofs.Outline.Case
import CompiledGrammar.Proofs.Outline.Layout
import CompiledGrammar.Proofs.Outline.Literal
import CompiledGrammar.Proofs.Outline.RoundTrip
import CompiledGrammar.Proofs.Parser.Checked
import CompiledGrammar.Proofs.Parser.Expected
import CompiledGrammar.Proofs.Parser.Failure
import CompiledGrammar.Proofs.Parser.Machine
import CompiledGrammar.Proofs.Parser.Payload
import CompiledGrammar.Proofs.Parser.Position
import CompiledGrammar.Proofs.Parser.Prefix
import CompiledGrammar.Proofs.Parser.Renaming
import CompiledGrammar.Proofs.Parser.Step
import CompiledGrammar.Proofs.Parser.Tracking
import CompiledGrammar.Proofs.Parser.Trimming
import CompiledGrammar.Proofs.Table.Canonical
import CompiledGrammar.Proofs.Table.Draft
import CompiledGrammar.Proofs.Table.Layout
import CompiledGrammar.Proofs.Table.Linked
import CompiledGrammar.Proofs.Table.Literals
import CompiledGrammar.Proofs.Table.Record
import CompiledGrammar.Proofs.Table.RoundTrip
import CompiledGrammar.Proofs.Table.Trie
import CompiledGrammar.Proofs.Table.Truncation
import CompiledGrammar.Proofs.Text.Slice
import CompiledGrammar.Proofs.Text.Utf16
import CompiledGrammar.Proofs.Tree.Concrete
import CompiledGrammar.Proofs.Tree.Contract
import CompiledGrammar.Proofs.Tree.Contracted
import CompiledGrammar.Proofs.Tree.Copy
import CompiledGrammar.Proofs.Tree.Derivation
import CompiledGrammar.Proofs.Tree.Evaluation
import CompiledGrammar.Proofs.Tree.Forest
import CompiledGrammar.Proofs.Tree.Forwarded
import CompiledGrammar.Proofs.Tree.Identifiers
import CompiledGrammar.Proofs.Tree.Leaves
import CompiledGrammar.Proofs.Tree.OpenLists
import CompiledGrammar.Proofs.Tree.Reuse
import CompiledGrammar.Proofs.Tree.Sharing
import CompiledGrammar.Proofs.Tree.Simplified
import CompiledGrammar.Proofs.Tree.Simplify
import CompiledGrammar.Proofs.Tree.Terminals
import CompiledGrammar.Proofs.Tree.Trimmed
import CompiledGrammar.Proofs.Tree.Walk
import CompiledGrammar.Table.Code
import CompiledGrammar.Table.Decode
import CompiledGrammar.Table.Draft
import CompiledGrammar.Table.Error
import CompiledGrammar.Table.Record
import CompiledGrammar.Table.Row
import CompiledGrammar.Table.Sample
import CompiledGrammar.Text.Buffer
import CompiledGrammar.Text.Printable
import CompiledGrammar.Text.Span
import CompiledGrammar.Text.Utf16
import CompiledGrammar.Text.Utf8
import CompiledGrammar.Tree.Arena
import CompiledGrammar.Tree.Concrete
import CompiledGrammar.Tree.Evaluation
import CompiledGrammar.Tree.Parse
import CompiledGrammar.Tree.Simplified
