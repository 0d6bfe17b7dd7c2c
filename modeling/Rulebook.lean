import Rulebook.Pattern.Match
import Rulebook.Pattern.Parse
import Rulebook.Main
import Rulebook.Charset.Decode
import Rulebook.Charset.Name
import Rulebook.Files.Basic
import Rulebook.Text.Line
import Rulebook.Text.Blank
import Rulebook.Text.Quoted
import Rulebook.Number.Numeral
import Rulebook.Json.Reader
import Rulebook.Json.Writer
import Rulebook.Token.Piece
import Rulebook.Token.Stream
import Rulebook.Tree.Outline
import Rulebook.Document.Parse
import Rulebook.Tree.Visitor
import Rulebook.Grammar.Equality
import Rulebook.Grammar.Query
import Rulebook.Lowering.Rules
import Rulebook.Proofs.Surface.Acceptance
import Rulebook.Proofs.Lowering.WellFormed
import Rulebook.Proofs.Grammar.Keys
import Rulebook.Proofs.Grammar.Hashes
import Rulebook.Proofs.Token.Comments
import Rulebook.Proofs.Source.Undecodable
import Rulebook.Proofs.Source.Utf8
import Rulebook.Proofs.Source.LineCount
import Rulebook.Proofs.Lowering.Faults
import Rulebook.Proofs.Document.Conformance
import Rulebook.Proofs.Lowering.Conforming
import Rulebook.Proofs.Lowering.Spelling
import Rulebook.Proofs.Surface.Leaves
import Rulebook.Proofs.Lowering.Concatenation
import Rulebook.Proofs.Surface.Essentials
import Rulebook.Proofs.Grammar.Canonical
import Rulebook.Proofs.Lowering.PlainText
import Rulebook.Proofs.Lowering.RoleOrder
import Rulebook.Proofs.Document.Earliest
import Rulebook.Proofs.Command.Agreement
import Rulebook.Proofs.Command.Endings
import Rulebook.Proofs.Lowering.Alternatives
import Rulebook.Proofs.Lowering.Parentheses
import Rulebook.Proofs.Lowering.Runs
import Rulebook.Proofs.Lowering.FirstDefect
import Rulebook.Proofs.Text.Escapes
import Rulebook.Proofs.Token.Delimiters
import Rulebook.Proofs.Lowering.Literals
import Rulebook.Proofs.Lowering.WholeNumbers
import Rulebook.Proofs.Document.Outline
import Rulebook.Proofs.Tree.Dispatch
import Rulebook.Proofs.Sequence.Blocks
import Rulebook.Proofs.Sequence.Groups
import Rulebook.Proofs.Token.Stream
import Rulebook.Proofs.Pattern.Quote
