import Highlight.CFamily.Character
import Highlight.CFamily.Comment
import Highlight.CFamily.Directive
import Highlight.CFamily.Keyword
import Highlight.CFamily.Literal
import Highlight.CFamily.Number
import Highlight.CFamily.Operator
import Highlight.CFamily.Scan
import Highlight.Cli.Command
import Highlight.Cli.Path
import Highlight.Cli.Run
import Highlight.Comment
import Highlight.Cursor.Basic
import Highlight.Highlighted
import Highlight.Html.Comment
import Highlight.Html.Doctype
import Highlight.Html.Name
import Highlight.Html.RawText
import Highlight.Html.Scan
import Highlight.Html.Tag
import Highlight.JavaScript.Braced
import Highlight.JavaScript.Character
import Highlight.JavaScript.Comment
import Highlight.JavaScript.Element
import Highlight.JavaScript.Escape
import Highlight.JavaScript.Identifier
import Highlight.JavaScript.Keyword
import Highlight.JavaScript.Literal
import Highlight.JavaScript.Number
import Highlight.JavaScript.Operator
import Highlight.JavaScript.Regex
import Highlight.JavaScript.Scan
import Highlight.JavaScript.Tag
import Highlight.Json.Literal
import Highlight.Json.Number
import Highlight.Json.Scan
import Highlight.Keyword
import Highlight.Language
import Highlight.Main
import Highlight.Operator
import Highlight.Options
import Highlight.Piece.Basic
import Highlight.Piece.Construct
import Highlight.Piece.Literal
import Highlight.Proofs.CFamily.Coverage
import Highlight.Proofs.CFamily.Ending
import Highlight.Proofs.CFamily.Kinds
import Highlight.Proofs.CFamily.Lines
import Highlight.Proofs.CFamily.Number
import Highlight.Proofs.CFamily.RawString
import Highlight.Proofs.CFamily.Reading
import Highlight.Proofs.CFamily.Restart
import Highlight.Proofs.CFamily.Steady
import Highlight.Proofs.CFamily.Words
import Highlight.Proofs.Cli.Agreement
import Highlight.Proofs.Cli.Listing
import Highlight.Proofs.Coalescing
import Highlight.Proofs.Comment
import Highlight.Proofs.Coverage
import Highlight.Proofs.Cursor.Reading
import Highlight.Proofs.Cursor.Transaction
import Highlight.Proofs.Extensions
import Highlight.Proofs.Frames
import Highlight.Proofs.Html.Group
import Highlight.Proofs.Html.RawText
import Highlight.Proofs.Html.Reading
import Highlight.Proofs.JavaScript.Balance
import Highlight.Proofs.JavaScript.Belonging
import Highlight.Proofs.JavaScript.Braced
import Highlight.Proofs.JavaScript.Comment
import Highlight.Proofs.JavaScript.Coverage
import Highlight.Proofs.JavaScript.Depth
import Highlight.Proofs.JavaScript.Element
import Highlight.Proofs.JavaScript.Embedding
import Highlight.Proofs.JavaScript.Ending
import Highlight.Proofs.JavaScript.Escape
import Highlight.Proofs.JavaScript.Expression
import Highlight.Proofs.JavaScript.Filling
import Highlight.Proofs.JavaScript.Grammar
import Highlight.Proofs.JavaScript.Insertion
import Highlight.Proofs.JavaScript.Levels
import Highlight.Proofs.JavaScript.Members
import Highlight.Proofs.JavaScript.Name
import Highlight.Proofs.JavaScript.Number
import Highlight.Proofs.JavaScript.Outline
import Highlight.Proofs.JavaScript.Placed
import Highlight.Proofs.JavaScript.Places
import Highlight.Proofs.JavaScript.Reading
import Highlight.Proofs.JavaScript.Regex
import Highlight.Proofs.JavaScript.Settled
import Highlight.Proofs.JavaScript.Steady
import Highlight.Proofs.JavaScript.Tag
import Highlight.Proofs.JavaScript.Trivia
import Highlight.Proofs.JavaScript.Walk
import Highlight.Proofs.Json.Coverage
import Highlight.Proofs.Json.Decomposition
import Highlight.Proofs.Json.Grammar
import Highlight.Proofs.Json.Item
import Highlight.Proofs.Json.Members
import Highlight.Proofs.Json.Number
import Highlight.Proofs.Json.Reading
import Highlight.Proofs.Json.Steady
import Highlight.Proofs.Json.Words
import Highlight.Proofs.Keyword
import Highlight.Proofs.Lengths
import Highlight.Proofs.Markup.Group
import Highlight.Proofs.Markup.References
import Highlight.Proofs.Markup.StartTag
import Highlight.Proofs.Markup.Steady
import Highlight.Proofs.Markup.Tags
import Highlight.Proofs.Markup.Values
import Highlight.Proofs.Matchers
import Highlight.Proofs.Munch
import Highlight.Proofs.Operator
import Highlight.Proofs.Piece.Construct
import Highlight.Proofs.Piece.Ending
import Highlight.Proofs.Piece.Fits
import Highlight.Proofs.Piece.Gaps
import Highlight.Proofs.Piece.Labels
import Highlight.Proofs.Piece.Layout
import Highlight.Proofs.Piece.Leaving
import Highlight.Proofs.Piece.Places
import Highlight.Proofs.Piece.Recast
import Highlight.Proofs.Piece.Shown
import Highlight.Proofs.Piece.Steady
import Highlight.Proofs.Piece.Taking
import Highlight.Proofs.Piece.View
import Highlight.Proofs.Placement
import Highlight.Proofs.Progress
import Highlight.Proofs.Reference
import Highlight.Proofs.Search
import Highlight.Proofs.Sink.Canonical
import Highlight.Proofs.Sink.Emission
import Highlight.Proofs.Sink.History
import Highlight.Proofs.Sink.Word
import Highlight.Proofs.Text.Bytes
import Highlight.Proofs.Text.Digit
import Highlight.Proofs.Text.Escaped
import Highlight.Proofs.Text.Front
import Highlight.Proofs.Text.Longest
import Highlight.Proofs.Text.Order
import Highlight.Proofs.Text.Steady
import Highlight.Proofs.Token.Flat
import Highlight.Proofs.Tokens
import Highlight.Proofs.Xml.Composition
import Highlight.Proofs.Xml.Content
import Highlight.Proofs.Xml.Declaration
import Highlight.Proofs.Xml.Doctype
import Highlight.Proofs.Xml.Document
import Highlight.Proofs.Xml.Grammar
import Highlight.Proofs.Xml.Group
import Highlight.Proofs.Xml.Length
import Highlight.Proofs.Xml.Prolog
import Highlight.Proofs.Xml.Reading
import Highlight.Proofs.Xml.Settled
import Highlight.Proofs.Xml.Tag
import Highlight.Reference
import Highlight.Run
import Highlight.Search
import Highlight.Sink.Basic
import Highlight.Sink.Session
import Highlight.Text.Basic
import Highlight.Text.Blank
import Highlight.Text.Digit
import Highlight.Text.Escaped
import Highlight.Text.Extent
import Highlight.Text.GraphemeExtend
import Highlight.Text.Identifier
import Highlight.Text.IdentifierContinue
import Highlight.Text.IdentifierStart
import Highlight.Text.Ignorable
import Highlight.Text.Printable
import Highlight.Text.Quoted
import Highlight.Text.Ranges
import Highlight.Text.Unicode
import Highlight.Token.Basic
import Highlight.Token.Flat
import Highlight.Token.Kind
import Highlight.Total
import Highlight.Xml.Content
import Highlight.Xml.Declaration
import Highlight.Xml.Doctype
import Highlight.Xml.Literal
import Highlight.Xml.Name
import Highlight.Xml.Scan
import Highlight.Xml.Tag
