import WebTidy.CharRef.Decode
import WebTidy.CharRef.Table
import WebTidy.Command
import WebTidy.Error
import WebTidy.Journal
import WebTidy.Main
import WebTidy.Markup.Comment
import WebTidy.Markup.Compact
import WebTidy.Markup.Element
import WebTidy.Markup.Indexed.Layout
import WebTidy.Markup.Indexed.Tags
import WebTidy.Markup.Indexed.Tokens
import WebTidy.Markup.Item
import WebTidy.Markup.Layout
import WebTidy.Markup.Name
import WebTidy.Markup.Nest
import WebTidy.Markup.Span
import WebTidy.Markup.Style
import WebTidy.Markup.Tag
import WebTidy.Markup.Token
import WebTidy.Operation
import WebTidy.Operation.Octets
import WebTidy.Proofs.CharRef
import WebTidy.Proofs.CharRef.Numeral
import WebTidy.Proofs.CharRef.Safety
import WebTidy.Proofs.CharRef.Stability
import WebTidy.Proofs.Command
import WebTidy.Proofs.Markup.Balance
import WebTidy.Proofs.Markup.Closer
import WebTidy.Proofs.Markup.CompactForm
import WebTidy.Proofs.Markup.Embedded
import WebTidy.Proofs.Markup.Extent
import WebTidy.Proofs.Markup.Failure
import WebTidy.Proofs.Markup.Forest
import WebTidy.Proofs.Markup.Idempotence
import WebTidy.Proofs.Markup.Indexed.Layout
import WebTidy.Proofs.Markup.Indexed.Tags
import WebTidy.Proofs.Markup.Indexed.Tokens
import WebTidy.Proofs.Markup.Inner
import WebTidy.Proofs.Markup.Kind
import WebTidy.Proofs.Markup.NormalForm
import WebTidy.Proofs.Markup.Octets
import WebTidy.Proofs.Markup.Octets.Layout
import WebTidy.Proofs.Markup.Octets.Tags
import WebTidy.Proofs.Markup.Octets.Tokens
import WebTidy.Proofs.Markup.Partition
import WebTidy.Proofs.Markup.Preservation
import WebTidy.Proofs.Markup.Quoting
import WebTidy.Proofs.Markup.Replay
import WebTidy.Proofs.Markup.Rescan
import WebTidy.Proofs.Markup.Rows
import WebTidy.Proofs.Markup.Scan
import WebTidy.Proofs.Markup.Seam
import WebTidy.Proofs.Markup.SelfClosing
import WebTidy.Proofs.Markup.Siblings
import WebTidy.Proofs.Markup.Verbatim
import WebTidy.Proofs.Markup.Walk
import WebTidy.Proofs.Markup.Weave
import WebTidy.Proofs.Operation
import WebTidy.Proofs.Session
import WebTidy.Proofs.Stylesheet.Addresses
import WebTidy.Proofs.Stylesheet.BraceDepth
import WebTidy.Proofs.Stylesheet.CompactAgain
import WebTidy.Proofs.Stylesheet.CompactForm
import WebTidy.Proofs.Stylesheet.Compaction
import WebTidy.Proofs.Stylesheet.Cursor
import WebTidy.Proofs.Stylesheet.CustomName
import WebTidy.Proofs.Stylesheet.Idempotence
import WebTidy.Proofs.Stylesheet.Indentation
import WebTidy.Proofs.Stylesheet.Laid
import WebTidy.Proofs.Stylesheet.LineEnds
import WebTidy.Proofs.Stylesheet.Lines
import WebTidy.Proofs.Stylesheet.Lookahead
import WebTidy.Proofs.Stylesheet.Move
import WebTidy.Proofs.Stylesheet.Octets
import WebTidy.Proofs.Stylesheet.Passage
import WebTidy.Proofs.Stylesheet.Preservation
import WebTidy.Proofs.Stylesheet.Respacing
import WebTidy.Proofs.Stylesheet.Returns
import WebTidy.Proofs.Stylesheet.Segment
import WebTidy.Proofs.Stylesheet.Selector
import WebTidy.Proofs.Stylesheet.Settled
import WebTidy.Proofs.Stylesheet.Uncommented
import WebTidy.Proofs.Stylesheet.View
import WebTidy.Proofs.Text
import WebTidy.Proofs.Text.Octet
import WebTidy.Proofs.Text.Offset
import WebTidy.Proofs.Text.Slice
import WebTidy.Proofs.Text.Spacing
import WebTidy.Proofs.Workspace
import WebTidy.Session
import WebTidy.Stylesheet.Compact
import WebTidy.Stylesheet.Cursor
import WebTidy.Stylesheet.Layout
import WebTidy.Stylesheet.Scanner
import WebTidy.Stylesheet.Value
import WebTidy.Text.Basic
import WebTidy.Text.Blank
import WebTidy.Text.Octet
import WebTidy.Text.Quoted
import WebTidy.Text.Slice
import WebTidy.Workspace
