import SchemaDrift.Text.Quoted
import SchemaDrift.Text.Word
import SchemaDrift.Text.Caseless
import SchemaDrift.Text.Decimal
import SchemaDrift.Json.Token
import SchemaDrift.Json.Reader
import SchemaDrift.Json.Printer
import SchemaDrift.Json.Codec
import SchemaDrift.Schema.Path
import SchemaDrift.Schema.Permissions
import SchemaDrift.Schema.Serial
import SchemaDrift.Schema.TypeExpr
import SchemaDrift.Statement.Clause
import SchemaDrift.Statement.Read
import SchemaDrift.Migration.Basic
import SchemaDrift.Plan.Basic
import SchemaDrift.Files.SchemaDirectory
import SchemaDrift.Main
import SchemaDrift.Proofs.Statement.Phrase
import SchemaDrift.Proofs.Statement.Closed
import SchemaDrift.Proofs.Statement.Names
import SchemaDrift.Proofs.Statement.Heads
import SchemaDrift.Proofs.Statement.Grants
import SchemaDrift.Proofs.Statement.Clauses
import SchemaDrift.Proofs.Statement.Members
import SchemaDrift.Proofs.Statement.Pairs
import SchemaDrift.Proofs.Statement.Tables
import SchemaDrift.Proofs.Text.Ends
import SchemaDrift.Proofs.Statement.Ends
import SchemaDrift.Proofs.Statement.Surroundings
import SchemaDrift.Proofs.Statement.Nouns
import SchemaDrift.Proofs.Reading.RoundTrip
import SchemaDrift.Proofs.Reading.Strict
import SchemaDrift.Proofs.Schema.Edit
import SchemaDrift.Proofs.Migration.Instruction
import SchemaDrift.Proofs.Change.About
import SchemaDrift.Proofs.Migration.Rendered
import SchemaDrift.Proofs.Migration.Settling
import SchemaDrift.Proofs.Migration.Managed
import SchemaDrift.Proofs.Change.Mirror
import SchemaDrift.Proofs.Migration.Stated
import SchemaDrift.Proofs.Merge.Removal
import SchemaDrift.Proofs.Reading.Introspection
import SchemaDrift.Proofs.Reading.Snapshot
import SchemaDrift.Proofs.Migration.Transaction
import SchemaDrift.Proofs.Plan.Absence
import SchemaDrift.Proofs.Plan.Agreement
import SchemaDrift.Proofs.Plan.Pull
import SchemaDrift.Proofs.Schema.Steps
import SchemaDrift.Proofs.Schema.TypeForms
import SchemaDrift.Proofs.Schema.Terms
import SchemaDrift.Proofs.Schema.Canonical
import SchemaDrift.Proofs.Model.Mirror
import SchemaDrift.Proofs.Model.Enclosed
import SchemaDrift.Proofs.Source.RoundTrip
import SchemaDrift.Proofs.Text.Escape
import SchemaDrift.Proofs.Code.Cut
import SchemaDrift.Proofs.Code.Exchange
import SchemaDrift.Proofs.Code.Run
import SchemaDrift.Proofs.Code.Depth
import SchemaDrift.Proofs.Code.Part
import SchemaDrift.Proofs.Code.Lines
import SchemaDrift.Proofs.Code.Frame
import SchemaDrift.Proofs.Source.Named
import SchemaDrift.Proofs.Source.Pieces
import SchemaDrift.Proofs.Code.Listed
import SchemaDrift.Proofs.Merge.Cutting
import SchemaDrift.Proofs.Merge.Insertion
import SchemaDrift.Proofs.Merge.Fields
import SchemaDrift.Proofs.Merge.Accounting
import SchemaDrift.Proofs.Merge.Additive
import SchemaDrift.Proofs.Code.Search
import SchemaDrift.Proofs.Code.Function
import SchemaDrift.Proofs.Merge.Definitions
import SchemaDrift.Proofs.Merge.Layout
import SchemaDrift.Proofs.Merge.Places
import SchemaDrift.Proofs.Merge.Rows
import SchemaDrift.Proofs.Merge.Segments
import SchemaDrift.Proofs.Merge.Generated
import SchemaDrift.Proofs.Merge.Inventory
import SchemaDrift.Proofs.Merge.Steps
import SchemaDrift.Proofs.Merge.Session
import SchemaDrift.Proofs.Reading.Built
import SchemaDrift.Proofs.Migration.Elements
import SchemaDrift.Proofs.Migration.Implicit
import SchemaDrift.Proofs.Reading.Isolation
import SchemaDrift.Proofs.Reading.Identifiers
import SchemaDrift.Proofs.Reading.Order
import SchemaDrift.Proofs.Statement.Joined
import SchemaDrift.Proofs.Text.Squeezed
import SchemaDrift.Proofs.Statement.Squeezed
import SchemaDrift.Proofs.Reading.Squeezed
import SchemaDrift.Proofs.Reading.Comments
import SchemaDrift.Proofs.Merge.Again
import SchemaDrift.Proofs.Code.Cells
import SchemaDrift.Proofs.Code.Body
import SchemaDrift.Proofs.Merge.Unlisting
import SchemaDrift.Proofs.Merge.Remaining
import SchemaDrift.Proofs.Merge.Enlisting
import SchemaDrift.Proofs.Merge.Unreported
import SchemaDrift.Proofs.Schema.Options
import SchemaDrift.Proofs.Schema.Filled
import SchemaDrift.Proofs.Schema.Literals
import SchemaDrift.Proofs.Schema.Levels
import SchemaDrift.Proofs.Model.Containers
import SchemaDrift.Proofs.Statement.Spaced
import SchemaDrift.Proofs.Statement.HeadWords
import SchemaDrift.Proofs.Statement.ClauseOrder
import SchemaDrift.Proofs.Statement.Occurrence
import SchemaDrift.Proofs.Statement.Leaks
import SchemaDrift.Proofs.Statement.GrantClauses
import SchemaDrift.Proofs.Source.Clash
import SchemaDrift.Proofs.Code.LineEnds
import SchemaDrift.Proofs.Merge.Touched
import SchemaDrift.Proofs.Merge.Division
import SchemaDrift.Proofs.Code.Lexeme
import SchemaDrift.Proofs.Code.Lexed
import SchemaDrift.Proofs.Json.Written
import SchemaDrift.Proofs.Json.Spelled
import SchemaDrift.Proofs.Json.Encoded
import SchemaDrift.Proofs.Json.Restored
