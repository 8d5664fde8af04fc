import AuditFields.Api
import AuditFields.Audit.Basic
import AuditFields.Audit.Deletion
import AuditFields.Audit.Fields
import AuditFields.Audit.Inputs
import AuditFields.Audit.Request
import AuditFields.Audit.Templates
import AuditFields.AuditField
import AuditFields.Cli.Arguments
import AuditFields.Cli.Files
import AuditFields.Cli.Log
import AuditFields.Cli.Run
import AuditFields.Config
import AuditFields.Entries
import AuditFields.Event
import AuditFields.Failure
import AuditFields.Json.Basic
import AuditFields.Json.Number
import AuditFields.Json.Printer
import AuditFields.Json.Reader
import AuditFields.Main
import AuditFields.Naming
import AuditFields.Number.Binary64
import AuditFields.Number.Decimal
import AuditFields.Schema.Basic
import AuditFields.Schema.Fault
import AuditFields.Schema.Printer
import AuditFields.Schema.Reader
import AuditFields.Schema.Token
import AuditFields.Schema.TypeRef
import AuditFields.Schema.Value
import AuditFields.Settings
import AuditFields.Stack.Basic
import AuditFields.Stack.Reader
import AuditFields.Task
import AuditFields.Template.Basic
import AuditFields.Template.Evaluation
import AuditFields.Template.Printer
import AuditFields.Text.Blank
import AuditFields.Text.Block
import AuditFields.Text.Quoted
import AuditFields.Text.Visible
import AuditFields.Toml.Reader
import AuditFields.Toml.Scalar
import AuditFields.Toml.Table
import AuditFields.Toml.Value
import AuditFields.Workspace
import AuditFields.Proofs.Drafts.Faithful
import AuditFields.Proofs.Audit.Effect
import AuditFields.Proofs.Drafts.Transaction
import AuditFields.Proofs.Audit.Sequence
import AuditFields.Proofs.Naming
import AuditFields.Proofs.Schema.Keyed
import AuditFields.Proofs.Audit.Cases
import AuditFields.Proofs.Audit.Fields
import AuditFields.Proofs.Audit.Completion
import AuditFields.Proofs.Audit.Upkeep
import AuditFields.Proofs.Audit.Stack
import AuditFields.Proofs.Template.Running
import AuditFields.Proofs.Template.Frame
import AuditFields.Proofs.Audit.Requests
import AuditFields.Proofs.Text.Lines
import AuditFields.Proofs.Text.Block
import AuditFields.Proofs.Text.Outdent
import AuditFields.Proofs.Text.Kept
import AuditFields.Proofs.Schema.Printing.Definitions
import AuditFields.Proofs.Schema.Reading.Definitions
import AuditFields.Proofs.Schema.Reading.Documents
import AuditFields.Proofs.Schema.Reading.Soundness
import AuditFields.Proofs.Schema.RoundTrip
import AuditFields.Proofs.Schema.Plain
import AuditFields.Proofs.Schema.Roots
import AuditFields.Proofs.Schema.Descriptions
import AuditFields.Proofs.Schema.Printable
import AuditFields.Proofs.Audit.Printing
import AuditFields.Proofs.Template.Unambiguous
import AuditFields.Proofs.Audit.Settings
import AuditFields.Proofs.Audit.Contract
import AuditFields.Proofs.Audit.Types
import AuditFields.Proofs.Audit.Schema
import AuditFields.Proofs.Audit.Objections
import AuditFields.Proofs.Audit.Order
import AuditFields.Proofs.Audit.Served
import AuditFields.Proofs.Audit.Distinct
import AuditFields.Proofs.Audit.Extensions
import AuditFields.Proofs.Cli.Files
import AuditFields.Proofs.Cli.Failure
import AuditFields.Proofs.Json.Reading
import AuditFields.Proofs.Json.Leaves
import AuditFields.Proofs.Text.Pieces
import AuditFields.Proofs.Json.Parts
import AuditFields.Proofs.Json.Order
import AuditFields.Proofs.Stack.Decoding
import AuditFields.Proofs.Stack.Resolvers
import AuditFields.Proofs.Stack.Tidied
import AuditFields.Proofs.Stack.RoundTrip
import AuditFields.Proofs.Text.Characters
import AuditFields.Proofs.Text.Quoted
import AuditFields.Proofs.Audit.Arguments
import AuditFields.Proofs.Schema.References
import AuditFields.Proofs.Drafts.Places
