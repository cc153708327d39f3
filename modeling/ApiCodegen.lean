import ApiCodegen.Main
import ApiCodegen.Proofs.Name.Fresh
import ApiCodegen.Proofs.File.Tree
import ApiCodegen.Proofs.File.Walk
import ApiCodegen.Proofs.File.Commit
import ApiCodegen.Proofs.Generation.Failure
import ApiCodegen.Proofs.Markup.Value
import ApiCodegen.Proofs.Schema.Merge
import ApiCodegen.Proofs.Schema.Reachable
import ApiCodegen.Proofs.Name.Identifier
import ApiCodegen.Proofs.Server.TypeExpr
import ApiCodegen.Proofs.Client.TypeExpr
import ApiCodegen.Proofs.Plan.Declaration
import ApiCodegen.Proofs.Plan.Route
import ApiCodegen.Proofs.Server.Models
import ApiCodegen.Proofs.Client.Files
import ApiCodegen.Proofs.Generation.Scope
import ApiCodegen.Proofs.Plan.Segment
import ApiCodegen.Proofs.Plan.Topology
import ApiCodegen.Proofs.FirstSeen
import ApiCodegen.Proofs.Members
import ApiCodegen.Proofs.Schema.Combine
import ApiCodegen.Proofs.Markup.Keys
import ApiCodegen.Proofs.Schema.Load
import ApiCodegen.Proofs.Schema.Unique
import ApiCodegen.Proofs.Plan.Registration
import ApiCodegen.Proofs.Plan.Partition
import ApiCodegen.Proofs.Plan.Served
import ApiCodegen.Proofs.Schema.Remarks
import ApiCodegen.Proofs.Schema.Listing
import ApiCodegen.Proofs.Schema.Pass
import ApiCodegen.Proofs.Schema.Policy
import ApiCodegen.Proofs.Plan.Binding
import ApiCodegen.Proofs.Plan.Collision
import ApiCodegen.Proofs.Plan.Conflict
import ApiCodegen.Proofs.Generation.Refusal
import ApiCodegen.Proofs.Server.Handlers
import ApiCodegen.Proofs.Server.Services
import ApiCodegen.Proofs.Generation.Delegation
import ApiCodegen.Proofs.Name.Legal
import ApiCodegen.Proofs.Name.Case
import ApiCodegen.Proofs.Plan.Identifiers
import ApiCodegen.Proofs.Client.Methods
import ApiCodegen.Proofs.Generation.Correspondence
import ApiCodegen.Proofs.Server.AliasOrder
import ApiCodegen.Proofs.Server.Evaluation
import ApiCodegen.Proofs.Server.Definitions
import ApiCodegen.Proofs.Server.Meanings
import ApiCodegen.Proofs.Generation.BoundNames
import ApiCodegen.Proofs.Plan.TieBreak
import ApiCodegen.Proofs.Server.Mounting
import ApiCodegen.Proofs.Generation.TypeText
import ApiCodegen.Proofs.Server.Declared
import ApiCodegen.Proofs.Client.Declared
import ApiCodegen.Proofs.Generation.SharedModels
import ApiCodegen.Proofs.Server.Signature
import ApiCodegen.Proofs.Plan.Reaching
import ApiCodegen.Proofs.Plan.Template
import ApiCodegen.Proofs.Client.Substitution
import ApiCodegen.Proofs.Client.PathExpression
import ApiCodegen.Proofs.File.Resolve
import ApiCodegen.Proofs.File.Success
import ApiCodegen.Proofs.File.Repeat
import ApiCodegen.Proofs.Server.Search
import ApiCodegen.Proofs.Plan.Stability
import ApiCodegen.Proofs.Server.InputKeys
import ApiCodegen.Proofs.Schema.Reading
import ApiCodegen.Proofs.Schema.Normal
import ApiCodegen.Proofs.Schema.Spelling
import ApiCodegen.Proofs.Schema.Properties
import ApiCodegen.Proofs.Generation.NullOnce
import ApiCodegen.Proofs.Generation.Enclosed
import ApiCodegen.Proofs.Server.AliasComment
import ApiCodegen.Proofs.Text.Embedded
import ApiCodegen.Proofs.Generation.Texts
import ApiCodegen.Proofs.Generation.QuotedTexts
import ApiCodegen.Proofs.Generation.NullDefault
import ApiCodegen.Proofs.Text.Display
import ApiCodegen.Proofs.Numeric.Numeral
import ApiCodegen.Proofs.Generation.Defaults
import ApiCodegen.Proofs.Server.Bounds
import ApiCodegen.Proofs.Generation.LegalNames
import ApiCodegen.Proofs.Schema.Refused
import ApiCodegen.Proofs.File.Destination
import ApiCodegen.Proofs.File.Below
import ApiCodegen.Proofs.File.Staging
import ApiCodegen.Proofs.Command.Sources
import ApiCodegen.Proofs.Generation.Report
import ApiCodegen.Proofs.Name.Supply
import ApiCodegen.Proofs.Name.Operation
import ApiCodegen.Proofs.Name.Normal
import ApiCodegen.Proofs.Client.Pattern
import ApiCodegen.Proofs.Command.Precedence
import ApiCodegen.Proofs.Tool.Probe
import ApiCodegen.Proofs.Generation.OwnFormatters
