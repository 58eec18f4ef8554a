import ApiClient.FileSystem.Changes
import ApiClient.Main
import ApiClient.Proofs.Client.Services
import ApiClient.Proofs.Document.Produced
import ApiClient.Proofs.Method.Scope
import ApiClient.Proofs.Json.Plain
import ApiClient.Proofs.Json.Spelling
import ApiClient.Proofs.Json.Written
import ApiClient.Proofs.Json.ReadWritten
import ApiClient.Proofs.Document.Scan
import ApiClient.Proofs.Document.Member
import ApiClient.Proofs.Document.Edit
import ApiClient.Proofs.Document.Found
import ApiClient.Proofs.Document.Rounds
import ApiClient.Proofs.Document.Normal
import ApiClient.Proofs.Json.Compact
import ApiClient.Proofs.Operation.Simple
import ApiClient.Proofs.Controller.Members
import ApiClient.Proofs.Controller.Clashes
import ApiClient.Proofs.Method.Keys
import ApiClient.Proofs.Binary64.Nearest
import ApiClient.Proofs.Binary64.Shortest
import ApiClient.Proofs.Json.Numeral
import ApiClient.Proofs.Json.Doubles
import ApiClient.Proofs.Json.Writable
import ApiClient.Proofs.FileSystem.Bounded
import ApiClient.Proofs.FileSystem.Path
import ApiClient.Proofs.TypeScript.TypeName
import ApiClient.Proofs.TypeScript.Models
import ApiClient.Proofs.Schema.References
import ApiClient.Proofs.Text.Lines
import ApiClient.Proofs.Definition.Model
import ApiClient.Proofs.Controller.Imports
import ApiClient.Proofs.Controller.Tags
import ApiClient.Proofs.Controller.Agreement
import ApiClient.Proofs.Schema.Denotes
import ApiClient.Proofs.Schema.Combined
import ApiClient.Proofs.Client.Paths
import ApiClient.Proofs.Client.Confined
import ApiClient.Proofs.Parameter.Declared
import ApiClient.Proofs.Parameter.Validated
import ApiClient.Proofs.Operation.Merge
import ApiClient.Proofs.Operation.Override
import ApiClient.Proofs.Operation.Levels
import ApiClient.Proofs.FileSystem.Steps
import ApiClient.Proofs.Client.Contents
import ApiClient.Proofs.Client.Parts
import ApiClient.Proofs.Client.Independent
import ApiClient.Proofs.Client.Leftover
import ApiClient.Proofs.Client.Failed
import ApiClient.Proofs.Document.Settled
import ApiClient.Proofs.Json.Complete
import ApiClient.Proofs.Json.Gapped
import ApiClient.Proofs.Document.Cut
import ApiClient.Proofs.Document.Remains
import ApiClient.Proofs.Operation.Numbering
import ApiClient.Proofs.Method.Variant
import ApiClient.Proofs.Method.Partition
import ApiClient.Proofs.Definition.Interface
import ApiClient.Proofs.Definition.Inline
import ApiClient.Proofs.Definition.Composed
import ApiClient.Proofs.TypeScript.PropertyName
import ApiClient.Proofs.Url
import ApiClient.Proofs.Text.Ended
import ApiClient.Proofs.TypeScript.Comment
import ApiClient.Proofs.TypeScript.Scanned
import ApiClient.Proofs.TypeScript.Enumeration
import ApiClient.Proofs.Json.Figures
import ApiClient.Proofs.TypeScript.UnionState
import ApiClient.Proofs.TypeScript.Recognised
import ApiClient.Proofs.TypeScript.Bindable
import ApiClient.Proofs.Schema.Scalar
import ApiClient.Proofs.Parameter.Positional
import ApiClient.Proofs.Controller.ClassName
import ApiClient.Proofs.Response.Success
import ApiClient.Proofs.Definition.Reordered
import ApiClient.Proofs.Operation.Identifier
import ApiClient.Proofs.Text.Indented
