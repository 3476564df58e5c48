import GraphQL.Ast.Literals
import GraphQL.Ast.Walk
import GraphQL.Execution.Subscription
import GraphQL.Main
import GraphQL.Parser.TypeSystem
import GraphQL.Schema.Builder
import GraphQL.Script.Middleware
import GraphQL.Service
import GraphQL.Validation.Basic
import GraphQL.Value.JsonReader
import GraphQL.Proofs.RoundTrip
import GraphQL.Proofs.Language.Exact
import GraphQL.Proofs.Validation.Merging
import GraphQL.Proofs.Execution.Isolation
import GraphQL.Proofs.Schema.WellFormed
import GraphQL.Proofs.Grammar.Documents
import GraphQL.Proofs.Execution.Stability
import GraphQL.Proofs.Coercion.Checked
import GraphQL.Proofs.Coercion.Printed
import GraphQL.Proofs.Validation.Surroundings
import GraphQL.Proofs.Validation.Reaching
import GraphQL.Proofs.Execution.Streaming
import GraphQL.Proofs.Execution.Subscribed
import GraphQL.Proofs.Execution.Serial
import GraphQL.Proofs.Introspection.Faithful
import GraphQL.Proofs.Locations.Faithful
import GraphQL.Proofs.Locations.Lines
import GraphQL.Proofs.Parser.Bounds
import GraphQL.Proofs.Execution.Subtyping
import GraphQL.Proofs.Validation.Openings
import GraphQL.Proofs.Suggestion.Closest
import GraphQL.Proofs.Ast.Traversal
