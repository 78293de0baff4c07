import TypedClient.Command.Session
import TypedClient.Main
import TypedClient.Proofs.TypeScript.Ordering
import TypedClient.Proofs.TypeScript.Reading
import TypedClient.Proofs.TypeScript.Aliases
import TypedClient.Proofs.TypeScript.Names
import TypedClient.Proofs.Module.References
import TypedClient.Proofs.Module.Documentation
import TypedClient.Proofs.Module.Emission
import TypedClient.Proofs.Reduction.Idempotence
import TypedClient.Proofs.Reduction.NormalForm
import TypedClient.Proofs.Reduction.Widening
import TypedClient.Proofs.Reduction.Inference
import TypedClient.Proofs.Reduction.Leaves
import TypedClient.Proofs.Reduction.Regrouping
import TypedClient.Proofs.Reduction.EarlyUnions
import TypedClient.Proofs.Reduction.Termination
import TypedClient.Proofs.Document.Dereference
import TypedClient.Proofs.Schema.Parts
import TypedClient.Proofs.Schema.Renders
import TypedClient.Proofs.Schema.Walk
import TypedClient.Proofs.Schema.Requests
import TypedClient.Proofs.Shape.Unsigned
import TypedClient.Proofs.Schema.Enumerations
import TypedClient.Proofs.Schema.History
import TypedClient.Proofs.Schema.Targets
import TypedClient.Proofs.Schema.Termination
import TypedClient.Proofs.Schema.Correlation
import TypedClient.Proofs.Schema.Signatures
import TypedClient.Proofs.Schema.Resolution
import TypedClient.Proofs.Schema.Definitions
import TypedClient.Proofs.Module.Endpoints
import TypedClient.Proofs.Module.Bindings
import TypedClient.Proofs.Module.DerivedNames
import TypedClient.Proofs.Module.Functions
import TypedClient.Proofs.Module.Injection
import TypedClient.Proofs.OpenApi.Operations
import TypedClient.Proofs.OpenApi.Parameters
import TypedClient.Proofs.Command.Runs
