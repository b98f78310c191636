import ApiSurface.CommandLine.Run
import ApiSurface.Declaration.Derivation
import ApiSurface.Main
import ApiSurface.Plan.Codec
import ApiSurface.Plan.Conformance
import ApiSurface.Proofs.Declaration.Finishes
import ApiSurface.Proofs.Run.Complete
import ApiSurface.Reflect.Loading
import ApiSurface.Run.Worker
import ApiSurface.Schema.Check
import ApiSurface.Proofs.Graph.Legal
import ApiSurface.Proofs.Graph.Verdict
import ApiSurface.Proofs.Run.Supplied
import ApiSurface.Proofs.Run.Accounts
import ApiSurface.Proofs.Live.Callable
import ApiSurface.Proofs.Run.Constants
import ApiSurface.Proofs.Declaration.Cursors
import ApiSurface.Proofs.Run.Precheck
import ApiSurface.Proofs.Declaration.TypeReading
import ApiSurface.Proofs.Declaration.StatementReading
import ApiSurface.Proofs.Declaration.Passes
import ApiSurface.Proofs.Declaration.Progress
import ApiSurface.Proofs.Live.Hosting
import ApiSurface.Proofs.Reflect.Growth
import ApiSurface.Proofs.Run.Delivered
import ApiSurface.Proofs.Run.Replayed
import ApiSurface.Proofs.Run.Receivers
import ApiSurface.Proofs.Reflect.Accounted
import ApiSurface.Proofs.Declaration.ClassNames
import ApiSurface.Proofs.Reflect.Intact
import ApiSurface.Proofs.Reflect.Repeated
import ApiSurface.Proofs.Reflect.Reachable
import ApiSurface.Proofs.Declaration.Everywhere
import ApiSurface.Proofs.Plan.Codec
import ApiSurface.Proofs.Declaration.Permuted
import ApiSurface.Proofs.Declaration.Inherited
import ApiSurface.Proofs.Declaration.Merged
import ApiSurface.Proofs.Guess.Widest
import ApiSurface.Proofs.Schema.Consistent
import ApiSurface.Proofs.Schema.Seeding
import ApiSurface.Proofs.Live.Lines
import ApiSurface.Proofs.Live.Settled
import ApiSurface.Proofs.Reflect.Methods
import ApiSurface.Proofs.Reflect.Returns
import ApiSurface.Proofs.Declaration.Spans
import ApiSurface.Proofs.Declaration.Unions
import ApiSurface.Proofs.Declaration.ReadBack
import ApiSurface.Proofs.Declaration.Shadowing
import ApiSurface.Proofs.Declaration.Divided
import ApiSurface.Proofs.Live.Patterns
import ApiSurface.Proofs.Run.Typed
import ApiSurface.Proofs.Live.Descent
import ApiSurface.Proofs.Declaration.Framed
import ApiSurface.Proofs.Declaration.Skipped
