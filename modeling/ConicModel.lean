import ConicModel.Matrix.Triplets
import ConicModel.Message
import ConicModel.Session.Queries
import ConicModel.Proofs.Exact
import ConicModel.Proofs.Matrix.Entries
import ConicModel.Proofs.Matrix.Kronecker
import ConicModel.Proofs.Objective.Reading
import ConicModel.Proofs.Objective.Total
import ConicModel.Proofs.Construction
import ConicModel.Proofs.Roster
import ConicModel.Proofs.Coherence
import ConicModel.Proofs.World
import ConicModel.Proofs.Compile.Walk
import ConicModel.Proofs.Compile.Run
import ConicModel.Proofs.Compile.Depth
import ConicModel.Proofs.Compile.Closure
import ConicModel.Proofs.Compile.Calls
import ConicModel.Proofs.Evaluation
import ConicModel.Proofs.Convexity
import ConicModel.Proofs.Compile.Meaning
import ConicModel.Proofs.Compile.Refusal
import ConicModel.Proofs.Compile.Blame
import ConicModel.Proofs.Compile.Order
import ConicModel.Proofs.Compile.Failure
import ConicModel.Proofs.Compile.Retry
import ConicModel.Proofs.Compile.History
import ConicModel.Proofs.Compile.Lifetime
import ConicModel.Proofs.Compile.Records
import ConicModel.Proofs.Compile.Blind
import ConicModel.Proofs.Solution.Block
import ConicModel.Proofs.Solution.Scatter
import ConicModel.Proofs.Solution.Assembly
import ConicModel.Proofs.Solution.Atomicity
import ConicModel.Proofs.Compile.Image
import ConicModel.Proofs.Session.Memory
import ConicModel.Proofs.Matrix.Positions
import ConicModel.Proofs.Compile.Nesting
import ConicModel.Proofs.Compile.Plain
import ConicModel.Proofs.Session.Lifecycle
import ConicModel.Proofs.Solution.Tiling
import ConicModel.Proofs.Solution.RoundTrip
import ConicModel.Proofs.Objective.Arithmetic
import ConicModel.Proofs.Compile.Inference
import ConicModel.Proofs.Objective.Uniform
import ConicModel.Proofs.Objective.Mixed
import ConicModel.Proofs.Session.Objectives
import ConicModel.Proofs.Compile.Support
import ConicModel.Proofs.Datum.Rectangle
import ConicModel.Proofs.Datum.Acceptance
import ConicModel.Proofs.Session.Assignment
import ConicModel.Proofs.Mirror
import ConicModel.Proofs.Compile.Mirror
import ConicModel.Proofs.Session.Registry
import ConicModel.Proofs.Births
import ConicModel.Proofs.Making
import ConicModel.Proofs.Compile.Births
import ConicModel.Proofs.Session.Births
import ConicModel.Proofs.Session.Identities
