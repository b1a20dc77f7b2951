import Shading.Generation.Run
import Shading.Handover.Core
import Shading.Handover.Program
import Shading.Json.Text
import Shading.Proofs.Target.Input
import Shading.Proofs.Target.Scopes
import Shading.Proofs.Target.Versions
import Shading.Proofs.Target.Samplers
import Shading.Proofs.Target.Positions
import Shading.Proofs.Target.Operators
import Shading.Proofs.Target.Intrinsics
import Shading.Proofs.Target.Grouping
import Shading.Proofs.Target.Wiring
import Shading.Proofs.Target.Registers
import Shading.Proofs.Target.Arrays
import Shading.Proofs.Target.Identifiers
import Shading.Proofs.Model.Bindings
import Shading.Proofs.Model.Extension
import Shading.Proofs.Model.Rules
import Shading.Proofs.Elaboration.Places
import Shading.Proofs.Elaboration.Effects
import Shading.Proofs.Elaboration.Products
import Shading.Proofs.Elaboration.Void
import Shading.Proofs.Generation.Collected
import Shading.Proofs.Generation.Jobs
import Shading.Proofs.Generation.Policies
import Shading.Proofs.Generation.Accounts
import Shading.Proofs.Generation.Discovery
import Shading.Proofs.Matrices.Reading
import Shading.Proofs.Matrices.Products
import Shading.Proofs.Matrices.Denotation
import Shading.Proofs.Matrices.Mirror
import Shading.Proofs.Generation.FirstError
import Shading.Proofs.Model.Allocation
import Shading.Proofs.Graph.Cycles
import Shading.Proofs.Model.Recursion
import Shading.Proofs.Handover.Trims
import Shading.Proofs.Binary32.Exact
import Shading.Proofs.Handover.Program
import Shading.Proofs.Graph.Worklist
import Shading.Proofs.Model.Searches
import Shading.Proofs.Model.Layout
import Shading.Proofs.Model.Warnings
import Shading.Proofs.Binary32.Rounding
import Shading.Proofs.Binary32.Shortest
import Shading.Proofs.Binary32.Text
import Shading.Proofs.Core.Swizzle
import Shading.Proofs.Core.Visits
import Shading.Proofs.Elaboration.Calls
import Shading.Proofs.Target.Margins
