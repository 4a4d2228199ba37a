import Pops.Mesh.Boundary.BoundarySchedule
import Pops.Mesh.Boundary.HaloTransport
import Pops.Mesh.Index.BoxHash
import Pops.Mesh.Layout.DomainTiling
import Pops.Mesh.Layout.TransferConservation
import Pops.Parallel.BalanceBounds
import Pops.Amr.Hierarchy.HierarchyPlan
import Pops.Amr.Levels.Subcycling
import Pops.Amr.Reflux.InterfaceLedgerHistory
import Pops.Amr.Reflux.LedgerHistory
import Pops.Amr.Tagging.ClusterErrors
import Pops.Core.Identity.CanonicalEncoding
import Pops.Core.Identity.CppLowering
import Pops.Core.Identity.ExactContract
import Pops.Ir.Derivative
import Pops.Ir.PrimitiveExpansionSound
import Pops.Codegen.CseEmission
import Pops.Codegen.ProgramMappingRegions
import Pops.Codegen.RhsCoherenceOrder
import Pops.Time.History.Persistence
import Pops.Time.Methods.ProgramCertificate
import Pops.Runtime.Analytic.LoweringCompiles
import Pops.Runtime.Consumers.TransactionRuns
import Pops.Runtime.Program.AcceptedStateCapacity
import Pops.Runtime.Program.CadenceRuns
import Pops.Runtime.Program.CellTemporalRuns
import Pops.Runtime.Program.ClockFailures
import Pops.Runtime.Program.ClockTicks
import Pops.Runtime.Program.CollectiveRejection
import Pops.Runtime.Program.FluxProvenance
import Pops.Runtime.Program.HistoryFluxLineage
import Pops.Runtime.Program.HistoryFluxRestore
import Pops.Runtime.Program.HistoryRingRuns
import Pops.Runtime.Stepping.RestartRuns
