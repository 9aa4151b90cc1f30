import AllocationKeys.Lib.EnergyRounds
import AllocationKeys.Algorithms.Base
import AllocationKeys.BruteForce.Iteration
import AllocationKeys.BruteForce.Functions
import AllocationKeys.BruteForce.Generator
import AllocationKeys.BruteForce.Paths
import AllocationKeys.BruteForce.Rounds
import AllocationKeys.BruteForce.Balance
import AllocationKeys.BruteForce.Conservation
import AllocationKeys.BruteForce.Optimum
import AllocationKeys.BruteForce.Replay
import AllocationKeys.BruteForce.Shares
import AllocationKeys.Lib.Heap
import AllocationKeys.BruteForce.Former
import AllocationKeys.BruteForce.FormerRuns
import AllocationKeys.Lib.Program
import AllocationKeys.Olagsa.Geometry
import AllocationKeys.Olagsa.Solver
import AllocationKeys.Olagsa.Genetic
import AllocationKeys.Olagsa.Individuals
import AllocationKeys.Olagsa.Search
import AllocationKeys.Olagsa.Algorithm
import AllocationKeys.Olagsa.Species
import AllocationKeys.Olagsa.Complete
import AllocationKeys.Olagsa.Culling
import AllocationKeys.Olagsa.Stagnation
import AllocationKeys.Olagsa.Elitism
import AllocationKeys.Olagsa.Chain
import AllocationKeys.Olagsa.Report
import AllocationKeys.Olagsa.Selection
import AllocationKeys.Lib.Concurrent
import AllocationKeys.Lib.Perform
import AllocationKeys.Generation.Records
import AllocationKeys.Generation.Store
import AllocationKeys.Generation.Persistence
import AllocationKeys.Generation.Dispatcher
import AllocationKeys.Generation.Service
import AllocationKeys.Generation.System
import AllocationKeys.Generation.Invariant
import AllocationKeys.Generation.Steps
import AllocationKeys.Generation.Calls
import AllocationKeys.Generation.Worker
import AllocationKeys.Generation.Requests
import AllocationKeys.Generation.Runs
import AllocationKeys.Generation.OneResult
import AllocationKeys.Generation.Terminal
import AllocationKeys.Generation.Delivery
import AllocationKeys.Generation.FailedStart
import AllocationKeys.Generation.Cleanup
import AllocationKeys.Generation.UploadedFile
import AllocationKeys.Lib.Forest
import AllocationKeys.Lib.Mirror
import AllocationKeys.Lib.Trace
import AllocationKeys.Tenants.Databases
import AllocationKeys.Tenants.Requests
import AllocationKeys.Tenants.Sound
import AllocationKeys.Tenants.Confined
import AllocationKeys.Tenants.Isolation
import AllocationKeys.Tenants.Replies
import AllocationKeys.Tenants.Reachable
import AllocationKeys.Tenants.Audits
import AllocationKeys.Lib.Paging
import AllocationKeys.Tenants.Pages
import AllocationKeys.Lib.Regex
import AllocationKeys.Security.GatewayAuth
import AllocationKeys.Lib.Csv
import AllocationKeys.Lib.Utf8
import AllocationKeys.Upload.Shape
import AllocationKeys.Lib.Frame
import AllocationKeys.Crm.Timeseries
import AllocationKeys.Crm.Preflight
import AllocationKeys.Lib.Nan
import AllocationKeys.BruteForce.Blanks
import AllocationKeys.Upload.Gaps
import AllocationKeys.Worker.Heartbeat
import AllocationKeys.Generation.Retries
import AllocationKeys.Olagsa.Membership
import AllocationKeys.Olagsa.WellPosed
import AllocationKeys.Lib.Chance
import AllocationKeys.Olagsa.Rates
import AllocationKeys.Olagsa.Simplex
import AllocationKeys.Lib.Counted
import AllocationKeys.Olagsa.Budget
import AllocationKeys.Lib.Given
import AllocationKeys.Generation.Provenance
import AllocationKeys.Generation.Published
import AllocationKeys.Worker.SolverPool
import AllocationKeys.Lib.Json
import AllocationKeys.Queue.Events
import AllocationKeys.Realtime.Bus
import AllocationKeys.Realtime.Hints
import AllocationKeys.Lib.Once
import AllocationKeys.Generation.Lifecycle
import AllocationKeys.Lib.Surely
import AllocationKeys.Generation.Alone
import AllocationKeys.BruteForce.Symmetry
import AllocationKeys.BruteForce.Splits
import AllocationKeys.Upload.Keys
import AllocationKeys.Generation.Stored
import AllocationKeys.Generation.Texts
import AllocationKeys.Generation.Poison
import AllocationKeys.Lib.Trees
import AllocationKeys.Generation.Outcomes
import AllocationKeys.Tenants.Written
import AllocationKeys.Tenants.History
