import JobQueue.Support.KeyedTable
import JobQueue.Support.Overlay
import JobQueue.Support.FloatingPoint
import JobQueue.Support.Ledger
import JobQueue.Support.Potential
import JobQueue.Support.Schema
import JobQueue.Support.Draining
import JobQueue.Support.Paging
import JobQueue.Support.Execution
import JobQueue.Support.Numeral
import JobQueue.Support.Rounding
import JobQueue.Core.Text
import JobQueue.Core.Job
import JobQueue.Service.Operations
import JobQueue.Service.Statements
import JobQueue.Service.System
import JobQueue.Service.Listing
import JobQueue.Service.Counts
import JobQueue.Lifecycle.Row
import JobQueue.Lifecycle.Refinement
import JobQueue.Lifecycle.Invariant
import JobQueue.Lifecycle.Ownership
import JobQueue.Lifecycle.Transitions
import JobQueue.Lifecycle.Fencing
import JobQueue.Lifecycle.Accounting
import JobQueue.Lifecycle.Lease
import JobQueue.Lifecycle.Pending
import JobQueue.Lifecycle.Recovery
import JobQueue.Lifecycle.Delay
import JobQueue.Lifecycle.Endings
import JobQueue.Lifecycle.Progress
import JobQueue.Lifecycle.Sweeps
import JobQueue.Lifecycle.Paging
import JobQueue.Lifecycle.Flow
import JobQueue.Lifecycle.Liveness
import JobQueue.Support.SortedSet
import JobQueue.Support.Concurrent
import JobQueue.ReadyQueue.Scripts
import JobQueue.ReadyQueue.Member
import JobQueue.ReadyQueue.Representation
import JobQueue.ReadyQueue.Order
import JobQueue.ReadyQueue.Precision
import JobQueue.Deployment.Processes
import JobQueue.Deployment.Projection
import JobQueue.Deployment.Publishing
import JobQueue.Deployment.Visibility
import JobQueue.Deployment.Attempts
import JobQueue.Transactions.Sessions
import JobQueue.Transactions.Locality
import JobQueue.Transactions.Sweeps
import JobQueue.Transactions.Atomicity
import JobQueue.Submission.Transactions
import JobQueue.Submission.Idempotency
import JobQueue.Mutations.Calls
import JobQueue.Mutations.Conflicts
import JobQueue.Mutations.Race
import JobQueue.Migration.ExecutionToken
import JobQueue.Migration.RoundTrip
import JobQueue.Worker.Pickup
import JobQueue.Worker.Shift
import JobQueue.Worker.Process
import JobQueue.Worker.Attempts
import JobQueue.Worker.Returns
import JobQueue.Worker.Shutdown
import JobQueue.Worker.Refinement
import JobQueue.Worker.Chronicle
import JobQueue.Worker.Records
import JobQueue.Core.Json
import JobQueue.Api.Payloads
import JobQueue.Api.Jobs
import JobQueue.Api.Health
import JobQueue.Deployment.Backlog
import JobQueue.Deployment.Exclusion
import JobQueue.Worker.Reports
import JobQueue.Worker.Handlers
import JobQueue.Worker.Batches
