import Wavicle.Auth.Logins
import Wavicle.Cluster.Moves
import Wavicle.Core.Interning
import Wavicle.Engine.Evaluators
import Wavicle.Engine.ExactLru
import Wavicle.Engine.Exactness
import Wavicle.Engine.Markers
import Wavicle.Engine.MerkleRoots
import Wavicle.Engine.Projections
import Wavicle.Engine.SharedLeaves
import Wavicle.Engine.Structure
import Wavicle.Engine.Vanished
import Wavicle.Engine.WarmCold
import Wavicle.Fidelity.Policy
import Wavicle.Migrate.Exclusion
import Wavicle.Migrate.Prover
import Wavicle.Replication.Convergence
import Wavicle.Replication.Poller
import Wavicle.Resp3.Allowlist
import Wavicle.Resp3.Atomicity
import Wavicle.Resp3.Expiry
import Wavicle.Resp3.HashRuns
import Wavicle.Resp3.Isolation
import Wavicle.Resp3.QueryReads
import Wavicle.Resp3.Scans
import Wavicle.Resp3.Streams
import Wavicle.Resp3.WriteErrors
import Wavicle.Resp3.WrongType
import Wavicle.Storage.Cells
import Wavicle.Storage.ClockOrder
import Wavicle.Storage.Deadlines
import Wavicle.Storage.Resolution
import Wavicle.Storage.RewriteCrash
