import GpuWaits.Difference
import GpuWaits.Main
import GpuWaits.Proofs.Accepted
import GpuWaits.Proofs.Execution
import GpuWaits.Sample.Random
import GpuWaits.Proofs.Exact
import GpuWaits.Proofs.FixedPoint
import GpuWaits.Proofs.Bounded
import GpuWaits.Proofs.CheckEnds
import GpuWaits.Proofs.Drained
import GpuWaits.Proofs.Guard
import GpuWaits.Proofs.Ledger
import GpuWaits.Proofs.Ordered
import GpuWaits.Proofs.Outstanding
import GpuWaits.Proofs.Released
import GpuWaits.Proofs.Words
import GpuWaits.Proofs.Reading
import GpuWaits.Proofs.Arguments
import GpuWaits.Proofs.Lines
import GpuWaits.Proofs.RoundTrip
import GpuWaits.Proofs.Idempotent
import GpuWaits.Proofs.ScalarLoads
import GpuWaits.Proofs.Termination
import GpuWaits.Proofs.WellFormed
import GpuWaits.Proofs.Parsed
import GpuWaits.Proofs.Registered
import GpuWaits.Proofs.Overtake
import GpuWaits.Proofs.Encodable
import GpuWaits.Proofs.Drawn
import GpuWaits.Proofs.JoinLaws
import GpuWaits.Proofs.Gaps
import GpuWaits.Proofs.Retired
import GpuWaits.Proofs.Images
import GpuWaits.Proofs.MoreWaits
