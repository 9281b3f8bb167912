import PqIotAuth.Accountability
import PqIotAuth.Atomicity
import PqIotAuth.AttestDomain
import PqIotAuth.AuditTrail
import PqIotAuth.Backing
import PqIotAuth.Binding
import PqIotAuth.Books
import PqIotAuth.Comparison
import PqIotAuth.ComparisonRunner
import PqIotAuth.DIDUtils
import PqIotAuth.ExitLock
import PqIotAuth.FalconSimulation
import PqIotAuth.FogTopology
import PqIotAuth.InclusionProofs
import PqIotAuth.Independence
import PqIotAuth.Membership
import PqIotAuth.Minority
import PqIotAuth.Observer
import PqIotAuth.Punishment
import PqIotAuth.RelayExit
import PqIotAuth.Replay
import PqIotAuth.Schedules
import PqIotAuth.SelfExit
import PqIotAuth.Unchallenged
import PqIotAuth.Window
