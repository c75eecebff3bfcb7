import AlloyFs.Agent.Echo
import AlloyFs.Agent.Excluded
import AlloyFs.Agent.FileLocks
import AlloyFs.Agent.Lease
import AlloyFs.Agent.Namespace
import AlloyFs.Agent.ReadOnly
import AlloyFs.Agent.SameVersion
import AlloyFs.Client.BlockReads
import AlloyFs.Client.Coarsen
import AlloyFs.Client.DirWalk
import AlloyFs.Client.FreshReads
import AlloyFs.Client.Gap
import AlloyFs.Client.Inodes
import AlloyFs.Client.Mirror
import AlloyFs.Client.OneTree
import AlloyFs.Client.OwnWrites
import AlloyFs.Client.Reconnect
import AlloyFs.Client.Requests
import AlloyFs.Client.Resubscribe
import AlloyFs.Client.SoleWriter
import AlloyFs.Client.Walker
import AlloyFs.Common.Converge
import AlloyFs.Common.Exact
import AlloyFs.Kernel.Resolve
import AlloyFs.Sync.Cursor
import AlloyFs.Sync.Plan
import AlloyFs.Sync.Preserve
import AlloyFs.Sync.Suppress
import AlloyFs.Sync.Transfer
import AlloyFs.Transport.Mux
import AlloyFs.Transport.Writer
