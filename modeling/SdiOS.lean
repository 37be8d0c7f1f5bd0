import SdiOS.StringContracts
import SdiOS.BitScan
import SdiOS.Machine.Runs
import SdiOS.Machine.Slots
import SdiOS.NameServer.Bookkeeping
import SdiOS.NameServer.RoundTrip
import SdiOS.NameServer.Resolution
import SdiOS.NameServer.Discovery
import SdiOS.Allocator.RepeatedFree
import SdiOS.Root.Startup
import SdiOS.Root.PageRequests
import SdiOS.Root.Tasks
import SdiOS.Root.PagedImage
import SdiOS.Root.BootUp
import SdiOS.ServerStart
