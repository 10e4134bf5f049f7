import RudimentaryKernel.AtaDriver
import RudimentaryKernel.Barrier
import RudimentaryKernel.ClusterMerging
import RudimentaryKernel.ClusterOwners
import RudimentaryKernel.CriticalFlags
import RudimentaryKernel.DirectYield
import RudimentaryKernel.Frames
import RudimentaryKernel.IdLocks
import RudimentaryKernel.InterruptRuns
import RudimentaryKernel.KernelLocks
import RudimentaryKernel.Leaks
import RudimentaryKernel.MailboxBytes
import RudimentaryKernel.MailboxHeaders
import RudimentaryKernel.MemoryImage
import RudimentaryKernel.PageBudget
import RudimentaryKernel.PageMaps
import RudimentaryKernel.Reaping
import RudimentaryKernel.RoundRobin
import RudimentaryKernel.SerialLine
import RudimentaryKernel.SharedPools
import RudimentaryKernel.Terminal
import RudimentaryKernel.ThreadSplicing
import RudimentaryKernel.TypedCommands
import RudimentaryKernel.UserMemory
