import MutekH.Rwlock
import MutekH.PthreadMutexOwner
import MutekH.PthreadCondWakeups
import MutekH.PthreadBarrier
import MutekH.PthreadThread
import MutekH.PthreadKeys
import MutekH.MwmrSoclib
import MutekH.MwmrPthreadWaiters
import MutekH.Timer
import MutekH.SchedulerIdle
import MutekH.SchedulerPreempt
import MutekH.VfsTransparency
import MutekH.VfsLookup
import MutekH.RamfsFile
import MutekH.RamfsForest
import MutekH.Ipv4Reassembly
import MutekH.TcpReceive
import MutekH.TcpSend
import MutekH.ArpResolution
import MutekH.Crc32
import MutekH.StdioBuffered
import MutekH.SdMmc
import MutekH.MmuX86
import MutekH.DeviceWait
import MutekH.CapsulePool
import MutekH.DispatchKill
import MutekH.MwmrLockfreeBlocking
import MutekH.MemoryAllocatorInvariant
import MutekH.PageAllocContiguous
import MutekH.FatEntry
import MutekH.VfsDirLocks
import MutekH.FatOpen
import MutekH.ArpAssertions
import MutekH.TcpAcknowledge
import MutekH.ReceivedSizes
import MutekH.IpForward
import MutekH.UdpVectors
import MutekH.DhcpOptions
import MutekH.PartitionTable
import MutekH.ElfSegments
import MutekH.Bsearch
import MutekH.SdMmcCrc
