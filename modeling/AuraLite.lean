import AuraLite.Mm.HeapCoalescing
import AuraLite.Mm.HeapWrap
import AuraLite.Mm.SizeClassRuns
import AuraLite.Mm.PmmRuns
import AuraLite.Mm.CowIsolation
import AuraLite.Mm.MmapRuns
import AuraLite.Mm.Shmem
import AuraLite.Mm.PageCache
import AuraLite.Ipc.SemUndo
import AuraLite.Ipc.SysvShm
import AuraLite.Proc.AddressSpace
import AuraLite.Proc.Reaping
import AuraLite.Fs.Pipe
import AuraLite.Proc.SignalWait
import AuraLite.Proc.SignalStack
import AuraLite.Proc.ElfLoad
import AuraLite.Sync.Futex
import AuraLite.Sync.Pthread
import AuraLite.Arch.PcidEntry
import AuraLite.Arch.Shootdown
import AuraLite.Fs.LinkExpansion
import AuraLite.Fs.OpenFile
import AuraLite.Fs.InstallPolicy
import AuraLite.Fs.AreaReferences
import AuraLite.Fs.BufferCache
import AuraLite.Net.TcpHandles
import AuraLite.Net.IpReasmRuns
import AuraLite.Fs.FatWrites
import AuraLite.Net.Sack
import AuraLite.Net.SendLimits
import AuraLite.Net.FrameBounds
import AuraLite.Tls.Record
import AuraLite.Net.HttpConnection
import AuraLite.Libc.Malloc
import AuraLite.Tty.Canonical
