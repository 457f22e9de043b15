import Shitix.Drivers.MakeRequest
import Shitix.Drivers.RawQueue
import Shitix.Exec.StackFits
import Shitix.Fs.BufferRun
import Shitix.Fs.Ext4Dir
import Shitix.Fs.Ext4Extents
import Shitix.Fs.InodeUnique
import Shitix.Fs.MinixAlloc
import Shitix.Fs.MinixInode
import Shitix.Fs.MinixTruncate
import Shitix.Fs.OpenFiles
import Shitix.Fs.PipeFaults
import Shitix.Fs.Query
import Shitix.Fs.TimerFd
import Shitix.Fs.WorkingDir
import Shitix.Klib.LogRing
import Shitix.Mm.PageAllocRun
import Shitix.Net.Lifecycle
import Shitix.Sched.Fairness
import Shitix.Sched.KernelStacks
import Shitix.Sched.RunRing
import Shitix.Sched.Sessions
import Shitix.Sched.Vfork
import Shitix.Sched.Wait
import Shitix.Sharing.BrkLaw
import Shitix.Sharing.FrameLaw
import Shitix.Sharing.Queries
import Shitix.Signal.Killable
import Shitix.Signal.Tables
import Shitix.Signal.Transparent
import Shitix.Syscall.Credentials
