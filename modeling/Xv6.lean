import Xv6.Semaphore.Closing
import Xv6.Semaphore.Incarnation
import Xv6.Semaphore.Range
import Xv6.Semaphore.EventIndex
import Xv6.Semaphore.GanttCells
import Xv6.Semaphore.Snapshot
import Xv6.Semaphore.Open
import Xv6.Log.Space
import Xv6.Log.Sync
import Xv6.Bio.CommitBuffers
import Xv6.Console.Lines
import Xv6.Virtio.Safety
import Xv6.Fs.BadSource
import Xv6.Fs.Bitmap
import Xv6.Fs.Directory
import Xv6.Fs.Path
import Xv6.Proc.CondVar
import Xv6.Pipe.Waiting
import Xv6.Proc.CleanSlots
import Xv6.Proc.Tree
import Xv6.Proc.CpusInv
import Xv6.User.GrepInput
import Xv6.User.Shell
import Xv6.Proc.Pids
import Xv6.User.UmallocRuns
import Xv6.Vm.ExecLaw
import Xv6.Proc.InterruptsInv
import Xv6.Lib.Memmove
import Xv6.Lib.Printint
import Xv6.Proc.Spinlock
import Xv6.Vm.Kalloc
import Xv6.Vm.Runs
import Xv6.Vm.UserMemory
