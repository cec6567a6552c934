import Xv6.Shell.Termination
import Xv6.Malloc.Integrity
import Xv6.Console.Discipline
import Xv6.Pipes.Peers
import Xv6.Process.ReadyLists
import Xv6.Process.SetPriority
import Xv6.Process.Starvation
import Xv6.Process.Order
import Xv6.Process.Kill
import Xv6.Process.OpenFiles
import Xv6.Log.Admission
import Xv6.Log.Atomicity
import Xv6.Fs.FileWrite
import Xv6.Sync.Condition
import Xv6.Log.GroupCommit
import Xv6.Buffer.Coherence
import Xv6.Ide.Refinement
import Xv6.User.ProcTable
import Xv6.User.Confinement
import Xv6.Vm.Contiguity
import Xv6.Vm.Sbrk
import Xv6.Vm.ExecCall
import Xv6.Mkfs.ReadBack
import Xv6.Kernel.Multiprocessor
import Xv6.Fs.Allocation
import Xv6.Grep.Lines
