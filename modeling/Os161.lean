import Os161.Laws.Kern.Array
import Os161.Laws.Kern.Bitmap
import Os161.Laws.Kern.Bswap
import Os161.Laws.Kern.Console
import Os161.Laws.Kern.Lhd
import Os161.Laws.Kern.Snprintf
import Os161.Laws.Kern.Syscall
import Os161.Laws.Kern.Uio
import Os161.Laws.Sfs.Concurrent
import Os161.Laws.Sfs.Leaks
import Os161.Laws.Sfs.Names
import Os161.Laws.Sfs.Offsets
import Os161.Laws.Sfs.Released
import Os161.Laws.Sfs.Sparse
import Os161.Laws.Sfsck.Clean
import Os161.Laws.Sfsck.Tables
import Os161.Laws.Thread.Ipi
import Os161.Laws.Thread.Migration
import Os161.Laws.Thread.Semaphore
import Os161.Laws.Thread.Tags
import Os161.Laws.Thread.Threadlist
import Os161.Laws.User.Requests
import Os161.Laws.Vfs.Bootfs
import Os161.Laws.Vfs.Prefix
import Os161.Laws.Vm.Accepted
import Os161.Laws.Vm.Clock
import Os161.Laws.Vm.Copy
import Os161.Laws.Vm.FrameIndex
import Os161.Laws.Vm.HandOut
import Os161.Laws.Vm.HeapUse
import Os161.Laws.Vm.Isolation
import Os161.Laws.Vm.Pager
import Os161.Laws.Vm.Ram
import Os161.Laws.Vm.Regions
import Os161.Laws.Vm.SwapAccount
import Os161.Laws.Vm.SwapDevice
import Os161.Laws.Vm.TlbCoherent
