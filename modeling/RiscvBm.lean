import RiscvBm.Sync.SleepLock
import RiscvBm.Fs.DiskLog
import RiscvBm.Fs.BlockOwnership
import RiscvBm.Ipc.Pipe
import RiscvBm.Dev.VirtioRequests
import RiscvBm.Fs.BufCache
import RiscvBm.User.Umalloc
import RiscvBm.User.Dhcp
import RiscvBm.Vm.ForkCopies
import RiscvBm.Dev.E1000
import RiscvBm.Sync.WaitQueue
import RiscvBm.Net.MbufBounds
import RiscvBm.Net.SockRead
import RiscvBm.Net.Sockets
import RiscvBm.Proc.Timers
import RiscvBm.Proc.Tree
import RiscvBm.Proc.Pid
import RiscvBm.Vm.Teardown
import RiscvBm.Mm.BuddyFlags
import RiscvBm.Fs.MkfsHoles
import RiscvBm.Dev.Console
import RiscvBm.Fs.Resolve
import RiscvBm.Vm.ForkFails
import RiscvBm.Vm.ExecFails
import RiscvBm.Vm.ExecLoad
import RiscvBm.Mm.SlobPage
import RiscvBm.Mm.Memblock
import RiscvBm.Net.ArpTable
import RiscvBm.Net.Receive
import RiscvBm.Debug.Backtrace
import RiscvBm.Sync.TryAcquire
import RiscvBm.Dev.Uart
