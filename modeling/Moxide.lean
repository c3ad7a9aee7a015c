import Moxide.Theorems.Cgroup.Membership
import Moxide.Theorems.Cgroup.Memory
import Moxide.Theorems.Creds
import Moxide.Theorems.Elf64
import Moxide.Theorems.Evdev
import Moxide.Theorems.Exfat.NoTrace
import Moxide.Theorems.Fdt
import Moxide.Theorems.FileLocks
import Moxide.Theorems.Futex.Requeue
import Moxide.Theorems.Getdents
import Moxide.Theorems.Initramfs
import Moxide.Theorems.IoUring
import Moxide.Theorems.Ipi
import Moxide.Theorems.Jbd2Recovery
import Moxide.Theorems.Mmap.Munmap
import Moxide.Theorems.Mq.Bytes
import Moxide.Theorems.Msg
import Moxide.Theorems.Overlayfs
import Moxide.Theorems.Paging.Counts
import Moxide.Theorems.PidNs
import Moxide.Theorems.Pipe.Ends
import Moxide.Theorems.Pipe.Stream
import Moxide.Theorems.Pmm.Contig
import Moxide.Theorems.ProcessFd.Numbers
import Moxide.Theorems.Pty
import Moxide.Theorems.RunQueue.Runs
import Moxide.Theorems.Scheduler
import Moxide.Theorems.SchemeProxy.Calls
import Moxide.Theorems.Seccomp
import Moxide.Theorems.Seccomp.Tighten
import Moxide.Theorems.Signal
import Moxide.Theorems.Slab.Consistent
import Moxide.Theorems.Spinlock
import Moxide.Theorems.Swap
import Moxide.Theorems.SysvIpc
import Moxide.Theorems.Tcp.Open
import Moxide.Theorems.Tcp.Receive
import Moxide.Theorems.Timer
import Moxide.Theorems.UnixSocket
import Moxide.Theorems.VirtioNet
import Moxide.Theorems.Wait
