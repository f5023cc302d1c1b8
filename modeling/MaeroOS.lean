import MaeroOS.Seccomp.Discipline
import MaeroOS.Flock.Accounting
import MaeroOS.SysV.SemAccounts
import MaeroOS.SysV.MsgRefine
import MaeroOS.SysV.ShmLife
import MaeroOS.Pipe.Fifo
import MaeroOS.Virtio.Ownership
import MaeroOS.Timer.Report
import MaeroOS.Pmm.Quarantine
import MaeroOS.Jbd2.Atomic
import MaeroOS.Ext2.Committed
import MaeroOS.Ext2.OrphanLife
import MaeroOS.Ext2.Contents
import MaeroOS.Ext2.Allocator
import MaeroOS.Vm.FirstFit
import MaeroOS.Vm.FaultGrants
import MaeroOS.Futex.Timeout
import MaeroOS.Fs.Chroot
import MaeroOS.Fs.Ancestors
import MaeroOS.Futex.Wake
import MaeroOS.Libc.Mutex
import MaeroOS.Libc.Replace
import MaeroOS.Proc.Eventfd
import MaeroOS.Proc.Signal
import MaeroOS.Vfat.Mount
import MaeroOS.Usb.ScaleAbs
