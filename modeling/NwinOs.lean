import NwinOs.Core.Equiv.SyncWakeup
import NwinOs.Fs.Equiv.Mounts
import NwinOs.Core.Equiv.PageFault
import NwinOs.Tasking.Equiv.Reaper
import NwinOs.Tasking.Equiv.ElfConfined
import NwinOs.Fs.Ext4.Equiv.Extents
import NwinOs.Fs.Equiv.ProcessDisk
import NwinOs.Tasking.Equiv.ContextSwitch
import NwinOs.Fs.Fat.Equiv.Read
import NwinOs.Fs.Equiv.Mounted
import NwinOs.Fs.Fat.Equiv.Lookup
import NwinOs.Fs.Ext4.Equiv.Corrupted
import NwinOs.Fs.Ext4.Equiv.Names
import NwinOs.Core.Equiv.SyscallOpen
import NwinOs.Mm.Equiv.UserPage
import NwinOs.Core.Equiv.ExecStack
import NwinOs.Core.Equiv.Atomic
import NwinOs.Core.Equiv.Regions
import NwinOs.Tasking.Equiv.BoundedWaiting
import NwinOs.Mm.Equiv.Initialisation
import NwinOs.Mm.Equiv.CounterWrap
import NwinOs.Fs.Equiv.TarWalk
import NwinOs.Drivers.Equiv.Backspace
import NwinOs.Drivers.Equiv.Print
import NwinOs.Drivers.Equiv.Keyboard
import NwinOs.Drivers.Equiv.Checked
