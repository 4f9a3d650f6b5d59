import ApPa.Lib.LittleEndian
import ApPa.Lib.BitTable
import ApPa.Lib.RunSearch
import ApPa.Lib.Word32
import ApPa.Lib.Machine
import ApPa.Lib.Loop
import ApPa.Lib.ByteMem
import ApPa.Lib.Ring
import ApPa.Lib.Ledger
import ApPa.Lib.Ia32
import ApPa.Lib.Masking
import ApPa.Lib.Numeral
import ApPa.Klibc.CString
import ApPa.Klibc.Number
import ApPa.Fs.Layout
import ApPa.Fs.SimpleFs
import ApPa.Fs.Volume
import ApPa.Fs.Routines
import ApPa.Fs.Consistency
import ApPa.Fs.Operations
import ApPa.Fs.NameMap
import ApPa.Fs.Refinement
import ApPa.Fs.Faults
import ApPa.Fs.Allocation
import ApPa.Fs.Crash
import ApPa.Fs.Ramdisk
import ApPa.Fs.ReadErrors
import ApPa.Fs.Inspect
import ApPa.Heap.Kmalloc
import ApPa.Heap.Blocks
import ApPa.Heap.Walks
import ApPa.Heap.Run
import ApPa.Heap.Layout
import ApPa.Heap.Client
import ApPa.Heap.BestFit
import ApPa.Memory.Pmm
import ApPa.Memory.Paging
import ApPa.Memory.Frames
import ApPa.Memory.Directory
import ApPa.Memory.AddressSpace
import ApPa.Memory.Release
import ApPa.Memory.UserSpace
import ApPa.Memory.Access
import ApPa.Memory.Boot
import ApPa.Memory.Pool
import ApPa.Memory.KernelPages
import ApPa.Task.Sched
import ApPa.Task.Task
import ApPa.Task.Queue
import ApPa.Task.RoundRobin
import ApPa.Task.Lifecycle
import ApPa.Task.Creation
import ApPa.Task.Ownership
import ApPa.Task.Run
import ApPa.Task.Switch
import ApPa.Exec.Elf
import ApPa.Exec.Plan
import ApPa.Exec.FileBounds
import ApPa.Exec.Arguments
import ApPa.Exec.EntryFrame
import ApPa.Exec.Loader
import ApPa.Exec.Mapping
import ApPa.Exec.Spawn
import ApPa.System.Run
import ApPa.System.Conservation
import ApPa.System.Balance
import ApPa.System.Processor
import ApPa.System.Reaper
import ApPa.Exec.Containment
import ApPa.Exec.ImageLoad
import ApPa.Shell.Shell
import ApPa.Drivers.Keyboard
import ApPa.Drivers.Screen
import ApPa.Drivers.Console
import ApPa.Drivers.Ata
import ApPa.Shell.LineEdit
import ApPa.Arch.Syscall
import ApPa.Arch.Confinement
import ApPa.Arch.Trap
import ApPa.Arch.WriteCall
import ApPa.Arch.InterruptFlag
import ApPa.Shell.ExecCommand
import ApPa.Lib.Varargs
import ApPa.Lib.TextGrid
import ApPa.Lib.Words
import ApPa.Lib.PioDisk
import ApPa.Lib.PortIo
import ApPa.Lib.RingLog
import ApPa.Klibc.Stdio
import ApPa.Libc.Stdio
import ApPa.Libc.SpecText
import ApPa.Libc.Conversion
import ApPa.Libc.Output
import ApPa.Libc.Format
import ApPa.Libc.Truncation
import ApPa.Libc.ZeroSize
import ApPa.Libc.Terminator
import ApPa.Libc.NumericField
import ApPa.Libc.Console
import ApPa.Libc.StringCopy
import ApPa.Klibc.Decoding
import ApPa.Sys.Klog
import ApPa.Sys.LogText
import ApPa.Sys.Formatters
import ApPa.Sys.Overrun
import ApPa.Sys.LogRing
import ApPa.Sys.LogFile
import ApPa.Fs.DeviceFrame
import ApPa.Drivers.AtaBlockdev
import ApPa.Shell.Commands
import ApPa.Shell.Terminal
import ApPa.Shell.Session
import ApPa.Lib.RealMode
import ApPa.Boot.BootSector
import ApPa.Boot.Stage2
import ApPa.Lib.Pic8259
import ApPa.Arch.Irq
import ApPa.Lib.WordStack
import ApPa.Lib.Protected
import ApPa.Arch.Descriptors
import ApPa.Arch.Stubs
import ApPa.Arch.UserMode
import ApPa.Exec.FileBuffer
import ApPa.Exec.Program
import ApPa.Heap.Borrow
import ApPa.System.Host
import ApPa.System.Machine
import ApPa.System.Startup
