import ToastOS.Lib.Run
import ToastOS.Lib.Queue
import ToastOS.Task.Pid
import ToastOS.Task.Kernel
import ToastOS.Task.Machine
import ToastOS.Task.Balance
import ToastOS.Task.BalanceStep
import ToastOS.Task.Interrupts
import ToastOS.Task.Lists
import ToastOS.Task.Placement
import ToastOS.Task.Parts
import ToastOS.Task.PlacementOps
import ToastOS.Task.PlacementStep
import ToastOS.Task.Scheduler
import ToastOS.Task.Races
import ToastOS.Task.Registry
import ToastOS.Task.Frames
import ToastOS.Task.States
import ToastOS.Task.Reaper
import ToastOS.Task.Kill
import ToastOS.Task.Time
import ToastOS.Task.Sleep
import ToastOS.Task.Preempt
import ToastOS.Task.CpuTime
import ToastOS.Task.Progress
import ToastOS.Lib.Permits
import ToastOS.Task.Semaphore
import ToastOS.Task.Queues
import ToastOS.Task.Table
import ToastOS.Lib.Memory
import ToastOS.Mmu.Pmm
import ToastOS.Mmu.InitPmm
import ToastOS.Mmu.PmmRun
import ToastOS.Lib.Tree
import ToastOS.Mmu.Entry
import ToastOS.Mmu.TreeOps
import ToastOS.Mmu.Moves
import ToastOS.Mmu.Boot
import ToastOS.Mmu.UserAccess
import ToastOS.Mmu.Hardware
import ToastOS.Mmu.UserRange
import ToastOS.Mmu.Translation
import ToastOS.Mmu.Pages
import ToastOS.Mmu.Effects
import ToastOS.Mmu.Heap
import ToastOS.Mmu.Break
import ToastOS.Mmu.Teardown
import ToastOS.Mmu.Ownership
import ToastOS.Mmu.Reclaim
import ToastOS.Mmu.NoPanic
import ToastOS.Mmu.HeapBacking
import ToastOS.Mmu.Image
import ToastOS.Stdlib.Printf
import ToastOS.Stdlib.Number
import ToastOS.Stdlib.Format
import ToastOS.Stdlib.DigitBuffer
import ToastOS.Stdlib.Strings
import ToastOS.Syscalls.Write
import ToastOS.Lib.X86
import ToastOS.Cpu.Syscall
import ToastOS.Cpu.Interrupt
import ToastOS.Cpu.Switch
import ToastOS.Cpu.System
import ToastOS.Cpu.Isolation
import ToastOS.Cpu.Resume
import ToastOS.Lib.Descriptors
import ToastOS.Lib.Privilege
import ToastOS.Cpu.Gdt
import ToastOS.Cpu.Idt
import ToastOS.Cpu.Ring
import ToastOS.Cpu.Trap
import ToastOS.Cpu.Fault
import ToastOS.Lib.Pic8259
import ToastOS.Cpu.Pic
import ToastOS.Lib.Ring
import ToastOS.Drivers.Kb
import ToastOS.Drivers.Scancodes
import ToastOS.Lib.Calendar
import ToastOS.Drivers.Rtc
import ToastOS.Shell.PidArg
import ToastOS.Shell.Args
import ToastOS.Shell.Exec
import ToastOS.Shell.History
import ToastOS.Shell.Cursor
import ToastOS.Shell.Line
import ToastOS.Lib.Loop
import ToastOS.Lib.TextGrid
import ToastOS.Video.Framebuffer
import ToastOS.Video.Console
import ToastOS.Video.Terminal
import ToastOS.Video.Colour
import ToastOS.Video.Erase
import ToastOS.Video.Blink
