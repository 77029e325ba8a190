import MiniCore.Machine.Memory
import MiniCore.Machine.CString
import MiniCore.Mm.Model
import MiniCore.Mm.Arena
import MiniCore.Mm.Layout
import MiniCore.Mm.Refine
import MiniCore.Mm.Statics
import MiniCore.Mm.Counters
import MiniCore.Mm.Calls
import MiniCore.Scheduler.Model
import MiniCore.Scheduler.Tick
import MiniCore.Scheduler.Queue
import MiniCore.Scheduler.RoundRobin
import MiniCore.Scheduler.Create
import MiniCore.Scheduler.Exit
import MiniCore.Fs.Model
import MiniCore.Fs.Table
import MiniCore.Shell.Model
import MiniCore.Shell.Line
import MiniCore.Shell.Parse
import MiniCore.Shell.Command
import MiniCore.Kernel.Terminal
import MiniCore.Kernel.Number
import MiniCore.Shell.Handlers
import MiniCore.Shell.Keyboard
import MiniCore.Mm.Separated
import MiniCore.Kernel.Memtest
import MiniCore.Mm.Print
import MiniCore.Mm.Paging
import MiniCore.Kernel.Command
import MiniCore.Isr.Pic
import MiniCore.Isr.Dispatch
import MiniCore.Fs.List
import MiniCore.Shell.Machine
