import SeedOS.Apic.Ioapic
import SeedOS.Fs.BlockWords
import SeedOS.Fs.PathLookup
import SeedOS.Fs.ReadInto
import SeedOS.Input.Keyboard
import SeedOS.Kheap.Accounting
import SeedOS.Kheap.Realloc
import SeedOS.Kheap.Sizes
import SeedOS.Kshell.History
import SeedOS.Kshell.Shell
import SeedOS.Memory.CopySpec
import SeedOS.Memory.HugePages
import SeedOS.Memory.MapRefinement
import SeedOS.Memory.PmmReserved
import SeedOS.Memory.RefRuns
import SeedOS.Memory.Teardown
import SeedOS.Printf.Render
import SeedOS.Process.BrkFailure
import SeedOS.Process.CopyFailure
import SeedOS.Process.CowExact
import SeedOS.Process.ElfBounds
import SeedOS.Process.MapRollback
import SeedOS.Process.RangeCheck
import SeedOS.Process.StackDecodes
import SeedOS.System.Conservation
import SeedOS.System.CowIsolation
import SeedOS.System.ElfSpace
import SeedOS.System.ExitWakeup
import SeedOS.System.FileRuns
import SeedOS.System.ForkFailure
import SeedOS.System.ForkRegisters
import SeedOS.System.MmapRuns
import SeedOS.System.OpenCall
import SeedOS.System.SharedReads
import SeedOS.System.SyscallContext
import SeedOS.System.UserString
import SeedOS.System.WaitMatch
import SeedOS.Thread.Attribution
import SeedOS.Thread.ListRefinement
import SeedOS.Thread.LostWakeup
import SeedOS.Thread.Sleep
import SeedOS.Tty.IndexAgreement
import SeedOS.Tty.Indices
import SeedOS.Tty.Redraw
import SeedOS.Tty.Scroll
import SeedOS.Tty.Scrollback
