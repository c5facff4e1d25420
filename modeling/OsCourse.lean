import OsCourse.Shell.Files
import OsCourse.Kernel.Lottery
import OsCourse.Kernel.Tickets
import OsCourse.Kernel.ForkFailure
import OsCourse.Kernel.Growproc
import OsCourse.HashTable.Completion
import OsCourse.Uniq.Compare
import OsCourse.Disk.Multithreaded
import OsCourse.HashTable.Racy
import OsCourse.Disk.Benchmark
import OsCourse.Disk.Offsets
import OsCourse.Disk.Splits
import OsCourse.Shell.Main
import OsCourse.Shell.Printer
import OsCourse.Shell.Session
import OsCourse.Shell.Reopening
import OsCourse.Kernel.Arguments
import OsCourse.Shell.ParserSafety
import OsCourse.Uniq.Framing
import OsCourse.Kernel.Tree
import OsCourse.Uniq.Counts
import OsCourse.HashTable.Survivors
import OsCourse.Kernel.LockRefinement
import OsCourse.Kernel.LockRuns
import OsCourse.Kernel.Ticks
import OsCourse.Kernel.TicksSafety
import OsCourse.HashTable.Losses
import OsCourse.Shell.Commands
import OsCourse.Shell.Execution
import OsCourse.Kernel.Memory
import OsCourse.Kernel.MemorySafety
