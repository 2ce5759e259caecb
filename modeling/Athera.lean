import Athera.Mm.Rollback
import Athera.Mm.MapExact
import Athera.Fs.Path
import Athera.Binfmt.Quoting
import Athera.Task.Reaping
import Athera.Task.ElfImage
import Athera.Task.Execve
import Athera.Mm.EntryWords
import Athera.Sync.Guards
import Athera.Driver.VirtioBlk
import Athera.Driver.VirtQueue
import Athera.Userland.Heap
import Athera.Xoshiro
import Athera.Mm.CheckedCalls
import Athera.Fs.Minix.CheckedDisk
import Athera.Fs.Minix.Neutral
import Athera.Mm.BuddyCoalescing
import Athera.Mm.SlubBalance
import Athera.Bitmap.Ranges
import Athera.Driver.Ns16550a
import Athera.Task.Fairness
import Athera.Macros.Bits
import Athera.Mm.Segments
import Athera.Sync.OnceLock
import Athera.Driver.Ramfb
