import Petmem.DoubleFree
import Petmem.SwapRoundTrip
import Petmem.PageRuns
import Petmem.EvictionRuns
import Petmem.FreedPages
import Petmem.ListHead
import Petmem.Translations
import Petmem.Transparency
import Petmem.Neighbours
import Petmem.Leaks
import Petmem.FreshMemory
import Petmem.SwapBitmap
import Petmem.OfflineRollback
import Petmem.Machine
import Petmem.Isolation
import Petmem.Confinement
import Petmem.Mappings
import Petmem.Pinned
import Petmem.Accounting
import Petmem.Ioctl
import Petmem.Programs
import Petmem.Stops
import Petmem.Handover
