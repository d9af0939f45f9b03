import Cinux.Permissions
import Cinux.NullGuard
import Cinux.ReadOnly
import Cinux.HeapRuns
import Cinux.PmmInit
import Cinux.SigNest
import Cinux.MutexOrder
import Cinux.SendGates
import Cinux.FutexRaces
import Cinux.Kinship
import Cinux.Epoll
import Cinux.AccessMode
import Cinux.Ext2Dirs
import Cinux.Getdents
import Cinux.BlockCacheRuns
import Cinux.TcpOutbox
import Cinux.TcpEdges
import Cinux.Ext2Free
import Cinux.FileLock
import Cinux.Scancode
import Cinux.Terminal
import Cinux.InputEvents
import Cinux.TransmitRing
import Cinux.Numerals
import Cinux.Acpi
import Cinux.Checksum
