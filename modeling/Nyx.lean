import Nyx.Memory.Conservation
import Nyx.Process.Spaces
import Nyx.Process.Contexts
import Nyx.Descriptors.SocketOwners
import Nyx.Descriptors.Forks
import Nyx.Process.Handlers
import Nyx.Interrupts
import Nyx.Forking
import Nyx.Timers
import Nyx.Memory.BootMap
import Nyx.Paging.Resolve
import Nyx.Compositor.Stacking
import Nyx.Net.Stream
import Nyx.Net.Transitions
import Nyx.Net.Retransmit
import Nyx.Net.Echo
import Nyx.Process.Mappings
import Nyx.Paging.Dlsym
import Nyx.Paging.Image
import Nyx.Malloc
import Nyx.Ext2.Contents
import Nyx.Calendar
import Nyx.Net.Ip
import Nyx.Net.Dns
import Nyx.Shell
import Nyx.Initramfs
