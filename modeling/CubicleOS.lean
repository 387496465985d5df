import CubicleOS.Foundation.Outcome
import CubicleOS.Foundation.Machine
import CubicleOS.Foundation.Pages
import CubicleOS.Foundation.Text
import CubicleOS.Monitor.Modules
import CubicleOS.Monitor.ProcMap
import CubicleOS.Monitor.Boot
import CubicleOS.Monitor.Heap
import CubicleOS.Calls.Wraps
import CubicleOS.Calls.Protocol
import CubicleOS.Calls.Coroutine
import CubicleOS.Calls.Runs
import CubicleOS.Calls.Threads
import CubicleOS.Monitor.Windows
import CubicleOS.Monitor.Fault
import CubicleOS.Calls.FaultEffect
import CubicleOS.Generator.Hooks
import CubicleOS.Loader.ParseProc
import CubicleOS.Loader.Patch
import CubicleOS.Foundation.Slots
import CubicleOS.Foundation.Files
import CubicleOS.Libs.IpcTables
import CubicleOS.Libs.Alloc
import CubicleOS.Libs.Ramfs
import CubicleOS.Calls.Handover
import CubicleOS.Calls.Coherence
import CubicleOS.Libs.Vfs
import CubicleOS.Libs.Morecore
import CubicleOS.Libs.Netbuf
import CubicleOS.Libs.Netif
import CubicleOS.Libs.Sockets
import CubicleOS.Libs.Cpio
import CubicleOS.Foundation.Bitmap
import CubicleOS.Foundation.Dyadic
import CubicleOS.Foundation.Plist
import CubicleOS.Libs.Buddy
import CubicleOS.Libs.Arena
import CubicleOS.Calls.Isolation
import CubicleOS.Foundation.Ring
import CubicleOS.Libs.Mbox
import CubicleOS.Libs.Pipe
import CubicleOS.Libs.Descriptors
