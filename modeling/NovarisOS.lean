import NovarisOS.Ramfs.FileTheorems
import NovarisOS.Vmspace64.SpaceTheorems
import NovarisOS.Uspace64.Descriptors
import NovarisOS.Uspace64.DeviceMaps
import NovarisOS.Tcp.Sender
import NovarisOS.Signal64.Returns
import NovarisOS.Tcp.Accepts
import NovarisOS.Update.Whole
import NovarisOS.Dhcp.Lease
import NovarisOS.Socket.Ports
import NovarisOS.Http.Splits
import NovarisOS.Net.RoundTrip
import NovarisOS.Socket.UnixTheorems
import NovarisOS.Socket.RightsTheorems
import NovarisOS.Loader64.Contained
import NovarisOS.Posix.KernelWalks
import NovarisOS.Fd64.StreamTheorems
import NovarisOS.Pmm32.FramesTheorems
import NovarisOS.Kheap32.HeapTheorems
import NovarisOS.Win32.HeapTheorems
import NovarisOS.Wm.Captions
import NovarisOS.Scheduler32.TasksTheorems
import NovarisOS.Timeouts32.WaitsTheorems
import NovarisOS.Vfs32.TreeTheorems
import NovarisOS.Fat32.UnmountTheorems
import NovarisOS.Ramfs64.Framing
import NovarisOS.Fat32.MemoTheorems
import NovarisOS.Fat32.CreateTheorems
import NovarisOS.Pmm64.InitTheorems
import NovarisOS.Vmspace64.NextMapped
import NovarisOS.Uspace64.FindFree
import NovarisOS.Http.Url
import NovarisOS.Dns.CacheTheorems
import NovarisOS.Net.Inside
import NovarisOS.Signal64.Placement
import NovarisOS.Update.ReadBack
import NovarisOS.Loader64.Execve
import NovarisOS.Loader64.Layout
import NovarisOS.Loader64.Modules
import NovarisOS.Pipe64.Vectored
import NovarisOS.Pipe64.StreamWrite
import NovarisOS.Pe.Relocations
import NovarisOS.Wmdev64.Damage
import NovarisOS.Input64.Reports
import NovarisOS.Win32.Sorting
import NovarisOS.Select32.Exact
import NovarisOS.Ramfs64.Reading
import NovarisOS.Fd64.Failing
import NovarisOS.Wm.Frames
