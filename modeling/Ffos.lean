import Ffos.TimerQueue.Rearm
import Ffos.Timer.Completion
import Ffos.Timer.Posts
import Ffos.Semaphore.Wait
import Ffos.Kcall.ExactlyOnce
import Ffos.Kcall.Guard
import Ffos.Kcall.Wakeup
import Ffos.Kqtask.Served
import Ffos.Queue.EchoServer
import Ffos.Queue.MsgRouter
import Ffos.Netlink.Bounds
import Ffos.Socket.Accept
import Ffos.Socket.Address
import Ffos.Socket.Transfer
import Ffos.Path.Absolute
import Ffos.Path.Capacity
import Ffos.Path.Forced
import Ffos.File.Position
import Ffos.File.Whole
import Ffos.Dir.Contract
import Ffos.Dir.Read
import Ffos.DirScan.Windows
import Ffos.Filemon.Next
import Ffos.Filemon.Watches
import Ffos.Environ.Expand
import Ffos.Process.Allocation
import Ffos.Process.Filename
import Ffos.Netconf.Dns
import Ffos.Winreg.Listing
import Ffos.Time.Winftime
import Ffos.Std.Console
import Ffos.Std.KeyErrors
