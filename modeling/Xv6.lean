import Xv6.Param
import Xv6.Lib.TransSys
import Xv6.Lib.CircList
import Xv6.Lib.Crash
import Xv6.Bio.Basic
import Xv6.Bio.Step
import Xv6.Bio.Shape
import Xv6.Bio.Invariant
import Xv6.Bio.Identity
import Xv6.Bio.Coherence
import Xv6.Bio.Loop
import Xv6.Bio.Deadlock
import Xv6.Bio.Pin
import Xv6.Kalloc.Basic
import Xv6.Kalloc.Step
import Xv6.Kalloc.Conservation
import Xv6.Kalloc.Deadlock
import Xv6.Log.Basic
import Xv6.Log.Crash
import Xv6.Log.Step
import Xv6.Log.Group
import Xv6.Log.Admission
import Xv6.Log.Cache
import Xv6.Log.Pin
import Xv6.Lib.Ring
import Xv6.Pipe.Basic
import Xv6.Pipe.Fifo
import Xv6.Console.Basic
import Xv6.Console.Line
import Xv6.Proc.Sched
import Xv6.Proc.Wakeup
import Xv6.Proc.Table
import Xv6.Proc.Lifecycle
import Xv6.Fs.Layout
import Xv6.Mkfs.Basic
import Xv6.Mkfs.Image
import Xv6.File.Basic
import Xv6.File.Refs
import Xv6.File.Release
import Xv6.Fs.Balloc
import Xv6.Fs.Bitmap
import Xv6.Lib.Patch
import Xv6.Fs.Inode
import Xv6.Fs.Dir
import Xv6.Fs.Itable
import Xv6.Fs.Path
import Xv6.Virtio.Desc
import Xv6.Virtio.Step
import Xv6.Fs.ItableStep
import Xv6.String.Memmove
import Xv6.User.Grep
import Xv6.User.GrepLines
import Xv6.Uart.Tx
import Xv6.Proc.Kill
import Xv6.String.Sprintf
import Xv6.File.SharedWrite
import Xv6.User.UmallocRun
import Xv6.Spinlock.Intr
import Xv6.User.ShComplete
import Xv6.Lib.Word
import Xv6.Vm.Riscv
import Xv6.Vm.Basic
import Xv6.Vm.Table
import Xv6.Vm.Sys
import Xv6.Vm.Walk
import Xv6.Vm.Map
import Xv6.Vm.User
import Xv6.Vm.Copy
import Xv6.Vm.Free
import Xv6.Vm.Copyinstr
import Xv6.Vm.Image
