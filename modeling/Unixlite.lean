import Unixlite.Dev.Hddev
import Unixlite.Fs.Append
import Unixlite.Fs.Buf
import Unixlite.Fs.BufDisk
import Unixlite.Fs.BufInv
import Unixlite.Fs.BufRun
import Unixlite.Fs.Dir
import Unixlite.Fs.DirShape
import Unixlite.Fs.Dirlock
import Unixlite.Fs.Icache
import Unixlite.Fs.LinkRun
import Unixlite.Fs.Links
import Unixlite.Fs.Mount
import Unixlite.Fs.Open
import Unixlite.Fs.Permission
import Unixlite.Fs.Release
import Unixlite.Fs.Remount
import Unixlite.Fs.RemountInv
import Unixlite.Fs.RemountRun
import Unixlite.Fs.Rename
import Unixlite.Fs.Tree
import Unixlite.Kern.Exec
import Unixlite.Kern.ExecRun
import Unixlite.Kern.ExitRun
import Unixlite.Kern.Fdes
import Unixlite.Kern.FdesInv
import Unixlite.Kern.FdesMode
import Unixlite.Kern.FdesRun
import Unixlite.Kern.FdesTable
import Unixlite.Kern.Fork
import Unixlite.Kern.Iolock
import Unixlite.Kern.Pgrp
import Unixlite.Kern.PgrpInv
import Unixlite.Kern.PgrpLive
import Unixlite.Kern.PgrpRun
import Unixlite.Kern.Pipe
import Unixlite.Kern.Proc
import Unixlite.Kern.ProcInv
import Unixlite.Kern.ProcRun
import Unixlite.Kern.Rwlock
import Unixlite.Kern.Sched
import Unixlite.Kern.SchedInv
import Unixlite.Kern.SchedRun
import Unixlite.Kern.SignalRun
import Unixlite.Kern.TaskInv
import Unixlite.Kern.Timer
import Unixlite.Kern.TimerRun
import Unixlite.Kern.WaitRun
import Unixlite.Lib.Fifoq
import Unixlite.Lib.FifoqRun
import Unixlite.Mm.Allockm
import Unixlite.Mm.AllockmInv
import Unixlite.Mm.AllockmRun
import Unixlite.Mm.Allocpage
import Unixlite.Mm.Clone
import Unixlite.Mm.Kpgtbl
import Unixlite.Mm.KpgtblRun
import Unixlite.Mm.PageRun
import Unixlite.Mm.Seg
import Unixlite.Mm.Segq
import Unixlite.Mm.Verify
import Unixlite.Net.TcpRcvbuf
import Unixlite.Net.TcpReceive
import Unixlite.Net.TcpSend
import Unixlite.Net.TcpSndbuf
import Unixlite.Verified.Ledger
import Unixlite.Verified.ParentTree
import Unixlite.Verified.Run
import Unixlite.Net.TcpWindow
import Unixlite.Net.TcpListen
import Unixlite.Net.TcpLifetime
import Unixlite.Net.TcpHandshake
import Unixlite.Net.Inet
import Unixlite.Net.Ip
import Unixlite.Net.Ports
import Unixlite.Net.PortsRun
import Unixlite.Fs.Regmap
import Unixlite.Dev.Condev
import Unixlite.Dev.CondevRun
import Unixlite.Dev.CondevPicture
import Unixlite.Net.Netrx
import Unixlite.Net.NetrxMoves
import Unixlite.Net.NetrxRun
import Unixlite.Net.IpInput
import Unixlite.Net.IpInputRun
import Unixlite.Lib.Bitmap
import Unixlite.Lib.BitmapRun
import Unixlite.Fs.Bitmaps
import Unixlite.Fs.BufProgress
import Unixlite.Fs.Readfs
import Unixlite.Fs.Scandir
import Unixlite.Fs.Addde
import Unixlite.Fs.Getdents
import Unixlite.Fs.Trunc
import Unixlite.Fs.Write
import Unixlite.Fs.WriteLaw
import Unixlite.Fs.Dirbuf
import Unixlite.Fs.Bufvol
import Unixlite.Fs.RenameErr
import Unixlite.Fs.Create
import Unixlite.Dev.Merge
import Unixlite.Dev.Docurreq
import Unixlite.Fs.Sticky
import Unixlite.Mm.Mapfail
import Unixlite.Fs.Superblock
import Unixlite.Dev.Blkfd
import Unixlite.Fs.Namei
import Unixlite.Fs.Split
import Unixlite.Fs.Getcwd
import Unixlite.Mm.BrkRun
import Unixlite.Kern.StopCont
import Unixlite.Kern.Sigreturn
import Unixlite.Kern.StopRun
import Unixlite.Mm.AllockmSize
import Unixlite.Kern.SignalFrameRun
import Unixlite.Kern.PipeAtomic
import Unixlite.Mm.PgtblCopy
import Unixlite.Kern.ExecveFail
import Unixlite.Kern.Uidgid
import Unixlite.Kern.Time
import Unixlite.Net.Chksum
import Unixlite.Net.TcpAck
import Unixlite.Net.TcpOpt
import Unixlite.Net.Route
import Unixlite.Lib.Scanstr
import Unixlite.Kern.PipeReport
import Unixlite.Kern.PipeWake
import Unixlite.Net.Udp
import Unixlite.Kern.TimerLeft
import Unixlite.Dev.Tty
import Unixlite.Dev.TtyRun
import Unixlite.Net.RouteLocal
import Unixlite.Net.Pktq
