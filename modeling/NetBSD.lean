import NetBSD.Fs.Msdosfs.Answers
import NetBSD.Fs.Msdosfs.Widths
import NetBSD.Fs.Msdosfs.DosNames
import NetBSD.Kern.Wapbl.Commit
import NetBSD.Kern.Wapbl.Accounting
import NetBSD.Kern.Wapbl.Heads
import NetBSD.Kern.Wapbl.ReplayRead
import NetBSD.Kern.Advlock.Deadlock
import NetBSD.Kern.Advlock.Offsets
import NetBSD.Kern.Callout.OnTime
import NetBSD.Kern.Callout.Revolution
import NetBSD.Kern.SysvSem.Ids
import NetBSD.Kern.SysvSem.Range
import NetBSD.Kern.SysvSem.Resize
import NetBSD.Kern.Descrip.Runs
import NetBSD.Kern.SubrExtent.Complete
import NetBSD.Kern.SubrBlist.Resize
import NetBSD.Uvm.Amap.Extend
import NetBSD.Uvm.Map.Complete
import NetBSD.Kern.KernProc.Runs
import NetBSD.Kern.UipcSocket2.Fifo
import NetBSD.Dev.ClockSubr
import NetBSD.Dev.Aurateconv.Exact
import NetBSD.Ufs.Ffs.Mapsearch
import NetBSD.Ufs.Ffs.Clusters
import NetBSD.Ufs.Ffs.Failed
import NetBSD.Ufs.UfsBmap
import NetBSD.Net.Bpf.Mbufs
import NetBSD.Net.Npf.Npt66
import NetBSD.Net.Npf.Window
import NetBSD.Netipsec.Replay
import NetBSD.Netinet.TcpSack.Coverage
import NetBSD.Netinet.TcpReass.Fin
import NetBSD.Netinet.IpReass.Dropped
import NetBSD.Netinet.IpFragment.Undone
import NetBSD.Netinet6.Frag6.Exact
import NetBSD.Net.Npf.Tableset
import NetBSD.Kern.SysMqueue.Owners
import NetBSD.Net.Npf.Portmap
import NetBSD.Kern.SysPipe.Wakeups
import NetBSD.Kern.SubrVmem.Complete
import NetBSD.Net.SlCompress.Lossless
import NetBSD.Kern.UipcMbuf.Copyback
import NetBSD.Kern.SysMqueue.TimedWait
import NetBSD.Kern.TtySubr.Ndqb
import NetBSD.Netinet.IpOptions.Pcbopts
import NetBSD.Netinet6.Frag6.Discards
import NetBSD.UsrBin.Audio.Wav
