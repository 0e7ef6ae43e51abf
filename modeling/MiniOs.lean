import MiniOs.Proofs.Mm.SlubRun
import MiniOs.Proofs.Mm.FreeAgain
import MiniOs.Proofs.Mm.Uaccess
import MiniOs.Proofs.Fs.PipeWait
import MiniOs.Proofs.Fs.NameiLive
import MiniOs.Proofs.Sched.Stopped
import MiniOs.Proofs.Sched.Sessions
import MiniOs.Proofs.Sched.Family
import MiniOs.Proofs.Sched.Wait
import MiniOs.Proofs.Sched.Reap
import MiniOs.Proofs.Sched.Masks
import MiniOs.Proofs.Sched.TrapMode
import MiniOs.Proofs.Mm.Mprotect
import MiniOs.Proofs.Mm.MapFixed
import MiniOs.Proofs.Mm.Brk
import MiniOs.Proofs.Mm.Resolve
import MiniOs.Proofs.Fs.CloseOnExec
import MiniOs.Proofs.Fs.ReadWrite
import MiniOs.Proofs.Fs.PathPrinters
import MiniOs.Proofs.Fs.DirScan
import MiniOs.Proofs.Fs.Initramfs
import MiniOs.Proofs.Fs.Binfmt
import MiniOs.Proofs.Fs.LinkChase
import MiniOs.Proofs.Time.Timekeeping
import MiniOs.Proofs.Sched.RoundRobin
import MiniOs.Proofs.Time.Timer
