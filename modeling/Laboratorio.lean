import Laboratorio.Xv6.LogSpace
import Laboratorio.Shell.Redirect
import Laboratorio.Xv6.BcacheRuns
import Laboratorio.Lab05.Buf
import Laboratorio.Xv6.PipeWakeup
import Laboratorio.Xv6.Family
import Laboratorio.Xv6.Kill
import Laboratorio.Xv6.MkfsKernel
import Laboratorio.Uthread.Turns
import Laboratorio.Uthread.Switch
import Laboratorio.Xv6.Args
import Laboratorio.Xv6.IdeRefines
import Laboratorio.Xv6.NoBuffers
import Laboratorio.Lab05.Canvas
import Laboratorio.Lab05.WordstackRows
import Laboratorio.Sim.Input
import Laboratorio.Xv6.Pgcnt
import Laboratorio.Grep.Lines
import Laboratorio.Xv6.ExecFails
import Laboratorio.Xv6.PipeCreate
import Laboratorio.Xv6.UmallocSizes
import Laboratorio.Xv6.Cga
import Laboratorio.Xv6.Dealloc
import Laboratorio.Xv6.DirMap
import Laboratorio.Xv6.Mp
import Laboratorio.Xv6.Printint
import Laboratorio.Xv6.Spinlock
import Laboratorio.Xv6.Clock
import Laboratorio.Xv6.LogRuns
import Laboratorio.Xv6.Sleeplock
