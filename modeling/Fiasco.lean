import Fiasco.Mapdb.Deadlock
import Fiasco.Mapdb.PageSizes
import Fiasco.Rpc
import Fiasco.Fpu
import Fiasco.Ia32.Ldt
import Fiasco.Ia32.LocalMap
import Fiasco.Ia32.Continuation
import Fiasco.Ia32.Svm
import Fiasco.Ia32.Dmar
import Fiasco.Obj.Links
import Fiasco.FreeMap
import Fiasco.Irq.Mode
import Fiasco.Irq.Pending
import Fiasco.Ipc.Reply
import Fiasco.Ipc.Handshake
import Fiasco.Ipc.SendWait
import Fiasco.Ipc.Rendezvous
import Fiasco.KmemMmio
import Fiasco.Ptab.Walkers
import Fiasco.PrioList.Cursor
import Fiasco.WaitQueue.Generation
import Fiasco.Semaphore.Masking
import Fiasco.IpcGate.Unblock
import Fiasco.SwitchLock.Exclusive
import Fiasco.Sched.Migrate
import Fiasco.Sched.Drq
import Fiasco.ReadyQueue.Wfq
import Fiasco.ReadyQueue.FixedPrio
import Fiasco.Timeout
import Fiasco.Buddy
import Fiasco.SlabCache
import Fiasco.IrqMgr
import Fiasco.FixPoint
import Fiasco.FpuEager
import Fiasco.GicIts
import Fiasco.Ia32.IrqChip
import Fiasco.Vcpu
import Fiasco.Mapdb.InsertFail
import Fiasco.Ipc.Agreement
