import Xv6.Proofs.AlarmImages
import Xv6.Proofs.BufferSupply
import Xv6.Proofs.DiskProtocol
import Xv6.Proofs.DispatchTables
import Xv6.Proofs.FileRefs
import Xv6.Proofs.ForkSnapshot
import Xv6.Proofs.ForkTraces
import Xv6.Proofs.InodeTable
import Xv6.Proofs.KillTargets
import Xv6.Proofs.LifeWrap
import Xv6.Proofs.LiveProcs
import Xv6.Proofs.LogCrash
import Xv6.Proofs.LogReservation
import Xv6.Proofs.LogWaiting
import Xv6.Proofs.Memmove
import Xv6.Proofs.MlfqLevels
import Xv6.Proofs.MlfqAgeing
import Xv6.Proofs.PageLeak
import Xv6.Proofs.PageAllocator
import Xv6.Proofs.PbsOrder
import Xv6.Proofs.PipeFifo
import Xv6.Proofs.PipeSleep
import Xv6.Proofs.QueueLoss
import Xv6.Proofs.QueueRemove
import Xv6.Proofs.ReadCounts
import Xv6.Proofs.SbrkReports
import Xv6.Proofs.SharedWrites
import Xv6.Proofs.ShellGrammar
import Xv6.Proofs.SleepTicks
import Xv6.Proofs.SleepWakeup
import Xv6.Proofs.SlotReuse
import Xv6.Proofs.SpinOrder
import Xv6.Proofs.WaitxTimes
import Xv6.Proofs.WaitxResults
import Xv6.Proofs.TableMap
import Xv6.Proofs.Tickets
import Xv6.Proofs.ExecAtomic
