import IonaOs.Consensus.Eviction
import IonaOs.Consensus.DomainSeparation
import IonaOs.Consensus.TallyBuckets
import IonaOs.Consensus.Decision
import IonaOs.Consensus.Linkage
import IonaOs.Consensus.Punishment
import IonaOs.Consensus.KernelBridge
import IonaOs.Consensus.SyncReach
import IonaOs.Consensus.Agreement
import IonaOs.Evm.Value
import IonaOs.Evm.Rollback
import IonaOs.Evm.Checks
import IonaOs.Evm.KeccakSpec
import IonaOs.Evm.Words
import IonaOs.Replay
import IonaOs.GasLimits
import IonaOs.EvidenceApplication
import IonaOs.Consensus.Intersection
import IonaOs.Consensus.Persistence
import IonaOs.Memory.FrameSearch
import IonaOs.Memory.BuddyCoalescing
import IonaOs.Process.FrameLedger
import IonaOs.Memory.Swap
import IonaOs.Memory.Shm
import IonaOs.Fs.CrashAtomicity
import IonaOs.Process.CloneFailure
import IonaOs.Process.PipeBlocking
import IonaOs.Process.Futex
import IonaOs.Process.WaitView
import IonaOs.Process.LockOrder
import IonaOs.Process.DescriptorLifetime
import IonaOs.Process.MessageQueues
import IonaOs.Containers.CgroupHierarchy
import IonaOs.Sched.Conservation
import IonaOs.Sched.WaitAgreement
import IonaOs.Smp.WorkStealing
import IonaOs.Process.Waitpid
import IonaOs.Process.CowIsolation
import IonaOs.Blockchain.RedbFlat
import IonaOs.Security.KeystoreRuns
