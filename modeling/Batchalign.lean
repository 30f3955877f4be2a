import Batchalign.Fa.Undisturbed
import Batchalign.Fa.PartitionPlan
import Batchalign.Fa.TokenMapSound
import Batchalign.Utr.TwoPassRecovery
import Batchalign.Store.Claim
import Batchalign.HostMemory.LedgerFile
import Batchalign.Store.FileTasks
import Batchalign.WorkerPool.Slots
import Batchalign.WorkerPool.IdlePermits
import Batchalign.WorkerPool.Stranded
import Batchalign.SharedGpu.Answers
import Batchalign.SharedGpu.LoadReplies
import Batchalign.GpuSlots.Reaped
import Batchalign.Cache.Coherence
import Batchalign.Compare.ProjectionSound
import Batchalign.Interleaving.TwoSpeakersExact
import Batchalign.Fa.Deltas
import Batchalign.Fa.OrderIndependent
import Batchalign.Retokenize.Runs
import Batchalign.Retokenize.Spelled
import Batchalign.Retokenize.Utterance
import Batchalign.Interleaving.BandExact
import Batchalign.FaCore.Warp
import Batchalign.Utr.RegionWindows
import Batchalign.Fa.LisRemovals
import Batchalign.Utr.UntimedWindows
import Batchalign.FaTiming.SuppliedRetryRun
import Batchalign.Fa.WorWritten
import Batchalign.FaTiming.Postprocessed
import Batchalign.Utr.InteriorWindows
import Batchalign.Store.PhaseColumns
import Batchalign.Store.Cancellations
import Batchalign.Worker.WhisperWindows
import Batchalign.Utseg.BracketNotation
import Batchalign.Utseg.CutsWhereTold
import Batchalign.Fa.EdgeFillers
import Batchalign.HostMemory.Retry
import Batchalign.Morphosyntax.GraValidate
import Batchalign.Morphosyntax.SpecialForms
import Batchalign.WorkerPool.JobTracker
import Batchalign.Compare.Agreement
import Batchalign.DpAlign.PackedWindow
import Batchalign.DpAlign.EdgeCuts
