import Flexus.CmpCache.Woken
import Flexus.CmpCache.WriteBacks
import Flexus.CmpCache.Recalls
import Flexus.CmpCache.SetLRU
import Flexus.CmpCache.Waking
import Flexus.CmpCache.SnoopBuffer
import Flexus.CmpCache.EvictScans
import Flexus.CmpCache.Regions
import Flexus.Core.PhysicalMap
import Flexus.Core.Restart
import Flexus.Core.PageWalks
import Flexus.Core.ExclusiveMonitor
import Flexus.Core.Abort
import Flexus.CmpCache.Lockstep
import Flexus.BranchPredictor.Archive
import Flexus.BranchPredictor.LeastRecent
import Flexus.BranchPredictor.History
import Flexus.Core.ValueTracker
import Flexus.MMU.Stage1
import Flexus.MMU.Translations
import Flexus.MMU.Replacement
import Flexus.CommonQEMU.PipelineFifo
import Flexus.UFetch.Timing
import Flexus.MemQueue.PartialSnoops
import Flexus.FastCache.Victims
import Flexus.Cache.MissRuns
import Flexus.CmpCache.SkewedIndex
import Flexus.FastCache.Handover
import Flexus.FastCMPCache.TaglessCover
import Flexus.SplitDestinationMapper.Placement
import Flexus.UFetch.Evictions
import Flexus.NetShim.Arbitration
import Flexus.NetShim.TorusRoutes
import Flexus.NetShim.Validation
import Flexus.ArmDecoder.WordForms
import Flexus.ArmDecoder.FieldEncodings
import Flexus.ArmDecoder.Arithmetic
import Flexus.ArmDecoder.Shifts
import Flexus.ArmDecoder.Loads
