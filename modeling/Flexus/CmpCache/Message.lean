import Mathlib.Tactic

/-!
# Messages, processes and the configuration of the CMP cache

The data that travels between the cores, the directory controller and memory,
and the record of a message on its way through the controller's pipelines.
-/

namespace nCMPCache

/-- Physical addresses. -/
abbrev MemoryAddress := Nat

inductive MemoryMessageType where
  | LoadReq | StoreReq | StorePrefetchReq | FetchReq | NonAllocatingStoreReq | RMWReq | CmpxReq
  | AtomicPreloadReq | FlushReq | ReadReq | WriteReq | WriteAllocate | UpgradeReq
  | UpgradeAllocate | Flush | EvictDirty | EvictWritable | EvictClean | SVBClean | LoadReply
  | StoreReply | StorePrefetchReply | FetchReply | RMWReply | CmpxReply | AtomicPreloadReply
  | MissReply | MissReplyWritable | MissReplyDirty | UpgradeReply | NonAllocatingStoreReply
  | Invalidate | Downgrade | Probe | DownProbe | ReturnReq | InvalidateAck | InvUpdateAck
  | DowngradeAck | DownUpdateAck | ProbedNotPresent | ProbedClean | ProbedWritable | ProbedDirty
  | DownProbePresent | DownProbeNotPresent | ReturnReply | StreamFetch | PrefetchReadNoAllocReq
  | PrefetchReadAllocReq | PrefetchInsert | PrefetchInsertWritable | PrefetchReadReply
  | PrefetchWritableReply | PrefetchDirtyReply | PrefetchReadRedundant | StreamFetchWritableReply
  | StreamFetchRejected | ReturnNAck | ReturnReplyDirty | FetchFwd | ReadFwd | WriteFwd | FwdNAck
  | FwdReply | FwdReplyOwned | FwdReplyWritable | FwdReplyDirty | ReadAck | ReadAckDirty
  | FetchAck | FetchAckDirty | WriteAck | UpgradeAck | NASAck | ReadNAck | FetchNAck | WriteNAck
  | UpgradeNAck | NASNAck | MissNotify | MissNotifyData | BackInvalidate | InvalidateNAck
  | ProtocolMessage | EvictAck | WriteRetry | NumMemoryMessageTypes
  deriving DecidableEq, Repr

/-- The requests that ask for permission to change the block. -/
def MemoryMessageType.isWriteType : MemoryMessageType → Bool
  | .WriteReq | .UpgradeReq | .NonAllocatingStoreReq => true
  | _ => false

def MemoryMessageType.isReadType : MemoryMessageType → Bool
  | .ReadReq | .FetchReq => true
  | _ => false

def MemoryMessageType.isEvictType : MemoryMessageType → Bool
  | .EvictDirty | .EvictWritable | .EvictClean => true
  | _ => false

structure MemoryMessage where
  type : MemoryMessageType
  address : MemoryAddress := 0
  reqSize : Nat := 0
  outstandingMsgs : Int := 0
  ackRequired : Bool := true
  ackRequiresData : Bool := false
  evictHasData : Bool := false
  deriving DecidableEq, Repr

def MemoryMessage.isEvictType (m : MemoryMessage) : Bool := m.type.isEvictType

inductive DestinationType where
  | Requester | Directory | RemoteDirectory | Source | Memory | Multicast | Other
  deriving DecidableEq, Repr

structure DestinationMessage where
  type : DestinationType
  requester : Int := -1
  directory : Int := -1
  source : Int := -1
  other : Int := -1
  multicastList : List Int := []
  deriving DecidableEq, Repr

/-- A message with its destination. The program shares both by reference between
    a process, its MAF entry and the messages sent for it; whatever changes one
    of them here changes the others in the same step. -/
structure MemoryTransport where
  msg : MemoryMessage
  dest : DestinationMessage
  deriving DecidableEq, Repr

/-- The configuration of one bank. The set of a block in the directory and in the
    array is a function of its block address; the two functions are parameters. -/
structure CMPCacheInfo where
  theNodeId : Int := 0
  theCores : Nat
  theBlockSize : Nat
  theMAFSize : Nat
  theDirEBSize : Nat
  theCacheEBSize : Nat
  theQueueSize : Nat
  theEvictClean : Bool
  theDirAssociativity : Nat
  theCacheAssociativity : Nat
  makeDirSet : MemoryAddress → Nat
  makeCacheSet : MemoryAddress → Nat
  blockSize_pos : 0 < theBlockSize
  dirAssociativity_pos : 0 < theDirAssociativity
  cacheAssociativity_pos : 0 < theCacheAssociativity

/-- The address with its offset bits cleared: block sizes are powers of two. -/
def CMPCacheInfo.blockAddress (cfg : CMPCacheInfo) (a : MemoryAddress) : MemoryAddress :=
  a - a % cfg.theBlockSize

/-- Clearing the offset bits twice is clearing them once. -/
@[simp]
theorem CMPCacheInfo.blockAddress_blockAddress (cfg : CMPCacheInfo) (a : MemoryAddress) :
    cfg.blockAddress (cfg.blockAddress a) = cfg.blockAddress a := by
  have hmod : (a - a % cfg.theBlockSize) % cfg.theBlockSize = 0 :=
    Nat.mod_eq_zero_of_dvd (Nat.dvd_sub_mod a)
  simp only [CMPCacheInfo.blockAddress, hmod, Nat.sub_zero]

/-- The assertions of the controller and its policy, and its accesses through
    iterators to removed entries: the simulator does not continue past these. -/
inductive Fault where
  | invalidMAFState
  | danglingMAF
  | noWakingMAF
  | sharerOutOfRange
  | noVictim
  | unknownRequest
  | unexpectedSnoop
  | upgradeFromNonSharer
  | noInvalidatesNeeded
  | activeWriteDuringDirEvict
  | noDirEBEntry
  | dirEBStillShared
  | dirEntryNotFound
  | noMatchingMAF
  | wrongMAFType
  | wrongMAFAddress
  | blockInEvictBuffer
  | unexpectedRace
  | evictAckWithoutEntry
  | evictAckNotPending
  | unexpectedReply
  | notBackInvalidate
  | nothingToEvict
  | unexpectedAction
  | missingReply
  | missingSnoop
  | snoopsLeft
  | reservationsLeft
  | reservationUnderflow
  | reservationOverflow
  deriving DecidableEq, Repr

inductive ProcessType where
  | eProcWakeMAF | eProcCacheEvict | eProcDirEvict | eProcReply | eProcSnoop | eProcRequest
  | eProcIdleWork
  deriving DecidableEq, Repr

inductive ProcessAction where
  | eFwdAndWaitAck | eNotifyAndWaitAck | eFwdAndWakeEvictMAF | eWakeEvictMAF | eForward
  | eFwdRequest | eFwdAndReply | eReply | eReplyAndRemoveMAF | eRemoveMAF | eRemoveAndWakeMAF
  | eStall | eNoAction
  deriving DecidableEq, Repr

/-- A message in the controller's pipelines. The MAF entry it belongs to is known
    by the stamp of that entry; a process that was not given one has none. -/
structure ProcessEntry where
  type : ProcessType
  action : ProcessAction := .eNoAction
  maf : Option Nat := none
  transport : MemoryTransport
  replyTransport : Option MemoryTransport := none
  snoopTransports : List MemoryTransport := []
  requiresData : Bool := false
  transmitAfterTag : Bool := false
  snoopOutReserved : Nat := 0
  reqOutReserved : Nat := 0
  replyOutReserved : Nat := 0
  mafReserved : Bool := false
  cacheEBReserved : Int := 0
  dirEBReserved : Int := 0
  deriving DecidableEq, Repr

namespace ProcessEntry

def noReservations (p : ProcessEntry) : Bool :=
  p.snoopOutReserved == 0 && p.replyOutReserved == 0 && p.reqOutReserved == 0 && !p.mafReserved &&
    p.dirEBReserved == 0 && p.cacheEBReserved == 0

def addSnoopTransport (p : ProcessEntry) (t : MemoryTransport) : ProcessEntry :=
  { p with snoopTransports := p.snoopTransports ++ [t] }

/-- The process without its reservations: what it is there to do. -/
def job (p : ProcessEntry) : ProcessEntry :=
  { p with
    snoopOutReserved := 0
    reqOutReserved := 0
    replyOutReserved := 0
    mafReserved := false
    cacheEBReserved := 0
    dirEBReserved := 0 }

/-- The transport of a message the controller makes from the one it handles: the
    destination is copied, then addressed anew. -/
def derive (p : ProcessEntry) (msg : MemoryMessage) (type : DestinationType) : MemoryTransport :=
  { msg := msg, dest := { p.transport.dest with type := type } }

end ProcessEntry

end nCMPCache
