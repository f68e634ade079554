import Flexus.Lib.Keyed
import Flexus.Lib.Runs
import Flexus.MemQueue.Entry

/-!
# The memory unit of the core

The memory queue with its counters, the lines whose write permission the store
buffer waits for, the miss registers and the checkpoints of a speculating core.
Every function changes only the parts of the core it names.
-/

namespace nuArchARM

abbrev VirtualMemoryAddress := BitVec 64

inductive eConsistencyModel where
  | kSC
  | kTSO
  | kRMO
  deriving DecidableEq, Repr

structure CoreConfig where
  theCoherenceUnit : PhysicalMemoryAddress
  theConsistencyModel : eConsistencyModel
  theSpeculativeOrder : Bool
  theNAWBypassSB : Bool
  thePrefetchEarly : Bool
  theSBSize : Int
  theAllowedSpeculativeCheckpoints : Int
  theCheckpointThreshold : Int

/-- The cache line of an address. -/
def CoreConfig.line (cfg : CoreConfig) (a : PhysicalMemoryAddress) : PhysicalMemoryAddress :=
  a &&& ~~~(cfg.theCoherenceUnit - 1#64)

/-- The assertions of the memory unit, and its accesses through iterators that no
    longer refer to anything. -/
inductive CoreFault where
  | notInQueue
  | wrongQueue
  | negativeCount
  | countMismatch
  | lineCount
  | falseCount
  | noValue
  | invalidAddress
  | abnormalAccess
  | wrongOperation
  | storeBufferFull
  | notSpeculating
  | duplicateCheckpoint
  | checkpointLimit
  | noCheckpoint
  | noViolator
  | danglingWaiter
  | danglingMSHR
  | notWaiting
  | emptyMSHR
  | alreadyLinked
  | noPageWalk
  | wrongStatus
  | untrackedLine
  deriving DecidableEq, Repr

/-- What the core asks of the memory system. -/
inductive eRequest where
  | kLoad
  | kStore
  | kRMW
  | kCAS
  | kAtomicPreload
  | kPageWalkRequest
  | kStorePrefetch
  deriving DecidableEq, Repr

inductive eReply where
  | kLoadReply
  | kStoreReply
  | kRMWReply
  | kCASReply
  | kAtomicPreloadReply
  | kStorePrefetchReply
  deriving DecidableEq, Repr

/-- An entry of the memory queue with what retirement and the miss registers need to know
    of it. The link is the key of the miss register its iterator refers to. -/
structure LSQEntry extends MemQueueEntry where
  theVaddr : VirtualMemoryAddress
  theStoreComplete : Bool
  theSpeculatedValue : Bool
  theBypassSB : Bool
  link : Option PhysicalMemoryAddress
  deriving DecidableEq, Repr

namespace LSQEntry

def create (aSequenceNum : Nat) (anOperation : eOperation) (aSize : eSize) (aBypassSB : Bool)
    (aDependance : Bool) : LSQEntry where
  toMemQueueEntry := .create aSequenceNum anOperation aSize aDependance
  theVaddr := -1#64
  theStoreComplete := false
  theSpeculatedValue := false
  theBypassSB := aBypassSB
  link := none

/-- The status, which depends on whether the entry is linked. -/
def linkedStatus (e : LSQEntry) : eStatus :=
  { e.toMemQueueEntry with theMSHR := e.link.isSome }.status

end LSQEntry

abbrev seqOf (e : LSQEntry) : Nat := e.theSequenceNum

/-! ## Write permission -/

/-- A line of the store buffer: how many stores need it, and whether the core may write. -/
structure SBLine where
  theAddress : PhysicalMemoryAddress
  theCount : Int
  thePermission : Bool
  deriving DecidableEq, Repr

structure Permissions where
  theSBLines_Permission : List SBLine
  theSBLines_Permission_falsecount : Int
  deriving DecidableEq, Repr

namespace Permissions

abbrev find (p : Permissions) (addr : PhysicalMemoryAddress) : Option SBLine :=
  Keyed.lookup SBLine.theAddress p.theSBLines_Permission addr

/-- Change the line with the given address. -/
def modify (p : Permissions) (addr : PhysicalMemoryAddress) (f : SBLine → SBLine) : List SBLine :=
  Keyed.alter SBLine.theAddress addr f p.theSBLines_Permission

/-- One more store needs the line; the result says whether it may be written. -/
def require (p : Permissions) (addr : PhysicalMemoryAddress) :
    Except CoreFault (Permissions × Bool) :=
  match p.find addr with
  | none =>
    let lines := p.theSBLines_Permission ++ [⟨addr, 1, false⟩]
    let falsecount := p.theSBLines_Permission_falsecount + 1
    if falsecount < 0 ∨ (lines.length : Int) < falsecount then .error .falseCount
    else .ok (⟨lines, falsecount⟩, false)
  | some sbline =>
    .ok ({ p with
      theSBLines_Permission := p.modify addr fun l => { l with theCount := l.theCount + 1 } },
      sbline.thePermission)

/-- `unrequireWritePermission` of a line. -/
def unrequire (p : Permissions) (addr : PhysicalMemoryAddress) : Except CoreFault Permissions :=
  match p.find addr with
  | none => .ok p
  | some sbline =>
    let count := sbline.theCount - 1
    if count < 0 then .error .lineCount
    else if count = 0 then
      let falsecount := if sbline.thePermission then p.theSBLines_Permission_falsecount
        else p.theSBLines_Permission_falsecount - 1
      if falsecount < 0 then .error .falseCount
      else .ok ⟨Keyed.erase SBLine.theAddress addr p.theSBLines_Permission, falsecount⟩
    else .ok { p with
      theSBLines_Permission := p.modify addr fun l => { l with theCount := l.theCount - 1 } }

/-- The permission for a tracked line arrives. -/
def acquire (p : Permissions) (addr : PhysicalMemoryAddress) : Except CoreFault Permissions :=
  match p.find addr with
  | none => .ok p
  | some sbline =>
    let falsecount := if sbline.thePermission then p.theSBLines_Permission_falsecount
      else p.theSBLines_Permission_falsecount - 1
    if falsecount < 0 then .error .falseCount
    else .ok ⟨p.modify addr fun l => { l with thePermission := true }, falsecount⟩

/-- The permission for a tracked line is taken away. -/
def lose (p : Permissions) (addr : PhysicalMemoryAddress) : Except CoreFault Permissions :=
  match p.find addr with
  | none => .ok p
  | some sbline =>
    let falsecount := if sbline.thePermission then p.theSBLines_Permission_falsecount + 1
      else p.theSBLines_Permission_falsecount
    if falsecount < 0 ∨ (p.theSBLines_Permission.length : Int) < falsecount then .error .falseCount
    else .ok ⟨p.modify addr fun l => { l with thePermission := false }, falsecount⟩

end Permissions

/-! ## Checkpoints -/

/-- The state saved for an instruction, of which only the program counter matters here. -/
structure Checkpoint where
  theInstruction : Nat
  thePC : VirtualMemoryAddress
  theLostPermissionCount : Nat
  theRequiredPermissions : List (PhysicalMemoryAddress × Nat)
  theHeldPermissions : List PhysicalMemoryAddress
  deriving DecidableEq, Repr

namespace Checkpoint

/-- The map keeps its first instruction for a line, the set holds a line once. -/
def require (k : Checkpoint) (addr : PhysicalMemoryAddress) (insn : Nat) (permission : Bool) :
    Checkpoint :=
  { k with
    theRequiredPermissions :=
      if (k.theRequiredPermissions.map Prod.fst).contains addr then k.theRequiredPermissions
      else k.theRequiredPermissions ++ [(addr, insn)]
    theHeldPermissions :=
      if permission && !k.theHeldPermissions.contains addr then k.theHeldPermissions ++ [addr]
      else k.theHeldPermissions }

def acquire (addr : PhysicalMemoryAddress) (k : Checkpoint) : Checkpoint :=
  if (k.theRequiredPermissions.map Prod.fst).contains addr && !k.theHeldPermissions.contains addr then
    { k with theHeldPermissions := k.theHeldPermissions ++ [addr] }
  else k

def lose (addr : PhysicalMemoryAddress) (k : Checkpoint) : Checkpoint :=
  if k.theHeldPermissions.contains addr then
    { k with
      theHeldPermissions := k.theHeldPermissions.filter (· != addr)
      theLostPermissionCount := k.theLostPermissionCount + 1 }
  else k

end Checkpoint

/-! ## Miss registers -/

structure MSHR where
  thePaddr : PhysicalMemoryAddress
  theOperation : eRequest
  theSize : eSize
  theWaitingLSQs : List Nat
  theBlockedOps : List Nat
  theBlockedPrefetches : List Nat
  deriving DecidableEq, Repr

/-- A request to the memory system, or its reply. -/
structure MemOp where
  theOperation : eRequest
  thePAddr : PhysicalMemoryAddress
  theVAddr : VirtualMemoryAddress
  theSize : eSize
  deriving DecidableEq, Repr

def eRequest.reply : eRequest → eReply
  | .kLoad => .kLoadReply
  | .kStore => .kStoreReply
  | .kRMW => .kRMWReply
  | .kCAS => .kCASReply
  | .kAtomicPreload => .kAtomicPreloadReply
  | .kPageWalkRequest => .kLoadReply
  | .kStorePrefetch => .kStorePrefetchReply

def satisfies (cfg : CoreConfig) (aResponse : eReply) : eRequest → Bool
  | .kLoad | .kPageWalkRequest => aResponse == .kLoadReply
  | .kStore => aResponse == .kStoreReply
  | .kRMW => aResponse == .kRMWReply ||
      cfg.theSpeculativeOrder && (aResponse == .kAtomicPreloadReply || aResponse == .kStoreReply)
  | .kCAS => aResponse == .kCASReply ||
      cfg.theSpeculativeOrder && (aResponse == .kAtomicPreloadReply || aResponse == .kStoreReply)
  | .kAtomicPreload => aResponse == .kAtomicPreloadReply
  | .kStorePrefetch => false

/-! ## The core -/

/-- What an instruction does to its queue entry when it commits. -/
inductive CommitEffect where
  | keep
  | commitStore
  | eraseLSQ
  deriving DecidableEq, Repr

structure Instruction where
  sequenceNo : Nat
  pc : VirtualMemoryAddress
  theCommitEffect : CommitEffect
  mayCommit : Bool
  hasCheckpoint : Bool
  deriving DecidableEq, Repr

/-- The core as far as memory operations and speculation go. `theMemoryPorts` holds the
    requests that have no reply yet. -/
structure Core where
  theMemQueue : List LSQEntry
  theMemorySequenceNum : Nat
  theLSQCount : Int
  theSBCount : Int
  theSBNAWCount : Int
  thePermissions : Permissions
  theMSHRs : List MSHR
  theMemoryPorts : List MemOp
  theOutstandingStorePrefetches : List PhysicalMemoryAddress
  thePageWalkRequests : List (VirtualMemoryAddress × Nat)
  theReadyTranslations : List Nat
  theROB : List Instruction
  theSRB : List Instruction
  theCheckpoints : List Checkpoint
  theOpenCheckpoint : Option Nat
  theRetiresSinceCheckpoint : Int
  theIsSpeculating : Bool
  theAbortSpeculation : Bool
  theViolatingInstruction : Nat
  thePC : VirtualMemoryAddress
  theRedirectRequested : Bool
  theRedirectPC : VirtualMemoryAddress
  deriving DecidableEq, Repr

/-- Nothing is dispatched yet. -/
def Core.start (aPC : VirtualMemoryAddress) : Core where
  theMemQueue := []
  theMemorySequenceNum := 0
  theLSQCount := 0
  theSBCount := 0
  theSBNAWCount := 0
  thePermissions := ⟨[], 0⟩
  theMSHRs := []
  theMemoryPorts := []
  theOutstandingStorePrefetches := []
  thePageWalkRequests := []
  theReadyTranslations := []
  theROB := []
  theSRB := []
  theCheckpoints := []
  theOpenCheckpoint := none
  theRetiresSinceCheckpoint := 0
  theIsSpeculating := false
  theAbortSpeculation := false
  theViolatingInstruction := 0
  thePC := aPC
  theRedirectRequested := false
  theRedirectPC := 0#64

end nuArchARM
