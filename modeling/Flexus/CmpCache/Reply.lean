import Flexus.CmpCache.Policy

/-!
# Replies, and the bank's own evictions

The handlers for acknowledgements, data and negative acknowledgements from the
cores, for the answers of memory, and for the write-backs and invalidations the
bank starts by itself.
-/

namespace nCMPCache

namespace Policy

variable {cfg : CMPCacheInfo}

/-- The request a reply answers: the one of the same core that waits for its final
    acknowledgement. -/
def matchingMAF (s : Policy cfg) (t : MemoryTransport) : Except Fault MAFEntry :=
  match (s.theMAF.findAll t.msg.address .eWaitAck).find? fun e => e.requester == t.dest.requester with
  | some e => .ok e
  | none => .error .noMatchingMAF

/-- The first request that waits for its final acknowledgement, which must be of the
    given type. -/
def firstMAF (s : Policy cfg) (a : MemoryAddress) (type : MemoryMessageType) : Except Fault MAFEntry :=
  match s.theMAF.findFirst a .eWaitAck with
  | some e => if e.type = type then .ok e else .error .wrongMAFType
  | none => .error .noMatchingMAF

/-- Give an evict buffer reservation that the entry kept back to the process. -/
def returnReservation (s : Policy cfg) (p : ProcessEntry) (e : MAFEntry) : Policy cfg × ProcessEntry :=
  if 0 < e.cacheEBReserved then
    ({ s with theMAF := s.theMAF.setCacheEBReserved e.stamp 0 },
      { p with maf := some e.stamp, cacheEBReserved := e.cacheEBReserved })
  else (s, { p with maf := some e.stamp })

/-- Make room for data that arrives for a block. A write-back of the block must not be
    under way. -/
def makeRoom (s : Policy cfg) (a : MemoryAddress) : Except Fault (Policy cfg) :=
  if s.theCache.state a = .Invalid then
    if (s.theCacheEvictBuffer.find a).isSome then .error .blockInEvictBuffer else s.allocateBlock a
  else .ok s

/-- A request that waits for the block to be gone goes on once the process is done. -/
def wakeWaitEvict (s : Policy cfg) (p : ProcessEntry) (a : MemoryAddress) : Policy cfg × ProcessEntry :=
  match s.theMAF.findFirst a .eWaitEvict with
  | some waiting => (s, { p with maf := some waiting.stamp, action := .eWakeEvictMAF })
  | none => (s, { p with action := .eNoAction })

/-- Dirty data that a directory eviction brings back goes to the array. -/
def keepDirtyData (s : Policy cfg) (a : MemoryAddress) : Except Fault (Policy cfg) := do
  let s ← s.makeRoom a
  pure { s with theCache := s.theCache.setState a .Modified }

/-- One invalidate of a directory eviction is done. After the last one the entry goes,
    with its reservation. -/
def completeInvalidate (s : Policy cfg) (p : ProcessEntry) (dEB : DirEBEntry)
    (sharers : SimpleDirectoryState) (reserved : Int) : Handled cfg :=
  let a := p.transport.msg.address
  let s := { s with
    theDirEvictBuffer := (s.theDirEvictBuffer.setState a sharers).completeInvalidate a }
  if dEB.invalidatesPending - 1 = 0 then
    if sharers.noSharers = false then .error .dirEBStillShared
    else .ok ({ s with theDirEvictBuffer := s.theDirEvictBuffer.remove a }.wakeWaitEvict
      (if 0 < reserved then { p with cacheEBReserved := reserved } else p) a)
  else .ok (s, { p with action := .eNoAction })

/-- A core has invalidated its copy for a directory eviction, with or without dirty
    data. -/
def handleInvalidateAck (s : Policy cfg) (p : ProcessEntry) : Handled cfg :=
  let a := p.transport.msg.address
  match s.theDirEvictBuffer.find a with
  | none => .error .noDirEBEntry
  | some dEB => do
    let sharers ← dEB.state.dropSharer p.transport.dest.other
    if p.transport.msg.type = .InvUpdateAck then
      let s ← s.keepDirtyData a
      completeInvalidate { s with theDirEvictBuffer := s.theDirEvictBuffer.setCacheEBReserved a 0 }
        { p with requiresData := true, cacheEBReserved := p.cacheEBReserved + dEB.cacheEBReserved }
        dEB sharers 0
    else s.completeInvalidate p dEB sharers dEB.cacheEBReserved

/-- The state of the array's copy after a read was acknowledged with data. -/
def ackState (type : MemoryMessageType) (cstate : CacheState) : CacheState :=
  match type with
  | .FetchAckDirty | .ReadAckDirty => .Modified
  | .FetchAck => if cstate = .Modified then cstate else .Shared
  | .ReadAck => if cstate = .Modified then cstate else .Exclusive
  | _ => cstate

/-- Data that comes with the acknowledgement of a read goes to the array. -/
def keepAckData (s : Policy cfg) (req : MemoryMessage) : Except Fault (Policy cfg) := do
  let s ← s.makeRoom req.address
  pure { s with
    theCache := s.theCache.setState req.address (ackState req.type (s.theCache.state req.address)) }

/-- A read or fetch is complete. -/
def handleReadAck (s : Policy cfg) (p : ProcessEntry) : Handled cfg := do
  let req := p.transport.msg
  let maf ← s.matchingMAF p.transport
  let (s, p) := s.returnReservation p maf
  match s.theDirectory.lookup cfg req.address with
  | none => .error .dirEntryNotFound
  | some block => do
    let sharers ← block.state.joinSharer p.transport.dest.requester
    let s := { s with theDirectory := s.theDirectory.setState cfg req.address sharers }
    let p := { p with action := .eRemoveAndWakeMAF }
    if req.ackRequiresData then do
      let s ← s.keepAckData req
      pure (s, { p with requiresData := true })
    else pure (s, p)

/-- A non-allocating store is complete. -/
def handleNASAck (s : Policy cfg) (p : ProcessEntry) : Handled cfg := do
  let maf ← s.firstMAF p.transport.msg.address .NonAllocatingStoreReq
  let (s, p) := s.returnReservation p maf
  pure (s, { p with action := .eRemoveAndWakeMAF })

/-- A core owns the block now: a copy in the array may be out of date from here on, and
    one in the evict buffer, pending or not, is given up. -/
def yieldCopy (s : Policy cfg) (a : MemoryAddress) : Policy cfg :=
  if s.theCache.state a = .Invalid then
    match s.theCacheEvictBuffer.find a with
    | some _ =>
      if cfg.theEvictClean then
        { s with
          theCacheEvictBuffer := s.theCacheEvictBuffer.modify a
            (fun e => { e with state := .Exclusive, type := .EvictClean }) (fun _ => rfl) }
      else { s with theCacheEvictBuffer := s.theCacheEvictBuffer.remove a }
    | none => s
  else { s with theCache := s.theCache.setState a .Exclusive }

/-- The core whose request of the given type is acknowledged is the only owner of the
    block. -/
def handleOwnershipAck (type : MemoryMessageType) (s : Policy cfg) (p : ProcessEntry) : Handled cfg := do
  let a := p.transport.msg.address
  let maf ← s.firstMAF a type
  match s.theDirectory.lookup cfg a with
  | none => .error .dirEntryNotFound
  | some block => do
    let sharers ← block.state.setSharer p.transport.dest.requester
    let s := { s with
      theDirectory := (s.theDirectory.setState cfg a sharers).setProtected cfg a false }
    let (s, p) := (s.yieldCopy a).returnReservation p maf
    pure (s, { p with action := .eRemoveAndWakeMAF })

def handleWriteAck (s : Policy cfg) (p : ProcessEntry) : Handled cfg :=
  handleOwnershipAck .WriteReq s p

def handleUpgradeAck (s : Policy cfg) (p : ProcessEntry) : Handled cfg :=
  handleOwnershipAck .UpgradeReq s p

/-- Memory has done a non-allocating store; the requester need not acknowledge. -/
def handleNASReply (s : Policy cfg) (p : ProcessEntry) : Handled cfg := do
  let maf ← s.matchingMAF p.transport
  let p := { p with transport := { p.transport with
    msg := { p.transport.msg with ackRequired := false } } }
  pure (s, { p with
    maf := some maf.stamp
    replyTransport := some (p.derive p.transport.msg .Requester)
    action := .eReplyAndRemoveMAF })

/-- The data that memory sends for a read or fetch goes to the array. -/
def keepMemoryData (s : Policy cfg) (req : MemoryMessage) (maf : MAFEntry) :
    Except Fault (Policy cfg) := do
  let s ← s.makeRoom req.address
  pure { s with
    theCache := s.theCache.setState req.address
      (if maf.type ≠ .FetchReq ∧ req.type = .MissReplyWritable then .Exclusive else .Shared) }

/-- Memory answers. The answer goes on to the requester, the data of a read or fetch
    also to the array. -/
def handleMemoryReply (s : Policy cfg) (p : ProcessEntry) : Handled cfg := do
  let req := p.transport.msg
  let maf ← s.matchingMAF p.transport
  let (s, p) := s.returnReservation p maf
  let p := { p with replyTransport := some (p.derive req .Requester), action := .eReply }
  if maf.type.isReadType then do
    let s ← s.keepMemoryData req maf
    pure (s, { p with requiresData := true, transmitAfterTag := true })
  else pure (s, p)

/-- A block that waits in the evict buffer for its write-back is brought back. -/
def recoverCopy (s : Policy cfg) (a : MemoryAddress) : Except Fault (Policy cfg) :=
  if s.theCache.state a = .Invalid then
    match s.theCacheEvictBuffer.find a with
    | some e => if e.pending then .ok s else s.recoverBlock a e
    | none => .ok s
  else .ok s

/-- Answer a request whose forward came back: from the array, else from memory when no
    core has the block, else from another sharer. -/
def retryForward (s : Policy cfg) (p : ProcessEntry) (maf : MAFEntry) (dir : SimpleDirectoryState) :
    Handled cfg :=
  let a := p.transport.msg.address
  let cstate := s.theCache.state a
  if cstate ≠ .Invalid then
    if dir.oneSharer = true ∧ cstate ≠ .Shared then .error .unexpectedRace
    else
      let type : MemoryMessageType :=
        if dir.noSharers = true ∧ cstate ≠ .Shared then .MissReplyWritable else .MissReply
      .ok ({ s with
        theCache := s.theCache.recordAccess a
        theMAF := s.theMAF.setState maf.stamp .eWaitAck maf.transport },
        replyWith p { type := type, address := a, reqSize := cfg.theBlockSize } true .eReply)
  else if dir.noSharers then
    let t := { maf.transport with dest := { maf.transport.dest with type := .Memory, source := -1 } }
    .ok ({ s with theMAF := s.theMAF.setTransport maf.stamp t },
      { p.addSnoopTransport t with action := .eForward })
  else
    let msg : MemoryMessage :=
      { type := if maf.type = .FetchReq then .FetchFwd else .ReadFwd
        address := maf.transport.msg.address
        reqSize := maf.transport.msg.reqSize }
    let sharer := pickSharer dir maf.transport.dest.directory
    let dest := { maf.transport.dest with type := .Source, source := sharer }
    .ok (s, { p.addSnoopTransport { msg := msg, dest := dest } with action := .eForward })

/-- The core a read was forwarded to no longer has the block. -/
def handleFwdNAck (s : Policy cfg) (p : ProcessEntry) : Handled cfg :=
  match s.theDirectory.lookup cfg p.transport.msg.address with
  | none => .error .dirEntryNotFound
  | some block => do
    let maf ← s.matchingMAF p.transport
    let s ← s.recoverCopy p.transport.msg.address
    s.retryForward { p with maf := some maf.stamp } maf block.state

/-- Memory has the block: the write-back is over. -/
def handleEvictAck (s : Policy cfg) (p : ProcessEntry) : Handled cfg :=
  let a := p.transport.msg.address
  match s.theCacheEvictBuffer.find a with
  | none => .error .evictAckWithoutEntry
  | some e =>
    if e.pending = false then .error .evictAckNotPending
    else .ok ({ s with theCacheEvictBuffer := s.theCacheEvictBuffer.remove a }.wakeWaitEvict p a)

def handleReply (s : Policy cfg) (p : ProcessEntry) : Handled cfg :=
  match p.transport.msg.type with
  | .InvalidateAck | .InvUpdateAck => s.handleInvalidateAck p
  | .FetchAckDirty | .ReadAckDirty | .FetchAck | .ReadAck => s.handleReadAck p
  | .NASAck => s.handleNASAck p
  | .WriteAck => s.handleWriteAck p
  | .UpgradeAck => s.handleUpgradeAck p
  | .NonAllocatingStoreReply => s.handleNASReply p
  | .FetchReply | .MissReply | .MissReplyWritable => s.handleMemoryReply p
  | .FwdNAck => s.handleFwdNAck p
  | .EvictAck => s.handleEvictAck p
  | _ => .error .unexpectedReply

/-! ## The bank's own evictions -/

/-- The write-back of the oldest block in the evict buffer that has none under way. -/
def getCacheEvictTransport (s : Policy cfg) : Except Fault (Policy cfg × MemoryTransport) :=
  if s.theCacheEvictBuffer.empty then .error .nothingToEvict
  else do
    let (ceb, e) ← s.theCacheEvictBuffer.firstNonPending
    pure ({ s with theCacheEvictBuffer := ceb },
      { msg :=
          { type := e.type
            address := e.address
            reqSize := cfg.theBlockSize
            ackRequired := true
            evictHasData := e.type = .EvictDirty }
        dest := { type := .Memory, directory := cfg.theNodeId } })

/-- The back-invalidation of the oldest block in the directory evict buffer that has
    none under way, or an empty message. -/
def getIdleWorkTransport (s : Policy cfg) : Policy cfg × MemoryTransport :=
  match s.theDirEvictBuffer.oldestRequiringInvalidates with
  | none => (s, { msg := { type := .NumMemoryMessageTypes }, dest := { type := .Memory } })
  | some dEB =>
    ({ s with
      theDirEvictBuffer := (s.theDirEvictBuffer.setInvalidatesPending dEB.address
        dEB.state.countSharers).setCacheEBReserved dEB.address 1 },
      { msg := { type := .BackInvalidate, address := dEB.address }
        dest :=
          { type := .Multicast
            multicastList := dEB.state.getSharerList
            directory := cfg.theNodeId } })

def getDirEvictTransport (s : Policy cfg) : Policy cfg × MemoryTransport := s.getIdleWorkTransport

def handleCacheEvict (s : Policy cfg) (p : ProcessEntry) : Policy cfg × ProcessEntry :=
  (s, { p.addSnoopTransport p.transport with action := .eForward })

def handleDirEvict (s : Policy cfg) (p : ProcessEntry) : Handled cfg :=
  if p.transport.msg.type ≠ .BackInvalidate then .error .notBackInvalidate
  else .ok (s, { p.addSnoopTransport p.transport with action := .eForward, cacheEBReserved := 0 })

/-- With nothing to invalidate, idle time goes into writing back a block of the evict
    buffer. Neither the directory nor the array have idle work of their own. -/
def handleIdleWork (s : Policy cfg) (p : ProcessEntry) : Handled cfg :=
  if p.transport.msg.type = .NumMemoryMessageTypes then
    if !s.theCacheEvictBuffer.empty && s.theCacheEvictBuffer.evictableReady then do
      let (s, t) ← s.getCacheEvictTransport
      pure (s.handleCacheEvict { p with transport := t })
    else .ok (s, { p with action := .eNoAction })
  else .ok (s, { p.addSnoopTransport p.transport with action := .eForward, cacheEBReserved := 0 })

def hasIdleWorkAvailable (s : Policy cfg) : Bool :=
  !s.theCacheEvictBuffer.empty && s.theCacheEvictBuffer.evictableReady

/-- The last request for the block is complete: its directory entry may be replaced,
    and the requests that waited for the block or for room in its directory set wake
    up. -/
def wakeMAFs (s : Policy cfg) (a : MemoryAddress) : Policy cfg :=
  if (s.theMAF.findFirst a .eWaitAck).isSome then s
  else
    { s with
      theDirectory := s.theDirectory.setProtected cfg a false
      theMAF := s.theMAF.wakeAll ((s.theMAF.ordered.filter fun e =>
        e.state == .eWaitRequest && e.address == a ||
          e.state == .eWaitSet && StdDirectory.sameSet cfg a e.address).map MAFEntry.stamp) }

end Policy

end nCMPCache
