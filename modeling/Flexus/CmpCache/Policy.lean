import Flexus.CmpCache.MissAddressFile
import Flexus.CmpCache.Directory
import Flexus.CmpCache.CacheEvictBuffer

/-!
# The non-inclusive MESI policy

The handlers of `NonInclusiveMESIPolicy`: what a request, an eviction, a reply and
the bank's own evictions do to the directory, the array, the evict buffers and the
miss address file, and which action and messages they leave in the process.
-/

namespace nCMPCache

/-- The state the policy owns. -/
structure Policy (cfg : CMPCacheInfo) where
  theMAF : MissAddressFile
  theDirectory : StdDirectory
  theDirEvictBuffer : DirEvictBuffer
  theCache : StdArray cfg
  theCacheEvictBuffer : CacheEvictBuffer

/-- What a handler leaves behind, unless it runs into an assertion. -/
abbrev Handled (cfg : CMPCacheInfo) := Except Fault (Policy cfg × ProcessEntry)

namespace Policy

variable {cfg : CMPCacheInfo}

def create (cfg : CMPCacheInfo) : Policy cfg where
  theMAF := .create cfg.theMAFSize
  theDirectory := .create cfg
  theDirEvictBuffer := .create cfg.theDirEBSize
  theCache := .create cfg
  theCacheEvictBuffer := .create cfg.theCacheEBSize

def theDefaultState (cfg : CMPCacheInfo) : SimpleDirectoryState := .create cfg.theCores

/-- With so many entries of the cache evict buffer reserved, there is room for one more. -/
def CacheEBHasSpace (s : Policy cfg) (reserve : Int) : Bool := !s.theCacheEvictBuffer.full reserve

/-- The message with which the bank gives up a block in the given state. -/
def evictType : CacheState → MemoryMessageType
  | .Modified | .Owned => .EvictDirty
  | .Exclusive => .EvictWritable
  | _ => .EvictClean

def evictCacheBlock (s : Policy cfg) (address : MemoryAddress) (state : CacheState) : Policy cfg :=
  if state = .Invalid then s
  else if cfg.theEvictClean || evictType state == .EvictDirty then
    { s with
      theCacheEvictBuffer := s.theCacheEvictBuffer.allocEntry address (evictType state) state }
  else s

/-- Make room for a block in the array and evict the victim. -/
def allocateBlock (s : Policy cfg) (a : MemoryAddress) : Except Fault (Policy cfg) := do
  let (cache, vtag, vstate) ← s.theCache.allocate a
  pure ({ s with theCache := cache }.evictCacheBlock vtag vstate)

/-- Move a block from the cache evict buffer back into the array. -/
def recoverBlock (s : Policy cfg) (a : MemoryAddress) (e : EvictEntry) : Except Fault (Policy cfg) := do
  let (cache, vtag, vstate) ← s.theCache.allocate a
  pure ({ s with
    theCache := cache.setState a e.state
    theCacheEvictBuffer := s.theCacheEvictBuffer.remove a }.evictCacheBlock vtag vstate)

/-- Record the request in the miss address file: a woken request keeps its entry, a
    new one gets an entry. -/
def place (s : Policy cfg) (p : ProcessEntry) (hasMaf : Bool) (a : MemoryAddress) (st : MAFState) :
    Except Fault (Policy cfg × Nat) :=
  if hasMaf then
    match p.maf.bind s.theMAF.get? with
    | some e => .ok ({ s with theMAF := s.theMAF.setState e.stamp st p.transport }, e.stamp)
    | none => .error .danglingMAF
  else .ok ({ s with theMAF := s.theMAF.insert p.transport a st }, s.theMAF.nextStamp)

/-- Put the request off. -/
def stall (s : Policy cfg) (p : ProcessEntry) (hasMaf : Bool) (a : MemoryAddress) (st : MAFState) :
    Handled cfg := do
  let (s, _) ← s.place p hasMaf a st
  pure (s, { p with action := .eStall })

/-- The request is on its way and waits for the final acknowledgement. The process
    remembers the entry; some branches of the program do not, where nothing reads it
    any more. -/
def activate (s : Policy cfg) (p : ProcessEntry) (hasMaf : Bool) (a : MemoryAddress) : Handled cfg := do
  let (s, i) ← s.place p hasMaf a .eWaitAck
  pure (s, { p with maf := some i })

/-- The final acknowledgement may bring data, so the entry keeps the evict buffer
    reservation of the process until then. -/
def keepReservation (s : Policy cfg) (p : ProcessEntry) : Policy cfg × ProcessEntry :=
  ({ s with theMAF := (p.maf.map fun i => s.theMAF.setCacheEBReserved i p.cacheEBReserved).getD s.theMAF },
    { p with cacheEBReserved := 0 })

def pickSharer (state : SimpleDirectoryState) (dir : Int) : Int :=
  if state.isSharer dir then dir else state.getFirstSharer

/-! ## Evictions by a core -/

/-- Take over the reservation a directory eviction of the block holds. -/
def stealReservation (s : Policy cfg) (p : ProcessEntry) : Policy cfg × ProcessEntry :=
  match s.theDirEvictBuffer.find p.transport.msg.address with
  | some dEB =>
    if 0 < dEB.cacheEBReserved then
      ({ s with
        theDirEvictBuffer := s.theDirEvictBuffer.setCacheEBReserved p.transport.msg.address 0 },
        { p with cacheEBReserved := p.cacheEBReserved + dEB.cacheEBReserved })
    else (s, p)
  | none => (s, p)

/-- Put the data of a core's eviction into the array. A copy of the block in the evict
    buffer is taken out, pending or not. -/
def fillFromEvict (s : Policy cfg) (req : MemoryMessage) : Except Fault (Policy cfg) := do
  let (cache, vtag, vstate) ← s.theCache.allocate req.address
  pure ({ s with
    theCache := cache.setState req.address (if req.type = MemoryMessageType.EvictDirty then CacheState.Modified else .Exclusive)
    theCacheEvictBuffer := s.theCacheEvictBuffer.remove (cfg.blockAddress req.address)
    }.evictCacheBlock vtag vstate)

/-- The entry of a woken process has the transport of the process. -/
def shareTransport (s : Policy cfg) (p : ProcessEntry) (hasMaf : Bool) : Policy cfg :=
  match hasMaf, p.maf with
  | true, some i => { s with theMAF := s.theMAF.setTransport i p.transport }
  | _, _ => s

/-- The data of a core's eviction goes to the array, or on to memory when the array
    has no room for it. The flag says whether a message has to be sent. -/
def writeEvictData (reserve : Int) (s : Policy cfg) (p : ProcessEntry) (hasMaf requiresFwd : Bool) :
    Except Fault (Policy cfg × ProcessEntry × Bool) :=
  let req := p.transport.msg
  if s.theCache.state req.address = .Invalid then
    let (s, p) := s.stealReservation p
    if 0 < p.cacheEBReserved || s.CacheEBHasSpace reserve then do
      let s ← s.fillFromEvict req
      pure (s, p, requiresFwd)
    else if req.type = .EvictDirty then
      let p := { p with transport := { p.transport with
        dest := { p.transport.dest with type := .Memory } } }
      .ok (s.shareTransport p hasMaf, p.addSnoopTransport p.transport, true)
    else .ok (s, p, requiresFwd)
  else
    .ok ({ s with theCache := (s.theCache.recordAccess req.address).setState req.address .Modified },
      p, requiresFwd)

/-- The core is no longer a sharer. The last one to leave the directory evict buffer
    lets a request go on that waits for the block to be gone. -/
def finishEvict (s : Policy cfg) (p : ProcessEntry) (activeWriteReq requiresFwd : Bool) :
    Handled cfg :=
  let address := p.transport.msg.address
  let source := p.transport.dest.requester
  let done : ProcessAction := if requiresFwd then .eForward else .eNoAction
  match s.theDirEvictBuffer.find address with
  | some dEB =>
    if activeWriteReq then .error .activeWriteDuringDirEvict
    else do
      let sharers ← dEB.state.dropSharer source
      let s := { s with theDirEvictBuffer := s.theDirEvictBuffer.setState address sharers }
      if dEB.invalidatesPending = 0 ∧ sharers.noSharers = true then
        let s := { s with theDirEvictBuffer := s.theDirEvictBuffer.remove address }
        match s.theMAF.findFirst address .eWaitEvict with
        | some waiting =>
          if waiting.transport.msg.address ≠ address then .error .wrongMAFAddress
          else .ok (s, { p with
            maf := some waiting.stamp
            action := if requiresFwd then .eFwdAndWakeEvictMAF else .eWakeEvictMAF })
        | none => .ok (s, { p with action := done })
      else .ok (s, { p with action := done })
  | none =>
    match s.theDirectory.lookup cfg address with
    | some block => do
      let sharers ← block.state.removeSharer source
      pure ({ s with theDirectory := s.theDirectory.setState cfg address sharers },
        { p with action := done })
    | none => .ok (s, { p with action := done })

/-- A request of the same core for the block is not complete yet. -/
def evictWaits (s : Policy cfg) (p : ProcessEntry) : Bool :=
  (s.theMAF.findAll p.transport.msg.address .eWaitAck).any fun e =>
    e.transport.msg.address == p.transport.msg.address && e.requester == p.transport.dest.requester

/-- A write to the block is on its way. -/
def activeWriteReq (s : Policy cfg) (p : ProcessEntry) : Bool :=
  (s.theMAF.findAll p.transport.msg.address .eWaitAck).head?.any fun e =>
    e.type == .WriteReq || e.type == .UpgradeReq

/-- Otherwise the block was invalidated while the eviction was on its way. -/
def validSharer (s : Policy cfg) (p : ProcessEntry) : Bool :=
  match s.theDirectory.lookup cfg p.transport.msg.address with
  | some block => block.state.isSharer p.transport.dest.requester
  | none =>
    (s.theDirEvictBuffer.find p.transport.msg.address).any fun e =>
      e.state.isSharer p.transport.dest.requester

/-- The eviction brings data. -/
def carriesData (req : MemoryMessage) : Bool :=
  req.type == .EvictDirty || (req.type == .EvictWritable && req.evictHasData)

/-- The core is told that its eviction was taken note of, when it asks for that. -/
def withEvictAck (p : ProcessEntry) : ProcessEntry :=
  if p.transport.msg.ackRequired then
    p.addSnoopTransport
      (p.derive { type := .EvictAck, address := p.transport.msg.address } .Requester)
  else p

/-- A core gives up a block. The counter is the number of cache evict buffer entries
    reserved at this point, by this process and by others. -/
def doEvict (reserve : Int) (s : Policy cfg) (p : ProcessEntry) (hasMaf : Bool) : Handled cfg :=
  if s.evictWaits p then s.stall p hasMaf p.transport.msg.address .eWaitRequest
  else if carriesData p.transport.msg && s.validSharer p then do
    let (s', q, requiresFwd) ← writeEvictData reserve s (withEvictAck p) hasMaf p.transport.msg.ackRequired
    s'.finishEvict q (s.activeWriteReq p) requiresFwd
  else s.finishEvict (withEvictAck p) (s.activeWriteReq p) p.transport.msg.ackRequired

/-! ## Requests -/

/-- A victim of the directory that cores still share goes to the evict buffer. -/
def insertVictim (b : DirEvictBuffer) :
    Option (MemoryAddress × SimpleDirectoryState) → DirEvictBuffer
  | some (address, state) => b.insert address state
  | none => b

/-- Give the block a directory entry, or return the state in which the request has to
    wait for one. -/
def claimDirEntry (s : Policy cfg) (type : MemoryMessageType) (a : MemoryAddress) :
    Except MAFState (Policy cfg) :=
  match s.theDirEvictBuffer.find a with
  | some dEB =>
    if dEB.invalidatesPending ≠ 0 then .error .eWaitEvict
    else if (s.theDirectory.lookup cfg a).isSome then .ok s
    else
      match s.theDirectory.allocate cfg a dEB.state with
      | none => .error .eWaitSet
      | some (dir, victim) =>
        .ok { s with
          theDirectory := dir
          theDirEvictBuffer := (insertVictim s.theDirEvictBuffer victim).remove a }
  | none =>
    if (s.theDirectory.lookup cfg a).isSome || type == .NonAllocatingStoreReq then .ok s
    else
      match s.theDirectory.allocate cfg a (theDefaultState cfg) with
      | none => .error .eWaitSet
      | some (dir, victim) =>
        .ok { s with
          theDirectory := dir
          theDirEvictBuffer := insertVictim s.theDirEvictBuffer victim }

/-- Bring a block that sits in the cache evict buffer back into the array, or return
    the state in which the request has to wait for its write-back. -/
def claimCacheBlock (s : Policy cfg) (a : MemoryAddress) :
    Except Fault (Except MAFState (Policy cfg)) :=
  if s.theCache.state a = .Invalid then
    match s.theCacheEvictBuffer.find a with
    | some e => if e.pending then .ok (.error .eWaitEvict) else .ok <$> s.recoverBlock a e
    | none => .ok (.ok s)
  else .ok (.ok s)

/-- Send the request itself on to memory. -/
def toMemory (p : ProcessEntry) : ProcessEntry :=
  let p := { p with transport := { p.transport with
    dest := { p.transport.dest with type := .Memory } } }
  { p.addSnoopTransport p.transport with action := .eFwdAndWaitAck }

/-- Set the reply and the action that sends it. -/
def replyWith (p : ProcessEntry) (msg : MemoryMessage) (requiresData : Bool) (action : ProcessAction) :
    ProcessEntry :=
  { p with
    replyTransport := some (p.derive msg .Requester)
    requiresData := requiresData || p.requiresData
    action := action }

def nasReply (p : ProcessEntry) (a : MemoryAddress) : MemoryMessage :=
  { type := .NonAllocatingStoreReply, address := a, reqSize := p.transport.msg.reqSize }

/-- A non-allocating store to a block the directory does not know. -/
def serveUntrackedStore (s : Policy cfg) (p : ProcessEntry) (hasMaf : Bool) (a : MemoryAddress) :
    Handled cfg :=
  if s.theCache.state a ≠ .Invalid then
    { s with theCache := (s.theCache.setState a .Modified).recordAccess a }.activate
      (replyWith p (nasReply p a) true .eReply) hasMaf a
  else s.activate (toMemory p) hasMaf a

/-- Neither the array nor a core has the block. -/
def serveFromMemory (s : Policy cfg) (p : ProcessEntry) (hasMaf mafWaiting : Bool) (a : MemoryAddress) :
    Handled cfg :=
  if mafWaiting then s.stall p hasMaf a .eWaitRequest
  else
    match p.transport.msg.type with
    | .WriteReq =>
      let p := toMemory p
      s.activate (replyWith p { type := .MissNotify, address := a, outstandingMsgs := 1 } false
        .eNotifyAndWaitAck) hasMaf a
    | .ReadReq | .FetchReq => do
      let (s, p) ← s.activate (toMemory p) hasMaf a
      pure (s.keepReservation p)
    | .NonAllocatingStoreReq => s.activate (toMemory p) hasMaf a
    | _ => .error .unknownRequest

/-- The array's copy may be out of date: the data has to come from a sharer. -/
def needsForward (cstate : CacheState) (dir : SimpleDirectoryState) : Bool :=
  cstate == .Invalid || (cstate == .Exclusive && dir.oneSharer)

/-- Forward a read to a sharer. -/
def forwardRead (s : Policy cfg) (p : ProcessEntry) (hasMaf : Bool) (a : MemoryAddress)
    (dir : SimpleDirectoryState) : Handled cfg := do
  let msg : MemoryMessage :=
    { type := if p.transport.msg.type = .FetchReq then .FetchFwd else .ReadFwd
      address := a
      reqSize := p.transport.msg.reqSize
      ackRequiresData := s.theCache.state a = .Invalid }
  let sharer := pickSharer dir p.transport.dest.directory
  let p := { p with transport := { p.transport with
    dest := { p.transport.dest with source := sharer } } }
  let p := { p.addSnoopTransport (p.derive msg .Source) with action := .eFwdAndWaitAck }
  let (s, p) ← s.activate p hasMaf a
  pure (s.keepReservation p)

/-- A read is answered with permission to write when no core shares the block. -/
def grantsWrite (cstate : CacheState) (dir : SimpleDirectoryState) (type : MemoryMessageType) : Bool :=
  dir.noSharers && cstate != .Shared && type != .FetchReq

/-- A dirty copy goes to the core that is given permission to write. -/
def passDirty (s : Policy cfg) (a : MemoryAddress) (grants : Bool) : Policy cfg :=
  if grants && s.theCache.state a == .Modified then
    { s with theCache := (s.theCache.setState a .Invalid).invalidateBlock a }
  else s

def readReplyType (grants : Bool) (cstate : CacheState) (type : MemoryMessageType) : MemoryMessageType :=
  if type = .FetchReq then .FetchReply
  else if grants then (if cstate = .Modified then .MissReplyDirty else .MissReplyWritable)
  else .MissReply

/-- Answer a read from the array. -/
def replyRead (s : Policy cfg) (p : ProcessEntry) (hasMaf : Bool) (a : MemoryAddress)
    (dir : SimpleDirectoryState) (type : MemoryMessageType) : Handled cfg := do
  let sharers ← dir.addSharer p.transport.dest.requester
  { s with
    theDirectory := s.theDirectory.setState cfg a sharers
    theCache := s.theCache.recordAccess a }.activate
    (replyWith p { type := type, address := a, reqSize := cfg.theBlockSize } true .eReply) hasMaf a

/-- The dirty copy is given up before it is known whether the read has to wait. -/
def serveRead (s : Policy cfg) (p : ProcessEntry) (hasMaf mafWaiting : Bool) (a : MemoryAddress)
    (dir : SimpleDirectoryState) : Handled cfg :=
  if needsForward (s.theCache.state a) dir then
    if dir.oneSharer && mafWaiting then s.stall p hasMaf a .eWaitRequest
    else s.forwardRead p hasMaf a dir
  else if grantsWrite (s.theCache.state a) dir p.transport.msg.type && mafWaiting then
    (s.passDirty a true).stall p hasMaf a .eWaitRequest
  else
    (s.passDirty a (grantsWrite (s.theCache.state a) dir p.transport.msg.type)).replyRead p hasMaf a dir
      (readReplyType (grantsWrite (s.theCache.state a) dir p.transport.msg.type) (s.theCache.state a)
        p.transport.msg.type)

/-- Give up the array's copy of a block that a core is about to write. -/
def dropCopy (s : Policy cfg) (a : MemoryAddress) : Policy cfg :=
  if s.theCache.state a ≠ .Invalid then { s with theCache := s.theCache.setState a .Invalid } else s

/-- The snoops for a write to a block that cores share: a forward to the sharer whose
    data is needed, and invalidates for the others. -/
def writeSnoops (p : ProcessEntry) (a : MemoryAddress) (dir : SimpleDirectoryState) (sharer : Int)
    (forward : Bool) : List MemoryTransport :=
  let fwd := p.derive { type := .WriteFwd, address := a, reqSize := p.transport.msg.reqSize } .Source
  let inv := p.derive { type := .Invalidate, address := a } .Multicast
  (if forward then [{ fwd with dest := { fwd.dest with source := sharer } }] else []) ++
    (if forward && dir.oneSharer then []
     else [{ inv with dest := { inv.dest with
       multicastList := inv.dest.multicastList ++ dir.getOtherSharers sharer } }])

/-- The core that a write is forwarded to. -/
def writeSource (p : ProcessEntry) (dir : SimpleDirectoryState) (forward : Bool) : Int :=
  if forward then pickSharer dir p.transport.dest.directory else -1

/-- The copies are called in, and the requester is told how many answers to expect. -/
def notifyWrite (p : ProcessEntry) (a : MemoryAddress) (dir : SimpleDirectoryState) (forward : Bool)
    (blockSize : Nat) : ProcessEntry :=
  let msg : MemoryMessage :=
    { type := if forward then .MissNotify else .MissNotifyData
      address := a
      outstandingMsgs := dir.countSharers
      reqSize := if forward then 0 else blockSize }
  let snoops := writeSnoops p a dir (writeSource p dir forward) forward
  let p := replyWith { p with snoopTransports := p.snoopTransports ++ snoops } msg (!forward)
    .eNotifyAndWaitAck
  { p with transport := { p.transport with
    dest := { p.transport.dest with source := writeSource p dir forward } } }

/-- A write to a block that cores share. When the data does not come from one of them
    alone, some core has to be invalidated. -/
def invalidateSharers (s : Policy cfg) (p : ProcessEntry) (hasMaf : Bool) (a : MemoryAddress)
    (dir : SimpleDirectoryState) : Handled cfg :=
  let forward := needsForward (s.theCache.state a) dir
  if !(forward && dir.oneSharer) &&
      (p.transport.dest.multicastList ++ dir.getOtherSharers (writeSource p dir forward)).isEmpty then
    .error .noInvalidatesNeeded
  else
    let cache := if forward then s.theCache else s.theCache.recordAccess a
    ({ s with theCache := cache }.dropCopy a).activate
      (notifyWrite p a dir forward cfg.theBlockSize) hasMaf a

/-- A write to a block that no core shares is answered from the array, which gives up
    its copy. -/
def replyWrite (s : Policy cfg) (p : ProcessEntry) (hasMaf : Bool) (a : MemoryAddress)
    (dir : SimpleDirectoryState) : Handled cfg := do
  let type : MemoryMessageType :=
    if s.theCache.state a = .Modified then .MissReplyDirty else .MissReplyWritable
  let cache :=
    if s.theCache.state a ≠ .Invalid then (s.theCache.setState a .Invalid).invalidateBlock a
    else s.theCache
  let sharers ← dir.addSharer p.transport.dest.requester
  { s with
    theDirectory := s.theDirectory.setState cfg a sharers
    theCache := cache.recordAccess a }.activate
    (replyWith p
      { type := type, address := a, reqSize := cfg.theBlockSize, outstandingMsgs := -1 } true .eReply)
    hasMaf a

def serveWrite (s : Policy cfg) (p : ProcessEntry) (hasMaf : Bool) (a : MemoryAddress)
    (dir : SimpleDirectoryState) : Handled cfg :=
  if dir.noSharers then s.replyWrite p hasMaf a dir else s.invalidateSharers p hasMaf a dir

/-- The other copies are called in, and the upgrading core is told how many answers to
    expect. -/
def notifyUpgrade (p : ProcessEntry) (a : MemoryAddress) (dir : SimpleDirectoryState) : ProcessEntry :=
  let requester := p.transport.dest.requester
  let inv := p.derive { type := .Invalidate, address := a } .Multicast
  let p := replyWith (p.addSnoopTransport
    { inv with dest := { inv.dest with
      multicastList := inv.dest.multicastList ++ dir.getOtherSharers requester } })
    { type := .MissNotify, address := a, outstandingMsgs := dir.countSharers - 1 } false
    .eNotifyAndWaitAck
  { p with transport := { p.transport with dest := { p.transport.dest with source := requester } } }

def serveUpgrade (s : Policy cfg) (p : ProcessEntry) (hasMaf : Bool) (a : MemoryAddress)
    (dir : SimpleDirectoryState) : Handled cfg :=
  if dir.oneSharer || dir.noSharers then
    if p.transport.dest.requester ≠ dir.getFirstSharer then .error .upgradeFromNonSharer
    else
      (s.dropCopy a).activate (replyWith p
        { type := .UpgradeReply, address := a, outstandingMsgs := -1 } false .eReply) hasMaf a
  else (s.dropCopy a).activate (notifyUpgrade p a dir) hasMaf a

/-- A non-allocating store to a block the directory knows; the sharers are ignored. -/
def serveStore (s : Policy cfg) (p : ProcessEntry) (hasMaf : Bool) (a : MemoryAddress) : Handled cfg :=
  if s.theCache.state a = .Invalid then s.activate (toMemory p) hasMaf a
  else
    { s with theCache := s.theCache.recordAccess a }.activate (replyWith p (nasReply p a) true .eReply)
      hasMaf a

/-- An upgrade by a core whose copy is gone becomes a write. -/
def convertUpgrade (p : ProcessEntry) (dir : SimpleDirectoryState) : ProcessEntry :=
  if p.transport.msg.type = .UpgradeReq ∧ dir.isSharer p.transport.dest.requester = false then
    { p with transport := { p.transport with msg := { p.transport.msg with type := .WriteReq } } }
  else p

/-- A directory entry must not be replaced before the request for its block is complete;
    a non-allocating store does without this. -/
def protectEntry (s : Policy cfg) (type : MemoryMessageType) (a : MemoryAddress) : Policy cfg :=
  if type = .NonAllocatingStoreReq then s
  else { s with theDirectory := s.theDirectory.setProtected cfg a true }

/-- The request has its directory entry and the array is up to date. -/
def serveRequest (s : Policy cfg) (p : ProcessEntry) (hasMaf mafWaiting : Bool) (a : MemoryAddress) :
    Handled cfg :=
  match s.theDirectory.lookup cfg a with
  | none =>
    if p.transport.msg.type = .NonAllocatingStoreReq then s.serveUntrackedStore p hasMaf a
    else .error .dirEntryNotFound
  | some block =>
    let s := s.protectEntry p.transport.msg.type a
    let p := convertUpgrade p block.state
    if block.state.noSharers = true ∧ s.theCache.state a = .Invalid then
      s.serveFromMemory p hasMaf mafWaiting a
    else
      match p.transport.msg.type with
      | .ReadReq | .FetchReq => s.serveRead p hasMaf mafWaiting a block.state
      | .WriteReq => s.serveWrite p hasMaf a block.state
      | .UpgradeReq => s.serveUpgrade p hasMaf a block.state
      | .NonAllocatingStoreReq => s.serveStore p hasMaf a
      | _ => .error .unknownRequest

/-- A request that no entry of the miss address file holds up; `mafWaiting` says that
    reads of the block are on their way. -/
def startRequest (reserve : Int) (s : Policy cfg) (p : ProcessEntry) (hasMaf mafWaiting : Bool) :
    Handled cfg :=
  let a := cfg.blockAddress p.transport.msg.address
  let type := p.transport.msg.type
  if type.isEvictType then doEvict reserve s p hasMaf
  else if mafWaiting && type == .FetchReq && (s.theMAF.findAll a .eWaitAck).any fun e =>
      e.requester == p.transport.dest.requester then
    .ok (s, { p with action := if hasMaf then .eRemoveMAF else .eNoAction })
  else
    match s.claimDirEntry type a with
    | .error st => s.stall p hasMaf a st
    | .ok s =>
      match s.claimCacheBlock a with
      | .error f => .error f
      | .ok (.error st) => s.stall p hasMaf a st
      | .ok (.ok s) => s.serveRequest p hasMaf mafWaiting a

def doRequest (reserve : Int) (s : Policy cfg) (p : ProcessEntry) (hasMaf : Bool) : Handled cfg :=
  let a := cfg.blockAddress p.transport.msg.address
  let type := p.transport.msg.type
  match s.theMAF.find a with
  | none => startRequest reserve s p hasMaf false
  | some maf =>
    match maf.state with
    | .eWaitSet => if type.isEvictType then doEvict reserve s p hasMaf else s.stall p hasMaf a .eWaitSet
    | .eWaitEvict => if type.isEvictType then doEvict reserve s p hasMaf else s.stall p hasMaf a .eWaitRequest
    | .eWaitRequest => s.stall p hasMaf a .eWaitRequest
    | .eWaitAck =>
      if type.isWriteType || maf.type.isWriteType then s.stall p hasMaf a .eWaitRequest
      else startRequest reserve s p hasMaf true
    | .eFinishing | .eWaking | .eInPipeline => startRequest reserve s p hasMaf false
    | .eWaitRevoke => .error .invalidMAFState

def handleRequest (reserve : Int) (s : Policy cfg) (p : ProcessEntry) : Handled cfg :=
  doRequest reserve s p false

def handleWakeMAF (reserve : Int) (s : Policy cfg) (p : ProcessEntry) : Handled cfg :=
  doRequest reserve s p true

/-- Evictions come in with the requests; nothing may come in as a snoop. -/
def handleSnoop (_ : Policy cfg) (_ : ProcessEntry) : Handled cfg := .error .unexpectedSnoop

end Policy

end nCMPCache
