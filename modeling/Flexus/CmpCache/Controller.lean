import Flexus.CmpCache.Reply
import Flexus.Lib.Runs

/-!
# The controller

`CMPCacheController` takes messages from its input queues when the resources they may
need are free, reserves these, and moves the message as a process through three
pipelines: the handler of the policy runs at the end of the first, the process is
finalized when it leaves the second or the third. When a pipeline is ready is left
open here: each scheduling decision and each advance of a pipeline is an event.
-/

namespace nCMPCache

/-- An output queue. The counters are 32-bit and the reservations include the
    messages in the queue. -/
structure MessageQueue where
  theQueue : List MemoryTransport
  theSize : Nat
  theCurrentUsage : Nat
  theCurrentReserve : Nat
  deriving DecidableEq, Repr

namespace MessageQueue

def create (aSize : Nat) : MessageQueue := ⟨[], aSize, 0, 0⟩

def hasSpace (q : MessageQueue) (msgs : Nat) : Bool := q.theCurrentReserve + msgs ≤ q.theSize

/-- The counters allow what was just done to them. -/
def check (q : MessageQueue) (f : Fault) : Except Fault MessageQueue :=
  if q.theCurrentUsage ≤ q.theCurrentReserve ∧ q.theCurrentReserve ≤ q.theSize then .ok q else .error f

def reserve (q : MessageQueue) (n : Nat) : Except Fault MessageQueue :=
  check { q with theCurrentReserve := (q.theCurrentReserve + n) % 2 ^ 32 } .reservationOverflow

/-- Only the lower bound is asserted here. -/
def unreserve (q : MessageQueue) (n : Nat) : Except Fault MessageQueue :=
  if q.theCurrentUsage ≤ (q.theCurrentReserve + (2 ^ 32 - n)) % 2 ^ 32 then
    .ok { q with theCurrentReserve := (q.theCurrentReserve + (2 ^ 32 - n)) % 2 ^ 32 }
  else .error .reservationUnderflow

def enqueue (q : MessageQueue) (t : MemoryTransport) : Except Fault MessageQueue :=
  check
    { q with
      theQueue := q.theQueue ++ [t]
      theCurrentUsage := (q.theCurrentUsage + 1) % 2 ^ 32
      theCurrentReserve := (q.theCurrentReserve + 1) % 2 ^ 32 } .reservationOverflow

/-- The network takes the oldest message. -/
def dequeue (q : MessageQueue) : MessageQueue :=
  match q.theQueue with
  | [] => q
  | _ :: rest =>
    { q with
      theQueue := rest
      theCurrentUsage := q.theCurrentUsage - 1
      theCurrentReserve := q.theCurrentReserve - 1 }

end MessageQueue

/-- The controller. The reservations of the miss address file and of the two evict
    buffers are counted here; the program counts them in these classes. -/
structure Controller (cfg : CMPCacheInfo) where
  thePolicy : Policy cfg
  mafReserve : Int := 0
  dirEBReserve : Int := 0
  cacheEBReserve : Int := 0
  theMAFPipeline : List ProcessEntry := []
  theDirTagPipeline : List ProcessEntry := []
  theDataPipeline : List ProcessEntry := []
  RequestOut : MessageQueue
  SnoopOut : MessageQueue
  ReplyOut : MessageQueue
  theIdleWorkScheduled : Bool := false

/-- A process with the controller it holds reservations of. -/
abbrev Held (cfg : CMPCacheInfo) := Controller cfg × ProcessEntry

namespace Controller

variable {cfg : CMPCacheInfo}

def create (cfg : CMPCacheInfo) : Controller cfg where
  thePolicy := .create cfg
  RequestOut := .create cfg.theQueueSize
  SnoopOut := .create cfg.theQueueSize
  ReplyOut := .create cfg.theQueueSize

def theMaxSnoopsPerRequest : Nat := 2

/-! ## Reservations -/

def reserveSnoopOut (n : Nat) (h : Held cfg) : Except Fault (Held cfg) := do
  let q ← h.1.SnoopOut.reserve n
  pure ({ h.1 with SnoopOut := q }, { h.2 with snoopOutReserved := (h.2.snoopOutReserved + n) % 256 })

def reserveReplyOut (n : Nat) (h : Held cfg) : Except Fault (Held cfg) := do
  let q ← h.1.ReplyOut.reserve n
  pure ({ h.1 with ReplyOut := q }, { h.2 with replyOutReserved := (h.2.replyOutReserved + n) % 256 })

def reserveRequestOut (n : Nat) (h : Held cfg) : Except Fault (Held cfg) := do
  let q ← h.1.RequestOut.reserve n
  pure ({ h.1 with RequestOut := q }, { h.2 with reqOutReserved := (h.2.reqOutReserved + n) % 256 })

def reserveCacheEB (n : Int) (h : Held cfg) : Except Fault (Held cfg) :=
  if h.1.thePolicy.theCacheEvictBuffer.theCurSize + (h.1.cacheEBReserve + n) ≤
      h.1.thePolicy.theCacheEvictBuffer.theSize then
    .ok ({ h.1 with cacheEBReserve := h.1.cacheEBReserve + n },
      { h.2 with cacheEBReserved := h.2.cacheEBReserved + n })
  else .error .reservationOverflow

def reserveDirEB (n : Int) (h : Held cfg) : Except Fault (Held cfg) :=
  if h.1.thePolicy.theDirEvictBuffer.theCurSize + (h.1.dirEBReserve + n) ≤
      h.1.thePolicy.theDirEvictBuffer.theSize then
    .ok ({ h.1 with dirEBReserve := h.1.dirEBReserve + n },
      { h.2 with dirEBReserved := h.2.dirEBReserved + n })
  else .error .reservationOverflow

def reserveEB (n : Int) (h : Held cfg) : Except Fault (Held cfg) :=
  reserveDirEB n h >>= reserveCacheEB n

def reserveMAF (h : Held cfg) : Except Fault (Held cfg) :=
  if h.1.thePolicy.theMAF.full h.1.mafReserve then .error .reservationOverflow
  else .ok ({ h.1 with mafReserve := h.1.mafReserve + 1 }, { h.2 with mafReserved := true })

/-- Amounts are bytes, so a process with too many snoops asks for a huge one. -/
def unreserveSnoopOut (n : Nat) (h : Held cfg) : Except Fault (Held cfg) :=
  if n = 0 then .ok h
  else if h.2.snoopOutReserved < n then .error .reservationUnderflow
  else do
    let q ← h.1.SnoopOut.unreserve n
    pure ({ h.1 with SnoopOut := q }, { h.2 with snoopOutReserved := h.2.snoopOutReserved - n })

def unreserveReplyOut (n : Nat) (h : Held cfg) : Except Fault (Held cfg) := do
  let q ← h.1.ReplyOut.unreserve n
  pure ({ h.1 with ReplyOut := q },
    { h.2 with replyOutReserved := (h.2.replyOutReserved + (256 - n)) % 256 })

def unreserveRequestOut (n : Nat) (h : Held cfg) : Except Fault (Held cfg) := do
  let q ← h.1.RequestOut.unreserve n
  pure ({ h.1 with RequestOut := q },
    { h.2 with reqOutReserved := (h.2.reqOutReserved + (256 - n)) % 256 })

def unreserveEB (h : Held cfg) : Except Fault (Held cfg) :=
  if h.1.dirEBReserve < h.2.dirEBReserved ∨ h.1.cacheEBReserve < h.2.cacheEBReserved then
    .error .reservationUnderflow
  else .ok ({ h.1 with
      dirEBReserve := h.1.dirEBReserve - h.2.dirEBReserved
      cacheEBReserve := h.1.cacheEBReserve - h.2.cacheEBReserved },
    { h.2 with dirEBReserved := 0, cacheEBReserved := 0 })

def unreserveMAF (h : Held cfg) : Except Fault (Held cfg) :=
  if h.1.mafReserve ≤ 0 then .error .reservationUnderflow
  else .ok ({ h.1 with mafReserve := h.1.mafReserve - 1 }, { h.2 with mafReserved := false })

/-- Do something to the held resources, or nothing. -/
def onlyIf (b : Bool) (f : Held cfg → Except Fault (Held cfg)) (h : Held cfg) :
    Except Fault (Held cfg) :=
  if b then f h else pure h

/-- The snoop slots the process does not need for the messages it has. -/
def unusedSnoops (p : ProcessEntry) : Nat :=
  (theMaxSnoopsPerRequest + (256 - p.snoopTransports.length % 256)) % 256

/-! ## Scheduling -/

def CacheEBHasSpace (c : Controller cfg) : Bool := c.thePolicy.CacheEBHasSpace c.cacheEBReserve

def EBHasSpace (c : Controller cfg) : Bool :=
  !c.thePolicy.theDirEvictBuffer.full c.dirEBReserve && c.CacheEBHasSpace

/-- Put a process into the first pipeline. -/
def enqueue (h : Held cfg) : Controller cfg :=
  { h.1 with theMAFPipeline := h.1.theMAFPipeline ++ [h.2] }

/-- Start with the policy in a new state. -/
def withPolicy (c : Controller cfg) (s : Policy cfg) : Controller cfg := { c with thePolicy := s }

def scheduleWakeMAF (c : Controller cfg) : Except Fault (Controller cfg) :=
  if c.thePolicy.theMAF.hasWakingEntry && c.SnoopOut.hasSpace theMaxSnoopsPerRequest &&
      c.ReplyOut.hasSpace 1 && c.RequestOut.hasSpace 1 && c.EBHasSpace then do
    let (m, e) ← c.thePolicy.theMAF.getWakingMAF
    let h := (c.withPolicy { c.thePolicy with theMAF := m },
      { type := .eProcWakeMAF, maf := some e.stamp, transport := e.transport })
    let h ← reserveSnoopOut theMaxSnoopsPerRequest h
    let h ← reserveReplyOut 1 h
    let h ← reserveRequestOut 1 h
    let h ← reserveEB 1 h
    pure (enqueue h)
  else pure c

def scheduleCacheEvict (c : Controller cfg) : Except Fault (Controller cfg) :=
  if !c.theIdleWorkScheduled && !c.thePolicy.theCacheEvictBuffer.freeSlotsPending c.cacheEBReserve &&
      0 < c.thePolicy.theCacheEvictBuffer.theCurSize && c.SnoopOut.hasSpace 1 then do
    let (s, t) ← c.thePolicy.getCacheEvictTransport
    let h ← reserveSnoopOut 1 (c.withPolicy s, { type := .eProcCacheEvict, transport := t })
    pure (enqueue h)
  else pure c

def scheduleDirEvict (c : Controller cfg) : Except Fault (Controller cfg) :=
  if !c.theIdleWorkScheduled && !c.thePolicy.theDirEvictBuffer.freeSlotsPending c.dirEBReserve &&
      c.thePolicy.theDirEvictBuffer.idleWorkReady && c.CacheEBHasSpace &&
      c.SnoopOut.hasSpace 1 then do
    let (s, t) := c.thePolicy.getDirEvictTransport
    let h ← reserveSnoopOut 1 (c.withPolicy s, { type := .eProcDirEvict, transport := t })
    let h ← reserveCacheEB 1 h
    pure (enqueue h)
  else pure c

def scheduleReply (c : Controller cfg) (t : MemoryTransport) : Except Fault (Controller cfg) :=
  if c.SnoopOut.hasSpace 1 && c.ReplyOut.hasSpace 1 then do
    let h ← reserveSnoopOut 1 (c, { type := .eProcReply, transport := t })
    let h ← reserveReplyOut 1 h
    pure (enqueue h)
  else pure c

def scheduleSnoop (c : Controller cfg) (t : MemoryTransport) : Except Fault (Controller cfg) :=
  if c.SnoopOut.hasSpace 2 && c.ReplyOut.hasSpace 1 && !c.thePolicy.theMAF.full c.mafReserve then do
    let h ← reserveSnoopOut 2 (c, { type := .eProcSnoop, transport := t })
    let h ← reserveReplyOut 1 h
    let h ← reserveMAF h
    pure (enqueue h)
  else pure c

def scheduleRequest (c : Controller cfg) (t : MemoryTransport) : Except Fault (Controller cfg) :=
  if c.SnoopOut.hasSpace theMaxSnoopsPerRequest && c.ReplyOut.hasSpace 1 && c.RequestOut.hasSpace 1 &&
      c.EBHasSpace && !c.thePolicy.theMAF.full c.mafReserve then do
    let h ← reserveSnoopOut theMaxSnoopsPerRequest (c, { type := .eProcRequest, transport := t })
    let h ← reserveReplyOut 1 h
    let h ← reserveRequestOut 1 h
    let h ← reserveEB 1 h
    let h ← reserveMAF h
    pure (enqueue h)
  else pure c

def scheduleIdleWork (c : Controller cfg) : Except Fault (Controller cfg) :=
  if c.CacheEBHasSpace && c.thePolicy.hasIdleWorkAvailable && c.SnoopOut.hasSpace 1 &&
      !c.theIdleWorkScheduled then do
    let (s, t) := c.thePolicy.getIdleWorkTransport
    let h ← reserveSnoopOut 1 (c.withPolicy s, { type := .eProcIdleWork, transport := t })
    let h ← reserveCacheEB 1 h
    pure { enqueue h with theIdleWorkScheduled := true }
  else pure c

/-! ## Finalizing -/

def sendSnoops : List MemoryTransport → Controller cfg → Except Fault (Controller cfg)
  | [], c => pure c
  | t :: ts, c => do
    let q ← c.SnoopOut.enqueue t
    sendSnoops ts { c with SnoopOut := q }

/-- Send the snoops of a process. -/
def emitSnoops (h : Held cfg) : Except Fault (Held cfg) :=
  if h.2.snoopTransports.isEmpty then .error .missingSnoop
  else do
    let h ← unreserveSnoopOut (h.2.snoopTransports.length % 256) h
    let c ← sendSnoops h.2.snoopTransports h.1
    pure (c, { h.2 with snoopTransports := [] })

/-- Send the reply of a process. -/
def emitReply (h : Held cfg) : Except Fault (Held cfg) := do
  let h ← unreserveReplyOut 1 h
  match h.2.replyTransport with
  | none => .error .missingReply
  | some t => do
    let q ← h.1.ReplyOut.enqueue t
    pure ({ h.1 with ReplyOut := q }, h.2)

/-- Send the request itself on. -/
def emitRequest (h : Held cfg) : Except Fault (Held cfg) := do
  let h ← unreserveRequestOut 1 h
  let q ← h.1.RequestOut.enqueue h.2.transport
  pure ({ h.1 with RequestOut := q }, h.2)

/-- The messages the action of a process asks for. -/
def emit (h : Held cfg) : Except Fault (Held cfg) :=
  match h.2.action with
  | .eFwdAndWaitAck | .eForward | .eFwdAndWakeEvictMAF => emitSnoops h
  | .eNotifyAndWaitAck | .eFwdAndReply => emitSnoops h >>= emitReply
  | .eReply | .eReplyAndRemoveMAF => emitReply h
  | .eFwdRequest => emitRequest h
  | .eWakeEvictMAF | .eRemoveMAF | .eRemoveAndWakeMAF | .eStall | .eNoAction => pure h

/-- The entry a process belongs to. -/
def mafOf (s : Policy cfg) (p : ProcessEntry) : Except Fault MAFEntry :=
  match p.maf.bind s.theMAF.get? with
  | some e => .ok e
  | none => .error .danglingMAF

/-- What the action of a process does to the miss address file. -/
def finalizeMAF (s : Policy cfg) (p : ProcessEntry) : Except Fault (Policy cfg) :=
  match p.action with
  | .eFwdAndWakeEvictMAF | .eWakeEvictMAF => do
    let e ← mafOf s p
    pure { s with theMAF := s.theMAF.wakeAfterEvict e }
  | .eReplyAndRemoveMAF | .eRemoveAndWakeMAF => do
    let e ← mafOf s p
    pure ({ s with theMAF := s.theMAF.remove e.stamp }.wakeMAFs p.transport.msg.address)
  | .eRemoveMAF => do
    let e ← mafOf s p
    pure { s with theMAF := s.theMAF.remove e.stamp }
  | _ => pure s

def finalizeProcess (h : Held cfg) : Except Fault (Held cfg) := do
  let h ← emit h
  let s ← finalizeMAF h.1.thePolicy h.2
  if !h.2.snoopTransports.isEmpty then .error .snoopsLeft
  else if !h.2.noReservations then .error .reservationsLeft
  else .ok (h.1.withPolicy s, h.2)

/-! ## Running the handlers -/

/-- Put a process into the second pipeline: every process of this policy needs one
    lookup of the directory and the tags. -/
def enqueueLookup (h : Held cfg) : Controller cfg :=
  { h.1 with theDirTagPipeline := h.1.theDirTagPipeline ++ [h.2] }

/-- Which of the reply and request slots of a request are not needed for an action. -/
def requestReleases : ProcessAction → Option (Bool × Bool)
  | .eFwdAndWaitAck | .eStall | .eFwdAndWakeEvictMAF | .eForward | .eWakeEvictMAF | .eNoAction =>
    some (true, true)
  | .eNotifyAndWaitAck | .eReply | .eReplyAndRemoveMAF | .eFwdAndReply => some (false, true)
  | .eFwdRequest => some (true, false)
  | .eRemoveMAF | .eRemoveAndWakeMAF => none

/-- The same for a woken request. An eviction that is woken and ends by waking another
    request has no case of its own. -/
def wakeMAFReleases : ProcessAction → Option (Bool × Bool)
  | .eFwdAndWaitAck | .eStall | .eNoAction | .eFwdAndWakeEvictMAF | .eForward => some (true, true)
  | .eNotifyAndWaitAck | .eReply | .eReplyAndRemoveMAF => some (false, true)
  | .eWakeEvictMAF | .eFwdRequest | .eFwdAndReply | .eRemoveMAF | .eRemoveAndWakeMAF => none

/-- Which of the snoop slot, the reply slot and the evict buffers a reply gives back. -/
def replyReleases : ProcessAction → Option (Bool × Bool × Bool)
  | .eForward | .eFwdAndWakeEvictMAF => some (false, true, false)
  | .eReply | .eReplyAndRemoveMAF => some (true, false, true)
  | .eRemoveAndWakeMAF | .eRemoveMAF | .eWakeEvictMAF | .eNoAction => some (true, true, true)
  | .eFwdAndWaitAck | .eNotifyAndWaitAck | .eFwdRequest | .eFwdAndReply | .eStall => none

def releaseRequest (h : Held cfg) : Except Fault (Held cfg) :=
  match requestReleases h.2.action with
  | none => .error .unexpectedAction
  | some (reply, request) => do
    let h ← unreserveSnoopOut (unusedSnoops h.2) h
    let h ← onlyIf reply (unreserveReplyOut 1) h
    let h ← onlyIf request (unreserveRequestOut 1) h
    let h ← unreserveEB h
    unreserveMAF h

def releaseWakeMAF (h : Held cfg) : Except Fault (Held cfg) :=
  match wakeMAFReleases h.2.action with
  | none => .error .unexpectedAction
  | some (reply, request) => do
    let h ← unreserveSnoopOut (unusedSnoops h.2) h
    let h ← onlyIf reply (unreserveReplyOut 1) h
    let h ← onlyIf request (unreserveRequestOut 1) h
    unreserveEB h

def releaseReply (h : Held cfg) : Except Fault (Held cfg) :=
  match replyReleases h.2.action with
  | none => .error .unexpectedAction
  | some (snoop, reply, eb) => do
    let h ← onlyIf snoop (unreserveSnoopOut 1) h
    let h ← onlyIf reply (unreserveReplyOut 1) h
    onlyIf eb unreserveEB h

def runRequestProcess (c : Controller cfg) (p : ProcessEntry) : Except Fault (Controller cfg) := do
  let (s, p) ← Policy.handleRequest c.cacheEBReserve c.thePolicy p
  let h ← releaseRequest (c.withPolicy s, p)
  pure (enqueueLookup h)

/-- A woken request that turns out to be redundant is dropped at once. -/
def dropRedundant (s : Policy cfg) (p : ProcessEntry) : Handled cfg :=
  if p.action = .eRemoveMAF then do
    let e ← mafOf s p
    pure ({ s with theMAF := s.theMAF.remove e.stamp }, { p with action := .eNoAction })
  else pure (s, p)

/-- A process and its entry share one transport, so the process sees what happened to
    it since it was scheduled. -/
def withEntryTransport (s : Policy cfg) (p : ProcessEntry) : ProcessEntry :=
  match p.maf.bind s.theMAF.get? with
  | some e => { p with transport := e.transport }
  | none => p

def runWakeMAFProcess (c : Controller cfg) (p : ProcessEntry) : Except Fault (Controller cfg) := do
  let (s, p) ← Policy.handleWakeMAF c.cacheEBReserve c.thePolicy (withEntryTransport c.thePolicy p)
  let (s, p) ← dropRedundant s p
  let h ← releaseWakeMAF (c.withPolicy s, p)
  pure (enqueueLookup h)

def runReplyProcess (c : Controller cfg) (p : ProcessEntry) : Except Fault (Controller cfg) := do
  let (s, p) ← c.thePolicy.handleReply p
  let h ← releaseReply (c.withPolicy s, p)
  pure (enqueueLookup h)

def runSnoopProcess (c : Controller cfg) (p : ProcessEntry) : Except Fault (Controller cfg) := do
  let (s, p) ← c.thePolicy.handleSnoop p
  pure (enqueueLookup (c.withPolicy s, p))

def runCacheEvictProcess (c : Controller cfg) (p : ProcessEntry) : Except Fault (Controller cfg) :=
  let (s, p) := c.thePolicy.handleCacheEvict p
  Prod.fst <$> finalizeProcess (c.withPolicy s, p)

def runDirEvictProcess (c : Controller cfg) (p : ProcessEntry) : Except Fault (Controller cfg) := do
  let (s, p) ← c.thePolicy.handleDirEvict p
  Prod.fst <$> finalizeProcess (c.withPolicy s, p)

def runIdleWorkProcess (c : Controller cfg) (p : ProcessEntry) : Except Fault (Controller cfg) := do
  let (s, p) ← c.thePolicy.handleIdleWork p
  let h ← unreserveEB (c.withPolicy s, p)
  let h ← onlyIf (h.2.action == .eNoAction) (unreserveSnoopOut 1) h
  pure (enqueueLookup ({ h.1 with theIdleWorkScheduled := false }, h.2))

/-! ## The pipelines -/

def advanceMAFPipeline (c : Controller cfg) : Except Fault (Controller cfg) :=
  match c.theMAFPipeline with
  | [] => pure c
  | p :: rest =>
    let c := { c with theMAFPipeline := rest }
    match p.type with
    | .eProcWakeMAF => c.runWakeMAFProcess p
    | .eProcCacheEvict => c.runCacheEvictProcess p
    | .eProcDirEvict => c.runDirEvictProcess p
    | .eProcReply => c.runReplyProcess p
    | .eProcSnoop => c.runSnoopProcess p
    | .eProcRequest => c.runRequestProcess p
    | .eProcIdleWork => c.runIdleWorkProcess p

def advanceDirTagPipeline (c : Controller cfg) : Except Fault (Controller cfg) :=
  match c.theDirTagPipeline with
  | [] => pure c
  | p :: rest => do
    let c := { c with theDirTagPipeline := rest }
    if p.requiresData then
      let (c, p) ← onlyIf p.transmitAfterTag finalizeProcess (c, p)
      pure { c with theDataPipeline := c.theDataPipeline ++ [p] }
    else Prod.fst <$> finalizeProcess (c, p)

def advanceDataPipeline (c : Controller cfg) : Except Fault (Controller cfg) :=
  match c.theDataPipeline with
  | [] => pure c
  | p :: rest => Prod.fst <$> onlyIf (!p.transmitAfterTag) finalizeProcess
      ({ c with theDataPipeline := rest }, p)

/-- What can happen next: a process is scheduled, a pipeline advances, or the network
    takes a message. -/
inductive Event where
  | wakeMAF
  | cacheEvict
  | dirEvict
  | reply (t : MemoryTransport)
  | snoop (t : MemoryTransport)
  | request (t : MemoryTransport)
  | idleWork
  | advanceMAF
  | advanceDirTag
  | advanceData
  | takeSnoop
  | takeReply
  | takeRequest
  deriving DecidableEq, Repr

def step (c : Controller cfg) : Event → Except Fault (Controller cfg)
  | .wakeMAF => c.scheduleWakeMAF
  | .cacheEvict => c.scheduleCacheEvict
  | .dirEvict => c.scheduleDirEvict
  | .reply t => c.scheduleReply t
  | .snoop t => c.scheduleSnoop t
  | .request t => c.scheduleRequest t
  | .idleWork => c.scheduleIdleWork
  | .advanceMAF => c.advanceMAFPipeline
  | .advanceDirTag => c.advanceDirTagPipeline
  | .advanceData => c.advanceDataPipeline
  | .takeSnoop => pure { c with SnoopOut := c.SnoopOut.dequeue }
  | .takeReply => pure { c with ReplyOut := c.ReplyOut.dequeue }
  | .takeRequest => pure { c with RequestOut := c.RequestOut.dequeue }

/-- The states the controller reaches from power-up, whatever arrives and in whatever
    order its pipelines advance. -/
def Reachable (c : Controller cfg) : Prop := Runs.Reaches step Runs.Anything (create cfg) c

/-- The states it reaches through steps that all meet a condition. -/
def ReachableWhile (Meets : Controller cfg → Event → Prop) (c : Controller cfg) : Prop :=
  Runs.Reaches step Meets (create cfg) c

/-- Running a list of events, each of which passes a test, shows a state to be reachable
    through steps that meet the tested condition. -/
theorem exists_reachableWhile {Meets : Controller cfg → Event → Prop} (test : Controller cfg → Event → Bool)
    (htest : ∀ c e, test c e = true → Meets c e) (es : List Event) (P : Controller cfg → Bool)
    (h : (Runs.runWhile step test (create cfg) es).any P = true) :
    ∃ c : Controller cfg, ReachableWhile Meets c ∧ P c = true :=
  Runs.exists_reaches htest h

/-- Running a list of events shows a state to be reachable. -/
theorem exists_reachable (es : List Event) (P : Controller cfg → Bool)
    (h : (Runs.runWhile step (fun _ _ => true) (create cfg) es).any P = true) :
    ∃ c : Controller cfg, Reachable c ∧ P c = true :=
  exists_reachableWhile _ (fun _ _ _ => trivial) es P h

end Controller

end nCMPCache
