import Flexus.UFetch.SimCache
import Flexus.CmpCache.Message

/-!
# The fetch unit

Addresses wait in a queue for each thread. Each cycle some are taken from it: their lines are
looked up in the instruction cache, a translation is requested, and they enter the bundle
without an opcode. The replies to the translations bring the opcodes, and the front of the
bundle leaves when it has them.
-/

namespace nuFetch

open nCMPCache (MemoryMessage MemoryMessageType DestinationType)

/-- An address to fetch, with the state of the branch predictor that goes with it. -/
structure FetchAddr where
  theAddress : Nat
  theBPState : Nat
  deriving DecidableEq, Repr

/-- The opcode is zero until it is known. -/
structure FetchedOpcode where
  thePC : Nat
  theOpcode : Nat
  theBPState : Nat
  deriving DecidableEq, Repr

structure Translation where
  theID : Nat
  theVaddr : Nat
  deriving DecidableEq, Repr

/-- A message, and where it goes if that was said. -/
structure MemoryTransport where
  msg : MemoryMessage
  dest : Option DestinationType
  deriving DecidableEq, Repr

/-- The assertions of the fetch unit, and taking an address from an empty queue. -/
inductive FetchFault where
  | emptyFAQ | noBundleEntry | failedTranslation | secondMiss | zeroAddress
  | evictOutstanding | evictNotFound | noDestination | unhandledMessage
  deriving DecidableEq, Repr

structure Thread where
  theFAQ : List FetchAddr := []
  theIcacheMiss : Option Nat := none
  theIcachePrefetch : Option Nat := none
  theLastPrefetchVTagSet : Option Nat := none
  deriving DecidableEq, Repr

structure UFetch (c : FetchConfig) where
  threads : Nat → Thread
  theBundle : List FetchedOpcode
  TranslationsFromTLB : List Translation
  translationID : Nat
  theI : SimCache c
  theEvictSet : Finset Nat
  theLastVTagSet : Nat
  theLastPhysical : Nat
  theMissQueue : List MemoryTransport
  theSnoopQueue : List MemoryTransport
  theReplyQueue : List MemoryTransport

/-- What leaves the fetch unit in a step. -/
structure Sent where
  bundle : List FetchedOpcode := []
  misses : List MemoryTransport := []
  snoops : List MemoryTransport := []
  replies : List MemoryTransport := []

/-- What happens to the fetch unit. A reply to a translation says which opcode was read at its
    address, or nothing for a page fault. A cycle comes with the room in the queues around the
    unit and with the translations of the processor. -/
inductive Event where
  | FetchAddressIn (anIndex : Nat) (theFetches : List FetchAddr)
  | SquashIn (anIndex : Nat)
  | ResyncIn
  | iTranslationIn (theID : Nat) (instruction : Option Nat)
  | FetchMissIn (aTransport : MemoryTransport)
  | uFetchDrive (td available_fiq : Nat) (quiescing : Bool) (translateVirtualAddress : Nat → Nat → Nat)
      (missRoom snoopRoom replyRoom : Nat)

namespace UFetch

variable {c : FetchConfig}

/-- The fetch unit with a given content of the instruction cache. -/
def start (theI : SimCache c) : UFetch c where
  threads := fun _ => {}
  theBundle := []
  TranslationsFromTLB := []
  translationID := 0
  theI := theI
  theEvictSet := ∅
  theLastVTagSet := 0
  theLastPhysical := 0
  theMissQueue := []
  theSnoopQueue := []
  theReplyQueue := []

def modifyThread (s : UFetch c) (i : Nat) (f : Thread → Thread) : UFetch c :=
  { s with threads := Function.update s.threads i (f (s.threads i)) }

/-! ## The instruction cache -/

def lookup (s : UFetch c) (anAddress : Nat) : Bool × UFetch c :=
  ((s.theI.lookup anAddress).1, { s with theI := (s.theI.lookup anAddress).2 })

/-- The address of the block that an insertion displaces, or zero. -/
def insert (s : UFetch c) (anAddress : Nat) : Nat × UFetch c :=
  let (hit, s) := s.lookup anAddress
  if hit then (0, s)
  else ((s.theI.insert anAddress).1, { s with theI := (s.theI.insert anAddress).2 })

def inval (s : UFetch c) (anAddress : Nat) : Bool × UFetch c :=
  ((s.theI.inval anAddress).1, { s with theI := (s.theI.inval anAddress).2 })

/-! ## Requests to memory -/

def fetchMessage (anAddress : Nat) : MemoryTransport where
  msg := { type := .FetchReq, address := anAddress, reqSize := 64 }
  dest := none

/-- The message for an evicted block. -/
def evictMessage (anAddress : Nat) : MemoryTransport where
  msg := { type := .EvictClean, address := anAddress, reqSize := 64, ackRequired := true }
  dest := none

def issueFetch (s : UFetch c) (anAddress : Nat) : Except FetchFault (UFetch c) :=
  if anAddress = 0 then .error .zeroAddress
  else .ok { s with theMissQueue := s.theMissQueue ++ [fetchMessage anAddress] }

def issueEvict (s : UFetch c) (anAddress : Nat) : Except FetchFault (UFetch c) :=
  if c.CleanEvict = true ∧ anAddress ≠ 0 then
    if anAddress ∈ s.theEvictSet then .error .evictOutstanding
    else if c.EvictOnSnoop then
      .ok { s with theEvictSet := Insert.insert anAddress s.theEvictSet
                   theSnoopQueue := s.theSnoopQueue ++ [evictMessage anAddress] }
    else
      .ok { s with theEvictSet := Insert.insert anAddress s.theEvictSet
                   theMissQueue := s.theMissQueue ++ [evictMessage anAddress] }
  else .ok s

/-- Answer a message. -/
def queueSnoopMessage (s : UFetch c) (aTransport : MemoryTransport) (aType : MemoryMessageType)
    (aContainsData : Bool) : UFetch c :=
  let msg : MemoryMessage :=
    { type := aType, address := aTransport.msg.address, reqSize := 2 ^ c.theIndexShift
      ackRequiresData := aType = .FetchAck && aContainsData }
  if c.UseReplyChannel then
    { s with theReplyQueue := s.theReplyQueue ++ [{ aTransport with msg := msg }] }
  else { s with theSnoopQueue := s.theSnoopQueue ++ [{ aTransport with msg := msg }] }

/-- The miss or the prefetch of a thread is over when its address is filled. -/
def Thread.filled (addr : Nat) (t : Thread) : Thread :=
  { t with
    theIcacheMiss := if t.theIcacheMiss = some addr then none else t.theIcacheMiss
    theIcachePrefetch := if t.theIcachePrefetch = some addr then none else t.theIcachePrefetch }

/-- Acknowledge a fill if it asks for it. -/
def ackFill (s : UFetch c) (aTransport : MemoryTransport) : Except FetchFault (UFetch c) :=
  if c.SendAcks = true ∧ aTransport.msg.ackRequired = true then
    if aTransport.dest = none then .error .noDestination
    else
      let owned := aTransport.msg.type = .FwdReplyOwned
      .ok (s.queueSnoopMessage { aTransport with dest := some .Directory }
        (if owned then .FetchAckDirty else .FetchAck) (owned || aTransport.msg.ackRequiresData))
  else .ok s

def fill (s : UFetch c) (aTransport : MemoryTransport) : Except FetchFault (UFetch c) :=
  let address := aTransport.msg.address
  let (replacement, s) := s.insert address
  (s.issueEvict replacement).bind fun s =>
    let s := { s with threads := fun i =>
      if i < c.Threads then Thread.filled address (s.threads i) else s.threads i }
    s.ackFill aTransport

/-- Forward a block, or say that it is not here. `had` tells whether the cache had it. -/
def answerForward (s : UFetch c) (aTransport : MemoryTransport) (had : Bool)
    (reply : MemoryMessageType) : Except FetchFault (UFetch c) :=
  if aTransport.dest = none then .error .noDestination
  else if had = true ∨ aTransport.msg.address ∈ s.theEvictSet then
    .ok (s.queueSnoopMessage { aTransport with dest := some .Requester } reply false)
  else .ok (s.queueSnoopMessage { aTransport with dest := some .Directory } .FwdNAck false)

def fetchReply (s : UFetch c) (aTransport : MemoryTransport) : Except FetchFault (UFetch c) :=
  let address := aTransport.msg.address
  match aTransport.msg.type with
  | .FwdReply | .FwdReplyOwned | .MissReply | .FetchReply | .MissReplyWritable => s.fill aTransport
  | .Invalidate =>
    .ok ((s.inval address).2.queueSnoopMessage
      { aTransport with dest := aTransport.dest.map fun _ => .Requester } .InvalidateAck false)
  | .ReturnReq => .ok (s.queueSnoopMessage aTransport .ReturnReply false)
  | .Downgrade => .ok (s.queueSnoopMessage aTransport .DowngradeAck false)
  | .ReadFwd | .FetchFwd =>
    (s.lookup address).2.answerForward aTransport (s.lookup address).1 .FwdReply
  | .WriteFwd =>
    (s.inval address).2.answerForward aTransport (s.inval address).1 .FwdReplyWritable
  | .BackInvalidate =>
    if aTransport.dest = none then .error .noDestination
    else .ok ((s.inval address).2.queueSnoopMessage
      { aTransport with dest := some .Directory } .InvalidateAck false)
  | .EvictAck =>
    if address ∈ s.theEvictSet then .ok { s with theEvictSet := s.theEvictSet.erase address }
    else .error .evictNotFound
  | _ => .error .unhandledMessage

/-- The messages that the miss port takes. A fetch of a block that is being evicted holds up
    those behind it. -/
def takeMisses (c : FetchConfig) (theEvictSet : Finset Nat) : Nat → List MemoryTransport →
    List MemoryTransport × List MemoryTransport
  | 0, queue => ([], queue)
  | _ + 1, [] => ([], [])
  | room + 1, first :: queue =>
    if first.msg.isEvictType = false ∧ c.blockAddr first.msg.address ∈ theEvictSet then
      ([], first :: queue)
    else
      (first :: (takeMisses c theEvictSet room queue).1, (takeMisses c theEvictSet room queue).2)

def sendMisses (s : UFetch c) (missRoom snoopRoom replyRoom : Nat) : UFetch c × Sent :=
  let (misses, left) := takeMisses c s.theEvictSet missRoom s.theMissQueue
  let replyRoom := if c.UseReplyChannel then replyRoom else 0
  ({ s with
      theMissQueue := left
      theSnoopQueue := s.theSnoopQueue.drop snoopRoom
      theReplyQueue := s.theReplyQueue.drop replyRoom },
    { misses := misses
      snoops := s.theSnoopQueue.take snoopRoom
      replies := s.theReplyQueue.take replyRoom })

/-! ## Looking up the lines -/

section Lines

variable (translateVirtualAddress : Nat → Nat → Nat)

def prefetchNext (s : UFetch c) (anIndex : Nat) : Except FetchFault (UFetch c) :=
  if c.MissQueueSize ≤ s.theMissQueue.length then .ok s
  else
    match (s.threads anIndex).theLastPrefetchVTagSet with
    | none => .ok s
    | some last =>
      if c.PrefetchEnabled then
        let tagset := last + 1
        let paddr := translateVirtualAddress anIndex (c.addrOf tagset)
        if paddr = 0 then
          .ok (s.modifyThread anIndex fun t => { t with theLastPrefetchVTagSet := none })
        else
          let (hit, s) := s.lookup paddr
          if hit then .ok (s.modifyThread anIndex fun t => { t with theLastPrefetchVTagSet := none })
          else
            (s.modifyThread anIndex fun t =>
              { t with theLastPrefetchVTagSet := some tagset, theIcachePrefetch := some paddr }).issueFetch paddr
      else .ok s

/-- A miss asks for the line, unless it is being prefetched. -/
def icacheMiss (s : UFetch c) (anIndex tagset paddr : Nat) : Except FetchFault (UFetch c) :=
  if (s.threads anIndex).theIcacheMiss ≠ none then .error .secondMiss
  else
    let missed := c.blockAddr paddr
    let prefetched := (s.threads anIndex).theIcachePrefetch = some missed
    let s := s.modifyThread anIndex fun t =>
      { t with theIcacheMiss := some missed, theIcachePrefetch := none }
    if prefetched then s.prefetchNext translateVirtualAddress anIndex
    else (s.issueFetch missed).bind fun s =>
      (s.modifyThread anIndex fun t =>
        { t with theLastPrefetchVTagSet := some tagset }).prefetchNext translateVirtualAddress anIndex

/-- The access to the array. A hit on the line that was prefetched last prefetches the next. -/
def icacheAccess (s : UFetch c) (anIndex tagset paddr : Nat) : Except FetchFault (Bool × UFetch c) :=
  let (hit, s) := s.lookup paddr
  if hit then
    if (s.threads anIndex).theLastPrefetchVTagSet = some tagset then
      (s.prefetchNext translateVirtualAddress anIndex).map fun s => (true, s)
    else .ok (true, s)
  else (s.icacheMiss translateVirtualAddress anIndex tagset paddr).map fun s => (false, s)

/-- The translation of the line that was looked up last is kept. A line without one counts as
    a hit. -/
def icacheLookup (s : UFetch c) (anIndex vaddr : Nat) : Except FetchFault (Bool × UFetch c) :=
  let tagset := c.keyOf vaddr
  let known := tagset = s.theLastVTagSet
  let paddr := if known then s.theLastPhysical else translateVirtualAddress anIndex vaddr
  if paddr = 0 then
    if known then .ok (true, s) else .error .failedTranslation
  else
    let s := if known then s else { s with theLastPhysical := paddr, theLastVTagSet := tagset }
    s.icacheAccess translateVirtualAddress anIndex tagset paddr

/-! ## Taking addresses -/

def sendFetchRequest (s : UFetch c) (anAddress : Nat) : UFetch c :=
  { s with
    TranslationsFromTLB := s.TranslationsFromTLB ++ [{ theID := s.translationID, theVaddr := anAddress }]
    translationID := s.translationID + 1 }

/-- The element of the bundle for an address. -/
def FetchAddr.opened (a : FetchAddr) : FetchedOpcode where
  thePC := a.theAddress
  theOpcode := 0
  theBPState := a.theBPState

/-- Take an address from the queue to the bundle. -/
def takeAddress (s : UFetch c) (anIndex : Nat) (fetch_addr : FetchAddr) : UFetch c :=
  let s := s.sendFetchRequest fetch_addr.theAddress
  { s.modifyThread anIndex fun t => { t with theFAQ := t.theFAQ.tail } with
    theBundle := s.theBundle ++ [FetchAddr.opened fetch_addr] }

/-- The loop over the addresses of a cycle, with those that may still be taken and the lines
    that are available. -/
def fetchLoop (anIndex : Nat) (quiescing : Bool) :
    Nat → List Nat → UFetch c → Except FetchFault (UFetch c)
  | 0, _, s => .ok s
  | remaining_fetch + 1, available_lines, s =>
    match (s.threads anIndex).theFAQ with
    | [] => if quiescing then .error .emptyFAQ else .ok s
    | fetch_addr :: _ =>
      let block_addr := c.blockAddr fetch_addr.theAddress
      if block_addr ∈ available_lines then
        fetchLoop anIndex quiescing remaining_fetch available_lines (s.takeAddress anIndex fetch_addr)
      else if c.MaxFetchLines ≤ available_lines.length then .ok s
      else if c.PerfectICache then
        fetchLoop anIndex quiescing remaining_fetch (block_addr :: available_lines)
          (s.takeAddress anIndex fetch_addr)
      else
        (s.icacheLookup translateVirtualAddress anIndex block_addr).bind fun (hit, s) =>
          if hit then
            fetchLoop anIndex quiescing remaining_fetch (block_addr :: available_lines)
              (s.takeAddress anIndex fetch_addr)
          else .ok s

/-- The front of the bundle leaves as far as its opcodes are known. -/
def processBundle (s : UFetch c) : UFetch c × List FetchedOpcode :=
  ({ s with theBundle := s.theBundle.dropWhile fun e => e.theOpcode != 0 },
    s.theBundle.takeWhile fun e => e.theOpcode != 0)

def doFetch (s : UFetch c) (anIndex available_fiq : Nat) (quiescing : Bool) :
    Except FetchFault (UFetch c × List FetchedOpcode) :=
  if (s.threads anIndex).theIcacheMiss ≠ none then .ok (s, [])
  else if s.theBundle.length < c.MissQueueSize ∧ 0 < available_fiq ∧
      ((s.threads anIndex).theFAQ ≠ [] ∨ quiescing = true) then
    (fetchLoop translateVirtualAddress anIndex quiescing (min available_fiq c.MaxFetchInstructions) [] s).map
      processBundle
  else .ok s.processBundle

end Lines

/-! ## Opcodes -/

/-- Give its opcode to the first element at an address. -/
def updateOpcode (anAddress anOpcode : Nat) : List FetchedOpcode → Option (List FetchedOpcode)
  | [] => none
  | e :: rest =>
    if e.thePC = anAddress then some ({ e with theOpcode := anOpcode } :: rest)
    else (updateOpcode anAddress anOpcode rest).map (e :: ·)

/-- The opcode of an instruction is never zero. A page fault has an opcode of its own. -/
def opcodeOf : Option Nat → Nat
  | some opcode => if opcode = 0 then 1 else opcode
  | none => 1

def getFetchResponse (s : UFetch c) (tr : Translation) (instruction : Option Nat) :
    Except FetchFault (UFetch c) :=
  match updateOpcode tr.theVaddr (opcodeOf instruction) s.theBundle with
  | some bundle =>
    .ok { s with theBundle := bundle, TranslationsFromTLB := s.TranslationsFromTLB.erase tr }
  | none => .error .noBundleEntry

def pushTranslation (s : UFetch c) (theID : Nat) (instruction : Option Nat) :
    Except FetchFault (UFetch c) :=
  match s.TranslationsFromTLB.find? fun tr => tr.theID == theID with
  | some tr => s.getFetchResponse tr instruction
  | none => .ok s

/-! ## Steps -/

def squash (s : UFetch c) (anIndex : Nat) : UFetch c :=
  { s.modifyThread anIndex fun _ => { theLastPrefetchVTagSet := some 0 } with
    theBundle := [], TranslationsFromTLB := [] }

def resync (s : UFetch c) : UFetch c := { s with theBundle := [], TranslationsFromTLB := [] }

def drive (s : UFetch c) (td available_fiq : Nat) (quiescing : Bool)
    (translateVirtualAddress : Nat → Nat → Nat) (missRoom snoopRoom replyRoom : Nat) :
    Except FetchFault (UFetch c × Sent) :=
  (s.doFetch translateVirtualAddress td available_fiq quiescing).map fun (s, bundle) =>
    let (s, sent) := s.sendMisses missRoom snoopRoom replyRoom
    (s, { sent with bundle := bundle })

def step (s : UFetch c) : Event → Except FetchFault (UFetch c × Sent)
  | .FetchAddressIn anIndex theFetches =>
    .ok (s.modifyThread anIndex fun t => { t with theFAQ := t.theFAQ ++ theFetches }, {})
  | .SquashIn anIndex => .ok (s.squash anIndex, {})
  | .ResyncIn => .ok (s.resync, {})
  | .iTranslationIn theID instruction => (s.pushTranslation theID instruction).map fun s => (s, {})
  | .FetchMissIn aTransport => (s.fetchReply aTransport).map fun s => (s, {})
  | .uFetchDrive td available_fiq quiescing translateVirtualAddress missRoom snoopRoom replyRoom =>
    s.drive td available_fiq quiescing translateVirtualAddress missRoom snoopRoom replyRoom

end UFetch

end nuFetch
