import Flexus.Core.Retire
import Flexus.MemQueue.Snoopers

/-!
# The memory unit as a machine

The calls that execute memory instructions, issue, complete, retire and squash them, and the runs
they make.
-/

namespace nuArchARM

/-- The memory unit, with the flags of its entries that forwarding never reads, by sequence
    number. -/
structure MemoryUnit extends CoreImpl where
  theMemorySequenceNum : Nat
  theStoreComplete : List Nat
  theSpeculatedValue : List Nat

namespace memq_t

/-- The entries selected by `p` stay in the queue. -/
def keep (q : memq_t) (p : MemQueueEntry → Bool) : memq_t where
  entries := q.entries.filter p
  ordered := q.ordered.filter p
  aligned e he := q.aligned e (List.mem_of_mem_filter he)
  native e he := q.native e (List.mem_of_mem_filter he)

end memq_t

namespace MemoryUnit

/-- Nothing is in the memory queue. -/
def start (theSpeculativeOrder : Bool) : MemoryUnit where
  theMemQueue := {
    entries := []
    ordered := .nil
    aligned := by simp
    native := by simp }
  thePartialSnoopersOutstanding := 0
  thePartialSnoopLoads := 0
  theSpeculativeOrder := theSpeculativeOrder
  theMemorySequenceNum := 0
  theStoreComplete := []
  theSpeculatedValue := []

/-- The memory unit after a function of the core. -/
def withCore (m : MemoryUnit) (c : CoreImpl) : MemoryUnit := { m with toCoreImpl := c }

def entry (m : MemoryUnit) (s : Nat) : Except CoreFault MemQueueEntry :=
  match m.theMemQueue.find s with
  | none => .error .notInQueue
  | some e => .ok e

/-- An instruction is only executed until it retires. -/
def executing (m : MemoryUnit) (s : Nat) : Except CoreFault MemQueueEntry := do
  let e ← m.entry s
  if e.theQueue ≠ .kLSQ then .error .wrongQueue else pure e

/-! ## The queue -/

/-- `insertLSQ`. Every entry of the load-store queue belongs to an instruction in the reorder
    buffer, which has room for the new one. -/
def insertLSQ (theROBSize : BitVec 32) (m : MemoryUnit) (anOperation : eOperation) (aSize : eSize)
    (aDependance : Bool) : Except CoreFault MemoryUnit :=
  let s := m.theMemorySequenceNum + 1
  if theROBSize.toNat ≤ m.theMemQueue.entries.countP (·.theQueue == .kLSQ) then
    .error .storeBufferFull
  else if hs : ∀ e ∈ m.theMemQueue.entries, e.theSequenceNum < s then
    .ok { m with
      theMemQueue := m.theMemQueue.insertLSQ s hs anOperation aSize aDependance
      theMemorySequenceNum := s }
  else .error .countMismatch

def drop (c : CoreImpl) (s : Nat) : CoreImpl :=
  { c with theMemQueue := c.theMemQueue.keep fun e => e.theSequenceNum != s }

/-- `eraseLSQ`: an entry that waits for a partial snoop is counted no more. -/
def eraseLSQ (S : Surroundings) (m : MemoryUnit) (s : Nat) : MemoryUnit :=
  match m.theMemQueue.find s with
  | none => m
  | some e =>
    let c := breakMSHRLink S m.toCoreImpl e
    let c := if e.thePartialSnoop then
        { c with thePartialSnoopersOutstanding := c.thePartialSnoopersOutstanding - 1 }
      else c
    m.withCore (drop c s)

def clearLSQ (m : MemoryUnit) : MemoryUnit :=
  { m with theMemQueue := m.theMemQueue.keep fun e => e.theQueue != .kLSQ }

/-- `clearSSB()`. -/
def clearSSB (m : MemoryUnit) : MemoryUnit :=
  { m with theMemQueue := m.theMemQueue.keep fun e => e.theQueue != .kSSB }

/-- `clearSSB(aLowestInsnSeq)`. The lower bound of what is erased only moves when an entry
    from `aLowestInsnSeq` on is found: without one, everything is erased. -/
def clearSSBFrom (m : MemoryUnit) (aLowestInsnSeq : Nat) : MemoryUnit :=
  let found := m.theMemQueue.entries.any fun e =>
    e.theQueue == .kSSB && decide (aLowestInsnSeq ≤ e.theSequenceNum)
  { m with theMemQueue := m.theMemQueue.keep fun e =>
      !(e.theQueue == .kSSB && (!found || decide (aLowestInsnSeq ≤ e.theSequenceNum))) }

/-- `resetARM`, with which no partial snoop is outstanding any more. -/
def resetARM (m : MemoryUnit) : MemoryUnit :=
  { m.clearLSQ with thePartialSnoopersOutstanding := 0 }

/-- `cleanMSHRS`, of which only the blocked operations it wakes matter here. -/
def cleanMSHRS (m : MemoryUnit) (woken : List Nat) : MemoryUnit :=
  m.withCore (woken.foldl requestAgain m.toCoreImpl)

def reset (m : MemoryUnit) (woken : List Nat) : MemoryUnit :=
  (m.cleanMSHRS woken).resetARM.clearSSB

/-- `doAbortSpeculation` back to the checkpoint of an instruction. -/
def doAbortSpeculation (m : MemoryUnit) (ckpt_seq_num : Nat) (woken : List Nat) : MemoryUnit :=
  (m.resetARM.cleanMSHRS woken).clearSSBFrom ckpt_seq_num

/-! ## Ports -/

def storeComplete (m : MemoryUnit) (s : Nat) : MemoryUnit :=
  { m with theStoreComplete := m.theStoreComplete ++ [s] }

/-- `requestPort`: only operations that wait for one, and the store half of a speculative atomic. -/
def requestPort (m : MemoryUnit) (s : Nat) : Except CoreFault MemoryUnit :=
  match m.theMemQueue.find s with
  | none => .ok m
  | some e =>
    let waits := e.status = .kAwaitingIssue ∨ e.status = .kAwaitingPort
    let storePart := e.isAtomic ∧ ((s ∉ m.theStoreComplete ∧ e.status = .kComplete) ∨
      e.status = .kAwaitingValue)
    if ¬ waits ∧ ¬ storePart then .ok m
    else if ¬ waits ∧ m.theSpeculativeOrder = false then .error .notSpeculating
    else .ok (m.withCore (nuArchARM.requestPort m.toCoreImpl e))

/-- `issue`: the operation gets a miss register, or waits in one with another load. -/
def issue (m : MemoryUnit) (s : Nat) : Except CoreFault MemoryUnit :=
  match m.theMemQueue.find s with
  | none => .ok m
  | some e =>
    if e.status ≠ .kAwaitingPort ∧ ¬ (e.isAtomic ∧ e.status = .kComplete ∧ s ∉ m.theStoreComplete) then
      .ok m
    else if e.thePaddr = kInvalid then .error .invalidAddress
    else if (e.theOperation = .kRMW ∨ e.theOperation = .kCAS) ∧
        (m.theSpeculativeOrder = false ∨ e.isAbnormalAccess) ∧ e.theQueue ≠ .kLSQ then
      .error .wrongQueue
    else .ok (m.withCore (m.toCoreImpl.update s (fun e => { e with theMSHR := true })
      (fun _ => .of_eq rfl rfl rfl rfl)))

/-- `issuePartialSnoop`. The head of the queue is looked at, and must be there, whenever
    partial snoops are outstanding. -/
def issuePartialSnoop (m : MemoryUnit) : Except CoreFault MemoryUnit :=
  if 0 < m.thePartialSnoopersOutstanding then
    match m.theMemQueue.lsqHead with
    | none => .error .notInQueue
    | some lsq_head =>
      if lsq_head.thePartialSnoop &&
          (lsq_head.status == .kAwaitingIssue || lsq_head.status == .kAwaitingPort) then
        m.requestPort lsq_head.theSequenceNum
      else .ok m
  else .ok m

/-- At the front of the whole queue there is no older store left to apply. -/
def endSnoop (c : CoreImpl) (e : MemQueueEntry) : CoreImpl :=
  if e.thePartialSnoop then
    { c.update e.theSequenceNum (fun e => { e with thePartialSnoop := false })
        (fun _ => .of_eq rfl rfl rfl rfl) with
      thePartialSnoopersOutstanding := c.thePartialSnoopersOutstanding - 1 }
  else c

/-- `issueAtomic`, when the front of the memory queue is the front of the reorder buffer too. -/
def issueAtomic (S : Surroundings) (m : MemoryUnit) : Except CoreFault MemoryUnit :=
  match m.theMemQueue.entries with
  | [] => .ok m
  | e :: _ =>
    if (e.theOperation = .kCAS ∨ e.theOperation = .kRMW) ∧ e.status = .kAwaitingIssue ∧
        e.theValue.isSome then
      let s := e.theSequenceNum
      let m := m.withCore (endSnoop m.toCoreImpl e)
      if e.thePaddr = kInvalid then
        .ok ((m.withCore (S.satisfy s (m.toCoreImpl.update s
          (fun e => { e with theIssued := true, theExtendedValue := some 0#128 })
          (fun _ => .of_eq rfl rfl rfl rfl)))).storeComplete s)
      else m.requestPort s
    else .ok m

/-- `valuePredictAtomic`, for the head of the load-store queue. -/
def valuePredictAtomic (S : Surroundings) (m : MemoryUnit) (aValue : bits) : MemoryUnit :=
  match m.theMemQueue.entries.find? fun e => e.theQueue == .kLSQ with
  | none => m
  | some e =>
    let s := e.theSequenceNum
    if e.isAtomic ∧ e.isAbnormalAccess = false ∧ e.theExtendedValue = none ∧
        e.thePartialSnoop = false ∧ (e.theOperation = .kCAS → e.theCompareValue.isSome) ∧
        e.status = .kIssuedToMemory then
      let c := m.toCoreImpl.update s (fun e => { e with theExtendedValue := some aValue })
        (fun _ => .of_eq rfl rfl rfl rfl)
      { m.withCore (if e.theDependance then S.satisfy s c else c) with
        theSpeculatedValue := m.theSpeculatedValue ++ [s] }
    else m

/-- `checkExtraLatencyTimeout`, when the latency of the abnormal access at the head of the
    load-store queue is over. -/
def checkExtraLatencyTimeout (S : Surroundings) (m : MemoryUnit) : MemoryUnit :=
  match m.theMemQueue.entries.find? fun e => e.theQueue == .kLSQ with
  | none => m
  | some e =>
    let s := e.theSequenceNum
    if e.isAbnormalAccess ∧ e.status = .kAwaitingIssue then
      let c := m.toCoreImpl.update s (fun e => { e with
          theIssued := true
          theValue := some 0#128
          theExtendedValue := some 0#128 }) (fun _ => .of_eq rfl rfl rfl rfl)
      let m := if e.isStore then m.storeComplete s else m
      m.withCore (if e.theDependance then S.satisfy s c else c)
    else m

/-! ## Replies -/

/-- The replies of the memory system. -/
inductive Reply where
  | kLoadReply (theValue theExtendedValue : bits)
  | kAtomicPreloadReply (theValue : bits)
  | kCASReply (theExtendedValue : bits)
  | kRMWReply (theExtendedValue : bits)
  | kStoreReply
  deriving DecidableEq, Repr

/-- The end of `completeLSQ`: the link is gone and the dependants hear of the value. -/
def settleReply (S : Surroundings) (c : CoreImpl) (e : MemQueueEntry) : CoreImpl :=
  let s := e.theSequenceNum
  let c := c.update s (fun e => { e with theMSHR := false }) unlinked_sameKey
  if e.theDependance then S.satisfy s c else c

/-- The load half of an atomic arrives. A predicted value is only compared with it; one that was
    not predicted is replaced, wherever the atomic is by now. -/
def completePreload (S : Surroundings) (m : MemoryUnit) (e : MemQueueEntry) (theValue : bits) :
    Except CoreFault MemoryUnit :=
  let s := e.theSequenceNum
  let confirmed := { m with theSpeculatedValue := m.theSpeculatedValue.filter (· != s) }
  if e.theOperation ≠ .kRMW ∧ e.theOperation ≠ .kCAS then .error .wrongOperation
  else if m.theSpeculativeOrder = false then .error .notSpeculating
  else if s ∈ m.theSpeculatedValue ∧ e.theQueue ≠ .kLSQ then
    match e.theExtendedValue with
    | none => .error .noValue
    | some predicted =>
      let m := if theValue = predicted then confirmed else m
      .ok (m.withCore (settleReply S (finishPartialSnoop m.toCoreImpl s) e))
  else .ok (confirmed.withCore (completeLSQ S m.toCoreImpl s (.kAtomicPreloadReply theValue)))

/-- What a compare-and-swap read from memory. -/
def readByCAS (e : MemQueueEntry) (theExtendedValue : bits) : bits :=
  if e.theCompareValue = some Core.kAlwaysStore then Core.kAlwaysStore else theExtendedValue

/-- A compare-and-swap that was not speculative is complete. When its comparison fails it did not
    write, and forwards what it read. Only abnormal ones are issued so under speculative order. -/
def completeCAS (S : Surroundings) (m : MemoryUnit) (e : MemQueueEntry) (theExtendedValue : bits) :
    Except CoreFault MemoryUnit :=
  let s := e.theSequenceNum
  let read := readByCAS e theExtendedValue
  if e.theOperation ≠ .kCAS ∨ (m.theSpeculativeOrder ∧ e.isAbnormalAccess = false) then
    .error .wrongOperation
  else if e.thePartialSnoop then .error .wrongStatus
  else if e.theCompareValue = none then .error .noValue
  else
    let c := m.toCoreImpl.update s (fun e => { e with theExtendedValue := some read })
      (fun _ => .of_eq rfl rfl rfl rfl)
    let c := if e.theCompareValue ≠ some read then
        doStore S (c.update s (fun e => { e with theValue := some theExtendedValue })
          (fun _ => .of_eq rfl rfl rfl rfl)) s
      else c
    .ok ((m.storeComplete s).withCore (settleReply S c e))

def completeRMW (S : Surroundings) (m : MemoryUnit) (e : MemQueueEntry) (theExtendedValue : bits) :
    Except CoreFault MemoryUnit :=
  let s := e.theSequenceNum
  if e.theOperation ≠ .kRMW ∨ (m.theSpeculativeOrder ∧ e.isAbnormalAccess = false) then
    .error .wrongOperation
  else if e.thePartialSnoop then .error .wrongStatus
  else
    let c := m.toCoreImpl.update s (fun e => { e with theExtendedValue := some theExtendedValue })
      (fun _ => .of_eq rfl rfl rfl rfl)
    .ok ((m.storeComplete s).withCore (settleReply S c e))

/-- A store leaves the store buffer when it is complete. -/
def completeStore (S : Surroundings) (m : MemoryUnit) (e : MemQueueEntry) :
    Except CoreFault MemoryUnit :=
  let s := e.theSequenceNum
  let complete := (m.storeComplete s).withCore (settleReply S m.toCoreImpl e)
  if !e.isStore then .error .wrongOperation
  else if e.theSideEffect then
    (if e.theQueue = .kLSQ then .ok complete else .error .wrongQueue)
  else if e.theQueue = .kSB then .ok (complete.eraseLSQ S s)
  else .error .wrongQueue

/-- `completeLSQ`. A store that waits for a port only completes under relaxed consistency. -/
def complete (S : Surroundings) (m : MemoryUnit) (s : Nat) (aReply : Reply) :
    Except CoreFault MemoryUnit := do
  let e ← m.entry s
  if e.status ≠ .kIssuedToMemory ∧ ¬ (e.status = .kComplete ∧ e.isAtomic) ∧
      e.status ≠ .kAwaitingPort then .error .wrongStatus
  else
    match aReply with
    | .kLoadReply v x =>
      if e.theOperation ≠ .kLoad then .error .wrongOperation
      else .ok (m.withCore (completeLSQ S m.toCoreImpl s (.kLoadReply v x)))
    | .kAtomicPreloadReply v => m.completePreload S e v
    | .kCASReply x => m.completeCAS S e x
    | .kRMWReply x => m.completeRMW S e x
    | .kStoreReply => m.completeStore S e

/-! ## Retirement -/

def moveTo (m : MemoryUnit) (s : Nat) (q : eQueue) : MemoryUnit :=
  m.withCore (m.toCoreImpl.update s (fun e => { e with theQueue := q })
    (fun _ => .of_eq rfl rfl rfl rfl))

def retireAtomic (S : Surroundings) (m : MemoryUnit) (e : MemQueueEntry) :
    Except CoreFault MemoryUnit :=
  let s := e.theSequenceNum
  if e.theExtendedValue = none ∨ (e.theOperation = .kCAS ∧ e.theCompareValue = none) then
    .error .noValue
  else if s ∈ m.theStoreComplete then .ok (m.eraseLSQ S s)
  else if m.theSpeculativeOrder = false then .error .notSpeculating
  else if e.thePaddr = kUnresolved then .error .invalidAddress
  else if e.isAbnormalAccess then .error .abnormalAccess
  else .ok ((m.withCore (m.toCoreImpl.setIssued s false)).moveTo s .kSSB)

/-- A load retires with its value; it stays in the queue when it starts a checkpoint. -/
def retireLoad (S : Surroundings) (m : MemoryUnit) (e : MemQueueEntry) (speculate : Bool) :
    Except CoreFault MemoryUnit :=
  let s := e.theSequenceNum
  if speculate && !e.isAbnormalAccess then
    (if e.theValue = none then .error .noValue else .ok (m.moveTo s .kSSB))
  else .ok (m.eraseLSQ S s)

/-- `retireMem` of the oldest instruction that has not retired. Whether a load or a barrier
    speculates is decided by the consistency model and the checkpoints. -/
def retireMem (S : Surroundings) (m : MemoryUnit) (speculate : Bool) : Except CoreFault MemoryUnit :=
  match m.theMemQueue.entries.find? fun e => e.theQueue == .kLSQ with
  | none => .error .notInQueue
  | some e =>
    let s := e.theSequenceNum
    match e.theOperation with
    | .kCAS | .kRMW => m.retireAtomic S e
    | .kLoad => m.retireLoad S e speculate
    | .kStore => .ok (if e.theAnnulled || e.isAbnormalAccess then m.eraseLSQ S s else m.moveTo s .kSSB)
    | .kMEMBARMarker => .ok (if speculate then m.moveTo s .kSSB else m.eraseLSQ S s)
    | .kCASP => .error .wrongOperation

def commitStore (m : MemoryUnit) (s : Nat) : Except CoreFault MemoryUnit :=
  match m.theMemQueue.find s with
  | none => .ok m
  | some e =>
    if e.theOperation ≠ .kStore then .error .wrongOperation
    else if e.theQueue ≠ .kSSB then .error .wrongQueue
    else if e.theAnnulled || e.isAbnormalAccess then .error .abnormalAccess
    else if e.theValue = none then .error .noValue
    else if e.thePaddr = kInvalid then .error .invalidAddress
    else .ok (m.moveTo s .kSB)

/-- `resolveCheckpoint`, when the checkpoint of the oldest operation holds every permission. -/
def resolveCheckpoint (S : Surroundings) (m : MemoryUnit) : MemoryUnit :=
  match m.theMemQueue.entries with
  | [] => m
  | e :: _ =>
    let s := e.theSequenceNum
    if e.theQueue = .kSSB ∧ s ∉ m.theSpeculatedValue then
      if e.isAtomic then m.moveTo s .kSB
      else if e.isLoad then m.eraseLSQ S s
      else m
    else m

/-! ## Runs -/

inductive Event where
  | insertLSQ (anOperation : eOperation) (aSize : eSize) (aDependance : Bool)
  | resolveVAddr (s : Nat) (known : Bool)
  | resolvePAddr (s : Nat) (anAddr : PhysicalMemoryAddress)
  | pageFault (s : Nat)
  | updateStoreValue (s : Nat) (aValue : bits)
  | updateCASValue (s : Nat) (aValue aCompareValue : bits)
  | annulStoreValue (s : Nat)
  | setLoadValue (s : Nat) (aValue : bits)
  | requestPort (s : Nat)
  | issue (s : Nat)
  | issuePartialSnoop
  | issueAtomic
  | valuePredictAtomic (aValue : bits)
  | checkExtraLatencyTimeout
  | complete (s : Nat) (aReply : Reply)
  | retireMem (speculate : Bool)
  | commitStore (s : Nat)
  | resolveCheckpoint
  | eraseLSQ (s : Nat)
  | reset (woken : List Nat)
  | doAbortSpeculation (ckpt_seq_num : Nat) (woken : List Nat)
  deriving DecidableEq, Repr

/-- An event with the dependants that answer the calls it makes, to the depth they do. -/
structure Call where
  event : Event
  dependants : Dependants
  depth : Nat

/-- The calls that execute an instruction, which has not retired. -/
def execute (S : Surroundings) (m : MemoryUnit) : Event → Except CoreFault MemoryUnit
  | .resolveVAddr s known => do
    let _ ← m.executing s
    pure (m.withCore (nuArchARM.resolveVAddr S m.toCoreImpl s known))
  | .resolvePAddr s anAddr => do
    let e ← m.executing s
    if e.thePaddr = kInvalid then .error .invalidAddress
    else pure (m.withCore (nuArchARM.resolvePAddr S m.toCoreImpl s anAddr))
  | .pageFault s => do
    let _ ← m.executing s
    pure (m.withCore (m.toCoreImpl.update s (fun e => { e with theException := true })
      (fun _ => .of_eq rfl rfl rfl rfl)))
  | .updateStoreValue s aValue => do
    let e ← m.executing s
    if e.theOperation = .kLoad then .error .wrongOperation
    else pure (m.withCore (nuArchARM.updateStoreValue S m.toCoreImpl s aValue none))
  | .updateCASValue s aValue aCompareValue => do
    let e ← m.executing s
    if e.theOperation ≠ .kCAS then .error .wrongOperation
    else pure (m.withCore (nuArchARM.updateCASValue S m.toCoreImpl s aValue aCompareValue))
  | .annulStoreValue s => do
    let e ← m.executing s
    if e.theOperation = .kLoad then .error .wrongOperation
    else pure (m.withCore (nuArchARM.annulStoreValue S m.toCoreImpl s))
  | .setLoadValue s aValue => do
    let e ← m.executing s
    if e.status ≠ .kComplete then .error .wrongStatus
    else pure (m.withCore (m.toCoreImpl.update s (fun e => { e with theValue := some aValue })
      (fun _ => .of_eq rfl rfl rfl rfl)))
  | _ => pure m

def step (theROBSize : BitVec 32) (m : MemoryUnit) (call : Call) : Except CoreFault MemoryUnit :=
  let S := call.dependants.surroundings call.depth
  match call.event with
  | .insertLSQ anOperation aSize aDependance => m.insertLSQ theROBSize anOperation aSize aDependance
  | .requestPort s => m.requestPort s
  | .issue s => m.issue s
  | .issuePartialSnoop => m.issuePartialSnoop
  | .issueAtomic => m.issueAtomic S
  | .valuePredictAtomic aValue => .ok (m.valuePredictAtomic S aValue)
  | .checkExtraLatencyTimeout => .ok (m.checkExtraLatencyTimeout S)
  | .complete s aReply => m.complete S s aReply
  | .retireMem speculate => m.retireMem S speculate
  | .commitStore s => m.commitStore s
  | .resolveCheckpoint => .ok (m.resolveCheckpoint S)
  | .eraseLSQ s => .ok (m.eraseLSQ S s)
  | .reset woken => .ok (m.reset woken)
  | .doAbortSpeculation ckpt_seq_num woken => .ok (m.doAbortSpeculation ckpt_seq_num woken)
  | event => m.execute S event

/-- The states of every run that no assertion stops. -/
abbrev Reachable (theROBSize : BitVec 32) (theSpeculativeOrder : Bool) : MemoryUnit → Prop :=
  Runs.Reaches (step theROBSize) Runs.Anything (start theSpeculativeOrder)

end MemoryUnit

end nuArchARM
