import Flexus.Core.MissRegisters

/-!
# Retirement, speculation and memory replies

The core's own functions over the memory unit, and the events that make a run of it.
-/

namespace nuArchARM

namespace Core

open LSQ

/-- The counters agree with the size of the queue. -/
def checkCounts (c : Core) : Except CoreFault Core :=
  if c.theLSQCount + c.theSBCount + c.theSBNAWCount = (c.theMemQueue.length : Int) then .ok c
  else .error .countMismatch

def sbEmpty (c : Core) : Bool := c.theSBCount == 0

def sbFull (cfg : CoreConfig) (c : Core) : Bool :=
  if cfg.theSBSize = 0 then false
  else if cfg.theConsistencyModel = .kRMO then
    decide (cfg.theSBSize ≤ c.thePermissions.theSBLines_Permission_falsecount)
  else
    decide (cfg.theSBSize ≤ c.theSBCount) || cfg.theSpeculativeOrder &&
      decide (cfg.theSBSize.tdiv 8 < (c.thePermissions.theSBLines_Permission.length : Int))

/-- `--theLSQCount` and its assertion. -/
def leaveLSQ (c : Core) : Except CoreFault Core :=
  if c.theLSQCount - 1 < 0 then .error .negativeCount
  else .ok { c with theLSQCount := c.theLSQCount - 1 }

/-- The counter of the queue an entry is erased from. -/
def uncount (c : Core) (e : LSQEntry) : Except CoreFault Core :=
  match e.theQueue with
  | .kLSQ => c.leaveLSQ
  | .kSSB | .kSB =>
    if e.theBypassSB then
      if c.theSBNAWCount - 1 < 0 then .error .negativeCount
      else .ok { c with theSBNAWCount := c.theSBNAWCount - 1 }
    else if c.theSBCount - 1 < 0 then .error .negativeCount
    else .ok { c with theSBCount := c.theSBCount - 1 }

/-! ## Write permission -/

/-- Change a checkpoint. The map makes one for an instruction that has none. -/
def alterCheckpoint (ks : List Checkpoint) (insn : Nat) (f : Checkpoint → Checkpoint) :
    List Checkpoint :=
  if (Keyed.lookup Checkpoint.theInstruction ks insn).isSome then
    Keyed.alter Checkpoint.theInstruction insn f ks
  else ks ++ [f ⟨insn, 0#64, 0, [], []⟩]

/-- A store or atomic that enters the store buffer needs to write its line. The open
    checkpoint needs it too, for atomics and, under sequential consistency, all stores. -/
def requireWritePermission (cfg : CoreConfig) (c : Core) (e : LSQEntry) : Except CoreFault Core :=
  if e.thePaddr = kInvalid then .ok c
  else do
    let addr := cfg.line e.thePaddr
    let (p, permission) ← c.thePermissions.require addr
    let c := { c with thePermissions := p }
    match c.theOpenCheckpoint with
    | none => pure c
    | some insn =>
      if cfg.theConsistencyModel = .kSC ∨ e.isAtomic then
        pure { c with
          theCheckpoints := alterCheckpoint c.theCheckpoints insn fun k =>
            k.require addr e.theSequenceNum permission }
      else pure c

def unrequireWritePermission (cfg : CoreConfig) (c : Core) (anAddress : PhysicalMemoryAddress) :
    Except CoreFault Core := do
  let p ← c.thePermissions.unrequire (cfg.line anAddress)
  pure { c with thePermissions := p }

def acquireWritePermission (cfg : CoreConfig) (c : Core) (anAddress : PhysicalMemoryAddress) :
    Except CoreFault Core := do
  let addr := cfg.line anAddress
  let p ← c.thePermissions.acquire addr
  pure { c with
    thePermissions := p
    theCheckpoints :=
      if (c.thePermissions.find addr).isSome then c.theCheckpoints.map (Checkpoint.acquire addr)
      else c.theCheckpoints }

/-- A checkpoint that lost permissions too often aborts the speculation at the
    instruction that needs the line. -/
def abortOnLoss (addr : PhysicalMemoryAddress) (c : Core) (k : Checkpoint) : Core :=
  if k.theHeldPermissions.contains addr && decide (5 < k.theLostPermissionCount + 1) then
    match k.theRequiredPermissions.find? (fun r => r.1 == addr) with
    | none => c
    | some (_, insn) =>
      if c.theAbortSpeculation = false ∨ insn < c.theViolatingInstruction then
        { c with theAbortSpeculation := true, theViolatingInstruction := insn }
      else c
  else c

def loseWritePermission (cfg : CoreConfig) (c : Core) (anAddress : PhysicalMemoryAddress) :
    Except CoreFault Core := do
  let addr := cfg.line anAddress
  let p ← c.thePermissions.lose addr
  if (c.thePermissions.find addr).isSome then
    pure { c.theCheckpoints.foldl (abortOnLoss addr) c with
      thePermissions := p
      theCheckpoints := c.theCheckpoints.map (Checkpoint.lose addr) }
  else pure { c with thePermissions := p }

/-! ## The memory queue -/

def insertLSQ (cfg : CoreConfig) (c : Core) (insn : Nat) (anOperation : eOperation) (aSize : eSize)
    (aBypassSB : Bool) (aDependance : Bool) : Core :=
  { c with
    theMemQueue := c.theMemQueue ++
      [.create insn anOperation aSize (aBypassSB && cfg.theNAWBypassSB) aDependance]
    theLSQCount := c.theLSQCount + 1 }

/-- Only a store or atomic in the store buffer has required the permission for its line. -/
def needsPermission (e : LSQEntry) : Bool :=
  e.theQueue != .kLSQ && (e.isStore || e.isAtomic)

def eraseLSQ (cfg : CoreConfig) (c : Core) (insn : Nat) : Except CoreFault Core :=
  match findEntry c.theMemQueue insn with
  | none => .ok c
  | some e => do
    let (q, ms) ← breakMSHRLink cfg c.theMemQueue c.theMSHRs e
    let c ← uncount { c with theMemQueue := q, theMSHRs := ms } e
    let c ← (if needsPermission e then c.unrequireWritePermission cfg e.thePaddr else pure c)
    checkCounts { c with theMemQueue := Keyed.erase seqOf insn c.theMemQueue }

def clearLSQ (c : Core) : Except CoreFault Core :=
  checkCounts { c with
    theMemQueue := c.theMemQueue.filter fun e => e.theQueue != .kLSQ
    theLSQCount := 0 }

/-- The permission of every store and atomic of a list is given up. -/
def unrequireAll (cfg : CoreConfig) : List LSQEntry → Core → Except CoreFault Core
  | [], c => .ok c
  | e :: rest, c => do
    let c ← (if e.isStore || e.isAtomic then c.unrequireWritePermission cfg e.thePaddr else pure c)
    unrequireAll cfg rest c

/-- The entries `erased` leave the queue, of which only `counted` are counted. -/
def dropSSB (cfg : CoreConfig) (c : Core) (counted erased : List LSQEntry) :
    Except CoreFault Core := do
  let c ← unrequireAll cfg counted c
  let sb := c.theSBCount - (counted.countP fun e => !e.theBypassSB)
  let naw := c.theSBNAWCount - (counted.countP fun e => e.theBypassSB)
  if sb < 0 ∨ naw < 0 then .error .negativeCount
  else checkCounts { c with
    theMemQueue := c.theMemQueue.filter fun e => !erased.any fun x => x.theSequenceNum == e.theSequenceNum
    theSBCount := sb
    theSBNAWCount := naw }

/-- The speculative store buffer in program order. -/
def ssb (c : Core) : List LSQEntry := c.theMemQueue.filter fun e => e.theQueue == .kSSB

/-- `clearSSB()`. -/
def clearSSB (cfg : CoreConfig) (c : Core) : Except CoreFault Core :=
  c.dropSSB cfg c.ssb c.ssb

/-- `clearSSB(aLowestInsnSeq)`. The lower bound of what is erased only moves when an entry
    from `aLowestInsnSeq` on is found: without one, everything is erased and nothing counted. -/
def clearSSBFrom (cfg : CoreConfig) (c : Core) (aLowestInsnSeq : Nat) : Except CoreFault Core :=
  let found := c.ssb.dropWhile fun e => decide (e.theSequenceNum < aLowestInsnSeq)
  c.dropSSB cfg found (if found = [] then c.ssb else found)

/-! ## Checkpoints -/

/-- `resolveSpeculation` of the instruction. -/
def allowCommit (insn : Nat) (is : List Instruction) : List Instruction :=
  is.map fun i => if i.sequenceNo = insn then { i with mayCommit := true } else i

def resolveSpeculation (c : Core) (insn : Nat) : Core :=
  { c with theROB := allowCommit insn c.theROB, theSRB := allowCommit insn c.theSRB }

/-- A checkpoint of the state before the instruction, of which `thePC` is the program
    counter. -/
def createCheckpoint (cfg : CoreConfig) (c : Core) (insn : Nat) : Except CoreFault Core :=
  if (Keyed.lookup Checkpoint.theInstruction c.theCheckpoints insn).isSome then
    .error .duplicateCheckpoint
  else if cfg.theAllowedSpeculativeCheckpoints < 0 then .error .checkpointLimit
  else if cfg.theAllowedSpeculativeCheckpoints ≠ 0 ∧
      cfg.theAllowedSpeculativeCheckpoints < (c.theCheckpoints.length : Int) + 1 then
    .error .checkpointLimit
  else
    .ok { c with
      theCheckpoints := c.theCheckpoints ++ [⟨insn, c.thePC, 0, [], []⟩]
      theOpenCheckpoint := some insn
      theRetiresSinceCheckpoint := 0
      theIsSpeculating := true
      theAbortSpeculation := c.theIsSpeculating && c.theAbortSpeculation }

def freeCheckpoint (c : Core) (insn : Nat) : Except CoreFault Core :=
  match Keyed.lookup Checkpoint.theInstruction c.theCheckpoints insn with
  | none => .error .noCheckpoint
  | some _ =>
    let rest := Keyed.erase Checkpoint.theInstruction insn c.theCheckpoints
    .ok { c with
      theCheckpoints := rest
      theOpenCheckpoint := if c.theOpenCheckpoint = some insn then none else c.theOpenCheckpoint
      theIsSpeculating :=
        if c.theIsSpeculating && !c.theAbortSpeculation && rest.isEmpty then false
        else c.theIsSpeculating }

/-! ## Retirement -/

/-- The entry moves from the load-store queue to the speculative store buffer. -/
def enterSSB (c : Core) (insn : Nat) (f : LSQEntry → LSQEntry) : Except CoreFault Core :=
  leaveLSQ { c with theMemQueue := updateEntry c.theMemQueue insn fun e => { f e with theQueue := .kSSB } }

/-- Whether a load must, or may, start a speculation of its own to retire. -/
def speculates (cfg : CoreConfig) (c : Core) (e : LSQEntry) : Bool :=
  let room := cfg.theAllowedSpeculativeCheckpoints == 0 ||
    decide ((c.theCheckpoints.length : Int) < cfg.theAllowedSpeculativeCheckpoints)
  let required : Nat := ((c.theOpenCheckpoint.bind fun insn =>
    Keyed.lookup Checkpoint.theInstruction c.theCheckpoints insn).map fun k =>
      k.theRequiredPermissions.length).getD 0
  !e.isAbnormalAccess && cfg.line e.thePaddr != 0#64 &&
    cfg.theConsistencyModel == .kSC && cfg.theSpeculativeOrder &&
    (!c.theIsSpeculating && !c.sbEmpty ||
      c.theIsSpeculating && decide (0 < cfg.theCheckpointThreshold) &&
        decide (cfg.theCheckpointThreshold < c.theRetiresSinceCheckpoint) && room ||
      c.theIsSpeculating && decide (15 < required) && room)

def retireAtomic (cfg : CoreConfig) (c : Core) (i : Instruction) (e : LSQEntry) :
    Except CoreFault (Core × Instruction) :=
  if !e.isAbnormalAccess && e.thePaddr != kInvalid && cfg.line e.thePaddr == 0#64 then
    .error .invalidAddress
  else if e.theExtendedValue.isNone || e.theOperation == .kCAS && e.theCompareValue.isNone then
    .error .noValue
  else if e.theStoreComplete then do
    let c ← c.eraseLSQ cfg i.sequenceNo
    pure (c, i)
  else if cfg.theSpeculativeOrder = false then .error .notSpeculating
  else if e.thePaddr = kUnresolved then .error .invalidAddress
  else if e.isAbnormalAccess then .error .abnormalAccess
  else do
    let c ← c.enterSSB i.sequenceNo (setIssued false)
    let c ← createCheckpoint cfg { c with theSBCount := c.theSBCount + 1 } i.sequenceNo
    let c ← c.requireWritePermission cfg e
    pure (c, { i with hasCheckpoint := true })

def retireLoad (cfg : CoreConfig) (c : Core) (i : Instruction) (e : LSQEntry) :
    Except CoreFault (Core × Instruction) :=
  if c.speculates cfg e then do
    let c ← c.enterSSB i.sequenceNo fun e => { e with theBypassSB := true }
    let c ← createCheckpoint cfg { c with theSBNAWCount := c.theSBNAWCount + 1 } i.sequenceNo
    pure (c, { i with hasCheckpoint := true, mayCommit := false })
  else do
    let c ← c.eraseLSQ cfg i.sequenceNo
    pure (c, i)

/-- The entry before the given one in program order. -/
def predecessor (q : List LSQEntry) (insn : Nat) : Option LSQEntry :=
  (q.takeWhile fun e => e.theSequenceNum != insn).getLast?

def retireStore (cfg : CoreConfig) (c : Core) (i : Instruction) (e : LSQEntry) :
    Except CoreFault (Core × Instruction) :=
  if e.theAnnulled || e.isAbnormalAccess then do
    let c ← c.eraseLSQ cfg i.sequenceNo
    pure (c, i)
  else if (predecessor c.theMemQueue i.sequenceNo).any (·.theQueue == .kLSQ) then .error .wrongQueue
  else do
    let c ← c.enterSSB i.sequenceNo id
    let c := if e.theBypassSB then { c with theSBNAWCount := c.theSBNAWCount + 1 }
      else { c with theSBCount := c.theSBCount + 1 }
    let c ← c.requireWritePermission cfg e
    pure (c, i)

def retireMEMBAR (cfg : CoreConfig) (c : Core) (i : Instruction) :
    Except CoreFault (Core × Instruction) :=
  if c.sbEmpty then do
    let c ← c.eraseLSQ cfg i.sequenceNo
    pure (c, { i with mayCommit := true })
  else if c.sbFull cfg then .error .storeBufferFull
  else do
    let c ← c.enterSSB i.sequenceNo id
    let c := { c with theSBCount := c.theSBCount + 1 }
    if cfg.theConsistencyModel = .kSC ∧ c.theIsSpeculating then
      pure (c, { i with mayCommit := true })
    else do
      let c ← c.createCheckpoint cfg i.sequenceNo
      pure (c, { i with hasCheckpoint := true })

/-- `retireMem`, with the instruction as it leaves the reorder buffer. -/
def retireMem (cfg : CoreConfig) (c : Core) (i : Instruction) :
    Except CoreFault (Core × Instruction) :=
  match findEntry c.theMemQueue i.sequenceNo with
  | none => .error .notInQueue
  | some e =>
    if e.theQueue ≠ .kLSQ then .error .wrongQueue
    else
      match e.theOperation with
      | .kCAS | .kRMW => c.retireAtomic cfg i e
      | .kLoad => c.retireLoad cfg i e
      | .kStore => c.retireStore cfg i e
      | .kMEMBARMarker => c.retireMEMBAR cfg i
      | .kCASP => .error .wrongOperation

/-- One turn of the loop of `retire`. Instructions without a queue entry have no
    retirement effect here. -/
def retire (cfg : CoreConfig) (c : Core) (memory : Bool) : Except CoreFault Core :=
  match c.theROB with
  | [] => .ok c
  | i :: rest => do
    let (c, i) ← (if memory then c.retireMem cfg i else pure (c, i))
    pure { c with
      theRetiresSinceCheckpoint :=
        if c.theIsSpeculating then c.theRetiresSinceCheckpoint + 1 else c.theRetiresSinceCheckpoint
      thePC := i.pc + 4#64
      theSRB := c.theSRB ++ [i]
      theROB := rest }

/-! ## Commit -/

def commitStore (c : Core) (insn : Nat) : Except CoreFault Core :=
  match findEntry c.theMemQueue insn with
  | none => .ok c
  | some e =>
    if e.theOperation ≠ .kStore then .error .wrongOperation
    else if e.theQueue ≠ .kSSB then .error .wrongQueue
    else if e.theAnnulled || e.isAbnormalAccess then .error .abnormalAccess
    else if e.theValue.isNone then .error .noValue
    else if e.thePaddr = kInvalid then .error .invalidAddress
    else .ok { c with
      theMemQueue := updateEntry c.theMemQueue insn fun e => { e with theQueue := .kSB } }

def commitEffects (cfg : CoreConfig) (c : Core) (i : Instruction) : Except CoreFault Core :=
  match i.theCommitEffect with
  | .keep => .ok c
  | .commitStore => c.commitStore i.sequenceNo
  | .eraseLSQ => c.eraseLSQ cfg i.sequenceNo

/-- `resetARM`: the pipeline and the load-store queue. -/
def resetARM (c : Core) : Except CoreFault Core :=
  clearLSQ { c with theROB := [], theRedirectRequested := false, theRedirectPC := 0#64 }

/-- The instruction a rollback restarts at: the nearest one with a checkpoint from the
    violating instruction backwards, or the first one when there is none. -/
def rollbackTarget (srb : List Instruction) (violator : Nat) : Option Instruction :=
  let upTo := srb.takeWhile (fun i => i.sequenceNo != violator) ++
    ((srb.dropWhile fun i => i.sequenceNo != violator).head?).toList
  (upTo.reverse.find? (·.hasCheckpoint)).or srb.head?

/-- The youngest checkpoint. -/
def youngest (ks : List Checkpoint) : Option Nat :=
  (ks.map Checkpoint.theInstruction).max?

def doAbortSpeculation (cfg : CoreConfig) (c : Core) : Except CoreFault Core :=
  if c.theIsSpeculating = false then .error .notSpeculating
  else if ¬ c.theSRB.any (·.sequenceNo == c.theViolatingInstruction) then .error .noViolator
  else
    match rollbackTarget c.theSRB c.theViolatingInstruction with
    | none => .error .noViolator
    | some target =>
      match Keyed.lookup Checkpoint.theInstruction c.theCheckpoints target.sequenceNo with
      | none => .error .noCheckpoint
      | some ckpt => do
        let c ← c.resetARM
        let (q, ms) ← cleanMSHRS cfg target.sequenceNo c.theMemQueue c.theMSHRs
        let c := { c with theMemQueue := q, theMSHRs := ms, thePC := ckpt.thePC }
        let c := { c with theSRB := c.theSRB.takeWhile fun i => i.sequenceNo != target.sequenceNo }
        let c ← c.clearSSBFrom cfg target.sequenceNo
        let kept := c.theCheckpoints.filter fun k => decide (k.theInstruction < target.sequenceNo)
        pure { c with
          theRedirectRequested := true
          theRedirectPC := ckpt.thePC
          theCheckpoints := kept
          theOpenCheckpoint := youngest kept
          theRetiresSinceCheckpoint := 0
          theAbortSpeculation := false
          theIsSpeculating := !kept.isEmpty }

/-- One turn of the loop of `commit`, which first aborts a failed speculation. -/
def commit (cfg : CoreConfig) (c : Core) : Except CoreFault Core :=
  if c.theAbortSpeculation then c.doAbortSpeculation cfg
  else
    match c.theSRB with
    | [] => .ok c
    | i :: rest =>
      if i.mayCommit = false then .ok c
      else do
        let c ← (if i.hasCheckpoint then c.freeCheckpoint i.sequenceNo else pure c)
        let c ← c.commitEffects cfg i
        pure { c with theSRB := rest }

/-- The oldest operation's checkpoint is resolved once every permission it needs is held. -/
def resolveCheckpoint (cfg : CoreConfig) (c : Core) : Except CoreFault Core :=
  match c.theMemQueue with
  | [] => .ok c
  | e :: _ =>
    if e.theQueue = .kSSB ∧ e.theSpeculatedValue = false ∧
        c.theSRB.any (fun i => i.sequenceNo == e.theSequenceNum && i.hasCheckpoint) then
      if c.theIsSpeculating = false then .error .notSpeculating
      else
        match Keyed.lookup Checkpoint.theInstruction c.theCheckpoints e.theSequenceNum with
        | none => .error .noCheckpoint
        | some ckpt =>
          if ckpt.theHeldPermissions.length = ckpt.theRequiredPermissions.length then
            let c := c.resolveSpeculation e.theSequenceNum
            if e.isAtomic then
              .ok { c with
                theMemQueue := updateEntry c.theMemQueue e.theSequenceNum fun e =>
                  { e with theQueue := .kSB } }
            else if e.isLoad then c.eraseLSQ cfg e.theSequenceNum
            else .ok c
          else .ok c
    else .ok c

/-- `reset` on a resynchronisation, and the program counter it starts again with. -/
def resynchronize (cfg : CoreConfig) (c : Core) (aPC : VirtualMemoryAddress) :
    Except CoreFault Core := do
  let (q, ms) ← cleanMSHRS cfg 0 c.theMemQueue c.theMSHRs
  let c ← resetARM { c with theMemQueue := q, theMSHRs := ms }
  let c ← clearSSB cfg { c with theSRB := [] }
  pure { c with
    theIsSpeculating := false
    theCheckpoints := []
    theOpenCheckpoint := none
    theRetiresSinceCheckpoint := 0
    theAbortSpeculation := false
    thePC := aPC }

/-! ## Replies -/

def kAlwaysStore : bits := 0x0DEADBEEF#128

/-- What a reply writes into an entry. -/
def received (aReply : eReply) (value : bits) (e : LSQEntry) : LSQEntry :=
  match aReply with
  | .kAtomicPreloadReply =>
    if e.theSpeculatedValue && e.theQueue != .kLSQ then
      { e with
        theSpeculatedValue := decide (e.theExtendedValue ≠ some value)
        thePartialSnoop := false }
    else
      { e with
        theExtendedValue := some value
        theSpeculatedValue := false
        theValue := if e.theOperation = .kCAS ∧ e.theCompareValue.any (· != value) then some value
          else e.theValue
        thePartialSnoop := false }
  | .kLoadReply => { e with
      theValue := some value, theExtendedValue := some value, thePartialSnoop := false }
  | .kCASReply =>
    let extended := if e.theCompareValue = some kAlwaysStore then kAlwaysStore else value
    { e with
      theExtendedValue := some extended
      theValue := if e.theCompareValue ≠ some extended then some value else e.theValue
      theStoreComplete := true }
  | .kRMWReply => { e with theExtendedValue := some value, theStoreComplete := true }
  | .kStoreReply => { e with theStoreComplete := true }
  | .kStorePrefetchReply => e

/-- The assertions of `completeLSQ` on the entry and its reply. -/
def acceptable (cfg : CoreConfig) (c : Core) (e : LSQEntry) : eReply → Except CoreFault Unit
  | .kAtomicPreloadReply =>
    if e.theOperation ≠ .kRMW ∧ e.theOperation ≠ .kCAS then .error .wrongOperation
    else if cfg.theSpeculativeOrder = false then .error .notSpeculating
    else if e.theSpeculatedValue ∧ e.theQueue ≠ .kLSQ ∧ c.theIsSpeculating = false then
      .error .notSpeculating
    else .ok ()
  | .kLoadReply => if e.theOperation ≠ .kLoad then .error .wrongOperation else .ok ()
  | .kCASReply =>
    if e.theOperation ≠ .kCAS then .error .wrongOperation
    else if e.thePartialSnoop then .error .wrongStatus
    else if e.theCompareValue.isNone then .error .noValue
    else .ok ()
  | .kRMWReply =>
    if e.theOperation ≠ .kRMW then .error .wrongOperation
    else if e.thePartialSnoop then .error .wrongStatus
    else .ok ()
  | .kStoreReply =>
    if !e.isStore then .error .wrongOperation
    else if e.theSideEffect then (if e.theQueue = .kLSQ then .ok () else .error .wrongQueue)
    else if e.theQueue = .kSB then .ok ()
    else .error .wrongQueue
  | .kStorePrefetchReply => .ok ()

/-- An entry whose reply has come. A store leaves the store buffer with it. -/
def completeLSQ (cfg : CoreConfig) (aReply : eReply) (value : bits) (c : Core) (insn : Nat) :
    Except CoreFault Core :=
  match findEntry c.theMemQueue insn with
  | none => .error .danglingWaiter
  | some e =>
    if e.linkedStatus ≠ .kIssuedToMemory ∧ ¬ (e.linkedStatus = .kComplete ∧ e.isAtomic) ∧
        ¬ (cfg.theConsistencyModel = .kRMO ∧ e.linkedStatus = .kAwaitingPort) then
      .error .wrongStatus
    else do
      acceptable cfg c e aReply
      let mispredicted := aReply == .kAtomicPreloadReply && e.theSpeculatedValue &&
        e.theQueue != .kLSQ && e.theExtendedValue != some value
      let c := if mispredicted then
          { c with theAbortSpeculation := true, theViolatingInstruction := insn } else c
      let c := if aReply = .kCASReply ∨ aReply = .kRMWReply then c.resolveSpeculation insn else c
      let c := { c with
        theMemQueue := updateEntry c.theMemQueue insn fun e => unlink (received aReply value e) }
      if aReply = .kStoreReply ∧ e.theQueue = .kSB then c.eraseLSQ cfg insn else pure c

def completeAll (cfg : CoreConfig) (aReply : eReply) (value : bits) :
    List Nat → Core → Except CoreFault Core
  | [], c => .ok c
  | insn :: rest, c => do
    let c ← completeLSQ cfg aReply value c insn
    completeAll cfg aReply value rest c

/-- The store at the head of the queue is sent to memory. Under relaxed consistency it
    completes at once when the core may already write its line. -/
def issueStore (cfg : CoreConfig) (c : Core) (theNonCacheable : Bool) : Except CoreFault Core :=
  match c.theMemQueue with
  | [] => .ok c
  | e :: _ =>
    if e.theQueue = .kSB ∧ e.linkedStatus = .kAwaitingIssue ∧ e.isAbnormalAccess = false then
      if cfg.theConsistencyModel = .kRMO ∧ e.isAtomic = false ∧ e.thePaddr ≠ kInvalid ∧
          theNonCacheable = false ∧ (c.thePermissions.find (cfg.line e.thePaddr)).any (·.thePermission) then
        completeLSQ cfg .kStoreReply 0#128
          { c with theMemQueue := updateEntry c.theMemQueue e.theSequenceNum (setIssued true) }
          e.theSequenceNum
      else if e.thePaddr = kInvalid then .error .invalidAddress
      else do
        let q ← LSQ.requestPort cfg c.theMemQueue e.theSequenceNum
        pure { c with theMemQueue := q }
    else .ok c

/-- A page walk's reply goes to the translation of its virtual address. -/
def completePageWalk (c : Core) (vaddr : VirtualMemoryAddress) : Except CoreFault Core :=
  match Keyed.lookup Prod.fst c.thePageWalkRequests vaddr with
  | none => .error .noPageWalk
  | some (_, theID) =>
    .ok { c with
      thePageWalkRequests := Keyed.erase Prod.fst vaddr c.thePageWalkRequests
      theReadyTranslations := c.theReadyTranslations ++ [theID] }

/-- A reply completes what waits in the miss register of its address, if it is a reply to
    that register's request. Any other reply is ignored. -/
def complete (cfg : CoreConfig) (c : Core) (op : MemOp) (value : bits) : Except CoreFault Core :=
  match findMSHR c.theMSHRs op.thePAddr with
  | none => .ok c
  | some mshr =>
    if satisfies cfg op.theOperation.reply mshr.theOperation ∧ mshr.theSize = op.theSize then do
      let c ← (if mshr.theOperation = .kPageWalkRequest then c.completePageWalk op.theVAddr else pure c)
      let c := { c with theMSHRs := Keyed.erase MSHR.thePaddr op.thePAddr c.theMSHRs }
      let c ← completeAll cfg op.theOperation.reply value mshr.theWaitingLSQs c
      let q ← wake cfg mshr.theBlockedOps c.theMemQueue
      pure { c with theMemQueue := q }
    else .ok c

/-- `processReply` of the request at the given place among those sent. -/
def processReply (cfg : CoreConfig) (c : Core) (k : Nat) (value : bits) : Except CoreFault Core :=
  match c.theMemoryPorts[k]? with
  | none => .ok c
  | some op =>
    let c := { c with theMemoryPorts := c.theMemoryPorts.eraseIdx k }
    match op.theOperation with
    | .kRMW | .kCAS | .kStore => do
      let c ← c.acquireWritePermission cfg op.thePAddr
      c.complete cfg op value
    | .kLoad | .kAtomicPreload | .kPageWalkRequest => c.complete cfg op value
    | .kStorePrefetch => do
      let c ← c.acquireWritePermission cfg op.thePAddr
      pure { c with
        theOutstandingStorePrefetches :=
          c.theOutstandingStorePrefetches.filter (· != cfg.line op.thePAddr) }

/-! ## Runs -/

/-- What execution writes into an entry that has not retired. -/
structure Executed where
  theVaddr : VirtualMemoryAddress
  thePaddr : PhysicalMemoryAddress
  theSideEffect : Bool
  theException : Bool
  theAnnulled : Bool
  thePartialSnoop : Bool
  theSpeculatedValue : Bool
  theExtendedValue : Option bits
  theValue : Option bits
  theCompareValue : Option bits
  deriving DecidableEq, Repr

def Executed.apply (x : Executed) (e : LSQEntry) : LSQEntry :=
  { e with
    theVaddr := x.theVaddr
    thePaddr := x.thePaddr
    thePaddr_aligned := x.thePaddr &&& 0xFFFFFFFFFFFFFFF8#64
    theSideEffect := x.theSideEffect
    theException := x.theException
    theAnnulled := x.theAnnulled
    thePartialSnoop := x.thePartialSnoop
    theSpeculatedValue := x.theSpeculatedValue
    theExtendedValue := x.theExtendedValue
    theValue := x.theValue
    theCompareValue := x.theCompareValue }

/-- An instruction in the load-store queue executes, perhaps again. A new address takes it
    from its miss register, and no translation yields the invalid address. -/
def execute (cfg : CoreConfig) (c : Core) (insn : Nat) (x : Executed) : Except CoreFault Core :=
  match findEntry c.theMemQueue insn with
  | none => .ok c
  | some e =>
    if e.theQueue ≠ .kLSQ then .ok c
    else if x.thePaddr = kInvalid then .error .invalidAddress
    else do
      let (q, ms) ← (if x.thePaddr = e.thePaddr then pure (c.theMemQueue, c.theMSHRs)
        else breakMSHRLink cfg c.theMemQueue c.theMSHRs e)
      pure { c with theMemQueue := updateEntry q insn x.apply, theMSHRs := ms }

/-- A load in the load-store queue looks for its value anew. -/
def reissue (cfg : CoreConfig) (c : Core) (insn : Nat) : Except CoreFault Core :=
  match findEntry c.theMemQueue insn with
  | none => .ok c
  | some e =>
    if e.theQueue ≠ .kLSQ then .ok c
    else do
      let (q, ms) ← breakMSHRLink cfg c.theMemQueue c.theMSHRs e
      pure { c with theMemQueue := q, theMSHRs := ms }

/-- What allocates a queue entry for an instruction. Only a store may ask to bypass the
    store buffer. -/
inductive Allocate where
  | store (aSize : eSize) (aBypassSB : Bool)
  | membar
  | load (aSize : eSize)
  | cas (aSize : eSize)
  | rmw (aSize : eSize)
  deriving DecidableEq, Repr

def allocate (cfg : CoreConfig) (c : Core) (insn : Nat) : Allocate → Core
  | .store aSize aBypassSB => c.insertLSQ cfg insn .kStore aSize aBypassSB false
  | .membar => c.insertLSQ cfg insn .kMEMBARMarker .kWord false false
  | .load aSize => c.insertLSQ cfg insn .kLoad aSize false true
  | .cas aSize => c.insertLSQ cfg insn .kCAS aSize false true
  | .rmw aSize => c.insertLSQ cfg insn .kRMW aSize false true

/-- A new instruction enters the reorder buffer, with its queue entry if it has one. -/
def dispatch (cfg : CoreConfig) (c : Core) (pc : VirtualMemoryAddress) (effect : CommitEffect)
    (mayCommit : Bool) (allocation : Option Allocate) : Core :=
  let insn := c.theMemorySequenceNum + 1
  let c := { c with
    theMemorySequenceNum := insn
    theROB := c.theROB ++ [⟨insn, pc, effect, mayCommit, false⟩] }
  match allocation with
  | none => c
  | some a => c.allocate cfg insn a

/-- The youngest instruction is squashed. -/
def squash (cfg : CoreConfig) (c : Core) : Except CoreFault Core :=
  match c.theROB.getLast? with
  | none => .ok c
  | some i => do
    let c ← c.eraseLSQ cfg i.sequenceNo
    pure { c with theROB := c.theROB.dropLast }

inductive Event where
  | dispatch (pc : VirtualMemoryAddress) (effect : CommitEffect) (mayCommit : Bool)
      (allocation : Option Allocate)
  | execute (insn : Nat) (x : Executed)
  | reissue (insn : Nat)
  | squash
  | retire
  | commit
  | resolveCheckpoint
  | violate (insn : Nat)
  | requestPort (insn : Nat)
  | issueStore (theNonCacheable : Bool)
  | issue (insn : Nat)
  | issueStorePrefetch (insn : Nat)
  | issueMMU (vaddr : VirtualMemoryAddress) (paddr : PhysicalMemoryAddress) (theID : Nat)
  | reply (k : Nat) (value : bits)
  | snoop (anAddress : PhysicalMemoryAddress)
  | redirectFetch (anAddress : VirtualMemoryAddress)
  | redirect
  | resynchronize (aPC : VirtualMemoryAddress)
  deriving DecidableEq, Repr

/-- Whether an instruction has a queue entry to retire. -/
def hasMemory (c : Core) : Bool :=
  c.theROB.head?.any fun i => (findEntry c.theMemQueue i.sequenceNo).isSome

def step (cfg : CoreConfig) (c : Core) : Event → Except CoreFault Core
  | .dispatch pc effect mayCommit allocation => .ok (c.dispatch cfg pc effect mayCommit allocation)
  | .execute insn x => c.execute cfg insn x
  | .reissue insn => c.reissue cfg insn
  | .squash => c.squash cfg
  | .retire => c.retire cfg c.hasMemory
  | .commit => c.commit cfg
  | .resolveCheckpoint => c.resolveCheckpoint cfg
  | .violate insn =>
    .ok (if c.theIsSpeculating then
      { c with theAbortSpeculation := true, theViolatingInstruction := insn } else c)
  | .requestPort insn => do
    let q ← LSQ.requestPort cfg c.theMemQueue insn
    pure { c with theMemQueue := q }
  | .issueStore theNonCacheable => c.issueStore cfg theNonCacheable
  | .issue insn => c.issue cfg insn
  | .issueStorePrefetch insn => c.issueStorePrefetch cfg insn
  | .issueMMU vaddr paddr theID => .ok (c.issueMMU vaddr paddr theID)
  | .reply k value => c.processReply cfg k value
  | .snoop anAddress => c.loseWritePermission cfg anAddress
  | .redirectFetch anAddress =>
    .ok { c with theRedirectRequested := true, theRedirectPC := anAddress }
  | .redirect =>
    .ok (if c.theRedirectRequested then
      { c with thePC := c.theRedirectPC, theRedirectRequested := false } else c)
  | .resynchronize aPC => c.resynchronize cfg aPC

/-- The states of every run that no assertion stops. -/
abbrev Reachable (cfg : CoreConfig) (aPC : VirtualMemoryAddress) : Core → Prop :=
  Runs.Reaches (step cfg) Runs.Anything (start aPC)

end Core

end nuArchARM
