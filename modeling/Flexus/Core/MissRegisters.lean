import Flexus.Core.MemUnit

/-!
# Miss registers

The memory queue and the miss registers refer to each other. These functions read
and cut the links; they change nothing else of the queue but the flag that says a
port was requested.
-/

namespace nuArchARM

namespace LSQ

/-- `theMemQueue.get<by_insn>().find`. -/
abbrev findEntry (q : List LSQEntry) (s : Nat) : Option LSQEntry := Keyed.lookup seqOf q s

abbrev updateEntry (q : List LSQEntry) (s : Nat) (f : LSQEntry → LSQEntry) : List LSQEntry :=
  Keyed.alter seqOf s f q

abbrev findMSHR (ms : List MSHR) (a : PhysicalMemoryAddress) : Option MSHR :=
  Keyed.lookup MSHR.thePaddr ms a

def setIssued (b : Bool) (e : LSQEntry) : LSQEntry := { e with theIssued := b }

def unlink (e : LSQEntry) : LSQEntry := { e with link := none }

def attach (a : PhysicalMemoryAddress) (e : LSQEntry) : LSQEntry := { e with link := some a }

/-- The head of the load queue. -/
def lsqHead (q : List LSQEntry) : Option Nat :=
  (q.find? fun e => e.theQueue == .kLSQ).map seqOf

/-- A port is requested for an operation that waits for one. A partial snoop may only
    proceed at the head of the load queue. -/
def requestPort (cfg : CoreConfig) (q : List LSQEntry) (s : Nat) : Except CoreFault (List LSQEntry) :=
  match findEntry q s with
  | none => .ok q
  | some e =>
    let waits := e.linkedStatus = .kAwaitingIssue ∨ e.linkedStatus = .kAwaitingPort
    let storePart := e.isAtomic ∧ ((e.theStoreComplete = false ∧ e.linkedStatus = .kComplete) ∨
      e.linkedStatus = .kAwaitingValue)
    if ¬ waits ∧ ¬ storePart then .ok q
    else if ¬ waits ∧ cfg.theSpeculativeOrder = false then .error .notSpeculating
    else if e.thePartialSnoop ∧ lsqHead q ≠ some s then .ok q
    else .ok (updateEntry q s (setIssued true))

/-- The operations blocked on a miss register request a port, in order. -/
def wake (cfg : CoreConfig) : List Nat → List LSQEntry → Except CoreFault (List LSQEntry)
  | [], q => .ok q
  | s :: rest, q => do
    let q ← requestPort cfg q s
    wake cfg rest q

/-- Take the entry from its miss register. A register nothing waits for is released. -/
def breakMSHRLink (cfg : CoreConfig) (q : List LSQEntry) (ms : List MSHR) (e : LSQEntry) :
    Except CoreFault (List LSQEntry × List MSHR) :=
  let q := updateEntry q e.theSequenceNum (setIssued false)
  match e.link with
  | none => .ok (q, ms)
  | some a =>
    match findMSHR ms a with
    | none => .error .danglingMSHR
    | some mshr =>
      if e.theSequenceNum ∉ mshr.theWaitingLSQs then .error .notWaiting
      else if mshr.theWaitingLSQs.erase e.theSequenceNum = [] then do
        let q ← wake cfg mshr.theBlockedOps q
        pure (updateEntry q e.theSequenceNum unlink, Keyed.erase MSHR.thePaddr a ms)
      else
        .ok (updateEntry q e.theSequenceNum unlink,
          Keyed.alter MSHR.thePaddr a (fun m =>
            { m with theWaitingLSQs := m.theWaitingLSQs.erase e.theSequenceNum }) ms)

/-- Whether a rollback discards an entry. -/
def discards (aDiscardAfterSequenceNum : Nat) (e : LSQEntry) : Bool :=
  e.theQueue == .kLSQ || e.theQueue == .kSSB && decide (aDiscardAfterSequenceNum ≤ e.theSequenceNum)

/-- The waiters of a miss register that a rollback leaves. Each of them is read. -/
def keptWaiters (q : List LSQEntry) (d : Nat) : List Nat → Except CoreFault (List Nat)
  | [] => .ok []
  | w :: ws =>
    match findEntry q w with
    | none => .error .danglingWaiter
    | some e => do
      let rest ← keptWaiters q d ws
      pure (if discards d e then rest else w :: rest)

/-- The miss registers lose the waiters that a rollback discards, and are released when
    no waiter is left. -/
def cleanMSHRS (cfg : CoreConfig) (d : Nat) :
    List LSQEntry → List MSHR → Except CoreFault (List LSQEntry × List MSHR)
  | q, [] => .ok (q, [])
  | q, m :: ms => do
    let waiting ← keptWaiters q d m.theWaitingLSQs
    if waiting = [] then
      let q ← wake cfg m.theBlockedOps q
      cleanMSHRS cfg d q ms
    else
      let (q, rest) ← cleanMSHRS cfg d q ms
      pure (q, { m with theWaitingLSQs := waiting } :: rest)

end LSQ

namespace Core

open LSQ

/-- A load joins an outstanding load of its address and size. -/
def scanAndAttachMSHR (c : Core) (e : LSQEntry) : Except CoreFault (Option Core) :=
  match findMSHR c.theMSHRs e.thePaddr with
  | none => .ok none
  | some existing =>
    if existing.theWaitingLSQs = [] then .error .emptyMSHR
    else if existing.theOperation = .kLoad ∧ existing.theSize = e.theSize then
      if e.link.isSome then .error .alreadyLinked
      else .ok (some { c with
        theMemQueue := updateEntry c.theMemQueue e.theSequenceNum (attach e.thePaddr)
        theMSHRs := Keyed.alter MSHR.thePaddr e.thePaddr (fun m =>
          { m with theWaitingLSQs := m.theWaitingLSQs ++ [e.theSequenceNum] }) c.theMSHRs })
    else .ok none

/-- An operation waits until the miss register of its address is released. -/
def scanAndBlockMSHR (c : Core) (e : LSQEntry) : Except CoreFault (Option Core) :=
  match findMSHR c.theMSHRs e.thePaddr with
  | none => .ok none
  | some existing =>
    if existing.theWaitingLSQs = [] then .error .emptyMSHR
    else .ok (some { c with
      theMSHRs := Keyed.alter MSHR.thePaddr e.thePaddr (fun m =>
        { m with theBlockedOps := m.theBlockedOps ++ [e.theSequenceNum] }) c.theMSHRs })

def scanAndBlockPrefetch (c : Core) (e : LSQEntry) : Except CoreFault (Option Core) :=
  match findMSHR c.theMSHRs e.thePaddr with
  | none => .ok none
  | some existing =>
    if existing.theWaitingLSQs = [] then .error .emptyMSHR
    else .ok (some { c with
      theMSHRs := Keyed.alter MSHR.thePaddr e.thePaddr (fun m =>
        { m with theBlockedPrefetches := m.theBlockedPrefetches ++ [e.theSequenceNum] }) c.theMSHRs })

/-- The request an entry is issued as. An atomic is issued as one request only when it
    does not speculate, and otherwise first as a load and then as a store. -/
def issueOperation (cfg : CoreConfig) (e : LSQEntry) : Except CoreFault (Option eRequest) :=
  let atomic (op : eRequest) : Except CoreFault (Option eRequest) :=
    if cfg.theSpeculativeOrder = false ∨ e.isAbnormalAccess then
      if e.theQueue = .kLSQ then .ok (some op) else .error .wrongQueue
    else if e.theQueue = .kLSQ then .ok (some .kAtomicPreload)
    else .ok (some .kStore)
  match e.theOperation with
  | .kLoad => .ok (some .kLoad)
  | .kStore => .ok (some .kStore)
  | .kRMW => atomic .kRMW
  | .kCAS => atomic .kCAS
  | _ => .ok none

/-- A new miss register for the entry, and its request. -/
def sendMiss (c : Core) (e : LSQEntry) (op : eRequest) : Core :=
  { c with
    theMemQueue := updateEntry c.theMemQueue e.theSequenceNum (attach e.thePaddr)
    theMSHRs := c.theMSHRs ++ [⟨e.thePaddr, op, e.theSize, [e.theSequenceNum], [], []⟩]
    theMemoryPorts := c.theMemoryPorts ++ [⟨op, e.thePaddr, e.theVaddr, e.theSize⟩] }

/-- An operation that was granted a port is sent, unless a miss register of its address
    is in use. -/
def issue (cfg : CoreConfig) (c : Core) (s : Nat) : Except CoreFault Core :=
  match findEntry c.theMemQueue s with
  | none => .ok c
  | some e =>
    if e.linkedStatus ≠ .kAwaitingPort ∧
        ¬ (e.isAtomic ∧ e.linkedStatus = .kComplete ∧ e.theStoreComplete = false) then .ok c
    else if e.thePaddr = kInvalid then .error .invalidAddress
    else do
      match ← issueOperation cfg e with
      | none => pure c
      | some op =>
        match ← (if op = .kLoad then c.scanAndAttachMSHR e else pure none) with
        | some c => pure c
        | none =>
          match ← c.scanAndBlockMSHR e with
          | some c => pure c
          | none => pure (c.sendMiss e op)

/-- A page walk reads the memory. Its miss register has no waiter, and is only made when
    there is none for the address. -/
def issueMMU (c : Core) (vaddr : VirtualMemoryAddress) (paddr : PhysicalMemoryAddress)
    (theID : Nat) : Core :=
  { c with
    theMSHRs :=
      if (findMSHR c.theMSHRs paddr).isSome then c.theMSHRs
      else c.theMSHRs ++ [⟨paddr, .kPageWalkRequest, .kDoubleWord, [], [], []⟩]
    theMemoryPorts := c.theMemoryPorts ++ [⟨.kPageWalkRequest, paddr, vaddr, .kDoubleWord⟩]
    thePageWalkRequests := Keyed.erase Prod.fst vaddr c.thePageWalkRequests ++ [(vaddr, theID)] }

/-- A store asks early for the permission to write its line. -/
def issueStorePrefetch (cfg : CoreConfig) (c : Core) (s : Nat) : Except CoreFault Core :=
  match findEntry c.theMemQueue s with
  | none => .ok c
  | some e =>
    let aligned := cfg.line e.thePaddr
    if e.isAbnormalAccess ∨ e.theBypassSB ∨ e.thePaddr = kInvalid ∨ e.thePaddr = kUnresolved then .ok c
    else if c.thePermissions.find aligned = none ∧ cfg.thePrefetchEarly = false then
      .error .untrackedLine
    else if (c.thePermissions.find aligned).any (·.thePermission) then .ok c
    else do
      match ← c.scanAndBlockPrefetch e with
      | some c => pure c
      | none =>
        if c.theOutstandingStorePrefetches.contains aligned then pure c
        else pure { c with
          theOutstandingStorePrefetches := c.theOutstandingStorePrefetches ++ [aligned]
          theMemoryPorts := c.theMemoryPorts ++ [⟨.kStorePrefetch, e.thePaddr, e.theVaddr, e.theSize⟩] }

end Core

end nuArchARM
