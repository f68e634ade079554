import Flexus.Lib.Keyed
import Flexus.Lib.Runs
import Flexus.MMU.Walk

/-!
# The MMU component

The queues of translation requests, the two TLBs and the page walker, and what a bus cycle,
a cycle of the walker, a memory reply, a resynchronization and a request of the trace mode
do to them. Requests are shared objects, known by the order of their arrival.
-/

namespace nMMU

scoped instance lawfulBEq_addr : LawfulBEq (BitVec 64) := inferInstance

def PAGEMASK : BitVec 64 := ~~~0xFFF#64

/-- The page of an address. -/
def page (a : BitVec 64) : BitVec 64 := a &&& PAGEMASK

/-! ## The TLBs -/

structure TLBentry where
  theRate : Nat
  theVaddr : BitVec 64
  thePaddr : BitVec 64
  deriving DecidableEq, Repr

/-- Where a new entry comes in the iteration order of the hash table. -/
structure HashOrder where
  insert : List TLBentry → TLBentry → List TLBentry
  perm : ∀ l e, (insert l e).Perm (e :: l)

/-- The hash table as the sequence its iterators run through. -/
structure TLB where
  theSize : Nat
  theTLB : List TLBentry
  deriving DecidableEq, Repr

namespace TLB

def lookUp (t : TLB) (anAddress : BitVec 64) : Option (BitVec 64) × TLB :=
  ((Keyed.lookup TLBentry.theVaddr t.theTLB anAddress).map TLBentry.thePaddr,
    { t with
      theTLB := t.theTLB.map fun e => { e with theRate := if e.theVaddr = anAddress then 0 else e.theRate + 1 } })

/-- The first entry with the highest rate. -/
def victim : List TLBentry → Option TLBentry
  | [] => none
  | e :: l => some (l.foldl (fun res iter => if res.theRate < iter.theRate then iter else res) e)

def evict (t : TLB) : TLB :=
  match victim t.theTLB with
  | none => t
  | some e => { t with theTLB := Keyed.erase TLBentry.theVaddr e.theVaddr t.theTLB }

/-- The assignment of an address to the entry that `operator[]` finds or makes. -/
def assign (order : HashOrder) (t : TLB) (anAddress aPaddr : BitVec 64) : TLB :=
  match Keyed.lookup TLBentry.theVaddr t.theTLB anAddress with
  | some _ =>
    { t with
      theTLB := Keyed.alter TLBentry.theVaddr anAddress (fun e => { e with thePaddr := aPaddr }) t.theTLB }
  | none =>
    let t := if t.theTLB.length = t.theSize then t.evict else t
    { t with theTLB := order.insert t.theTLB ⟨0, anAddress, aPaddr⟩ }

end TLB

/-! ## The component -/

/-- What is fixed: the configuration, the order of the hash tables, and what lies outside the
    component. -/
structure Config where
  PerfectTLB : Bool
  order : HashOrder
  outOfRange : Nat → BitVec 64
  QEMU_logical_to_physical : eTLBtype → BitVec 64 → BitVec 64

structure PageWalk where
  theMMU : Option mmu_t
  theTranslationTransports : List (Nat × TranslationState)
  theMemoryTranslations : List Nat
  trace_address : BitVec 64
  deriving DecidableEq, Repr

/-- An entry written to a TLB, with the request that was translated. -/
structure Fill where
  key : BitVec 64
  value : BitVec 64
  source : Translation
  deriving DecidableEq, Repr

/-- The last five fields are history: what went out on the channels, the requests dropped as
    annulled, what was written to each TLB, the register objects that walks used with the
    registers of the latest resynchronization at that time, and these registers. -/
structure MMU where
  item : Nat → Translation
  pushed : Nat
  theLookUpEntries : List Nat
  thePageWalkEntries : List Nat
  alreadyPW : List (BitVec 64)
  standingEntries : List Nat
  thePageWalker : PageWalk
  theMMU : Option mmu_t
  theMMUInitialized : Bool
  theInstrTLB : TLB
  theDataTLB : TLB
  iTranslationReply : List Nat
  dTranslationReply : List Nat
  MemoryRequestOut : List Nat
  dropped : List Nat
  filled : List Fill
  used : List (Option mmu_regs_t × mmu_t)
  resynced : Option mmu_regs_t

inductive MMUEvent where
  | request (theVaddr : BitVec 64) (aType : eTLBtype) (hasInstruction : Bool)
  | annul (id : Nat)
  | memoryReply (id : Nat) (value : BitVec 64)
  | drive
  | resync (regs : mmu_regs_t)
  | TLBReqIn (theVaddr : BitVec 64) (aType : eTLBtype) (regs : mmu_regs_t) (mem : BitVec 64 → BitVec 64)

namespace MMU

variable (cfg : Config) (c : MMU)

def setItem (id : Nat) (t : Translation) : MMU := { c with item := Function.update c.item id t }

def tlb (t : Translation) : TLB := if t.isInstr then c.theInstrTLB else c.theDataTLB

def setTLB (t : Translation) (b : TLB) : MMU :=
  if t.isInstr then { c with theInstrTLB := b } else { c with theDataTLB := b }

/-- The reply goes out on the channel of the request's type. -/
def answer (id : Nat) : MMU :=
  if (c.item id).isInstr then { c with iTranslationReply := c.iTranslationReply ++ [id] }
  else { c with dTranslationReply := c.dTranslationReply ++ [id] }

def hit (id : Nat) (t : Translation) (aPaddr : BitVec 64) : MMU :=
  (c.setItem id { t with theTLBstatus := .kTLBhit, thePaddr := aPaddr }).answer id

/-- A request misses the TLB for a page that is not being walked. -/
def startWalk (id : Nat) (t : Translation) : Except MMUFault MMU := do
  let t := { t with theTLBstatus := .kTLBmiss }
  match c.thePageWalker.theMMU with
  | none => .error .nullMMU
  | some m =>
    let c := { c with used := c.used ++ [(c.resynced, m)] }
    match ← m.InitialTranslationSetup cfg.outOfRange t with
    | some w =>
      return { c.setItem id t with
        thePageWalker := { c.thePageWalker with
          theTranslationTransports := c.thePageWalker.theTranslationTransports ++ [(id, w.stateful)] }
        alreadyPW := c.alreadyPW ++ [page t.theVaddr]
        thePageWalkEntries := c.thePageWalkEntries ++ [id] }
    | none => return c.hit id t (cfg.QEMU_logical_to_physical t.theTLBtype t.theVaddr)

/-- One round of the first loop of `busCycle`, for a request taken from the queue. -/
def lookupEntry (id : Nat) : Except MMUFault MMU := do
  let t := c.item id
  if t.isInstr == t.isData then .error .assertion
  else
    let r := (c.tlb t).lookUp (page t.theVaddr)
    let c := c.setTLB t r.2
    if cfg.PerfectTLB then
      let perfectPaddr := cfg.QEMU_logical_to_physical t.theTLBtype t.theVaddr
      let t ← if perfectPaddr = 0xFFFFFFFFFFFFFFFF then t.setPagefault else .ok t
      return c.hit id t (perfectPaddr ||| (t.theVaddr &&& ~~~PAGEMASK))
    else
      match r.1 with
      | some aPaddr => return c.hit id t (aPaddr ||| (t.theVaddr &&& ~~~PAGEMASK))
      | none =>
        if page t.theVaddr ∈ c.alreadyPW then return { c with standingEntries := c.standingEntries ++ [id] }
        else c.startWalk cfg id t

/-- The first loop of `busCycle`. -/
def lookups : List Nat → MMU → Except MMUFault MMU
  | [], c => .ok c
  | id :: rest, c => do
    let c ← { c with theLookUpEntries := rest }.lookupEntry cfg id
    lookups rest c

/-- The parked requests that a finished walk of `pageAddr` releases. -/
def releases (t : Translation) (pageAddr : BitVec 64) (s : Nat) : Bool :=
  (c.item s).theVaddr &&& pageAddr == pageAddr && t.isInstr == (c.item s).isInstr

/-- A finished walk, taken from the queue, releases the requests parked on its page, fills its
    TLB and is answered. -/
def complete (id : Nat) : Except MMUFault MMU :=
  let t := c.item id
  let pageAddr := page t.theVaddr
  let c :=
    if pageAddr ∈ c.alreadyPW then
      { c with
        alreadyPW := c.alreadyPW.filter (· ≠ pageAddr)
        theLookUpEntries := c.theLookUpEntries ++ c.standingEntries.filter (c.releases t pageAddr)
        standingEntries := c.standingEntries.filter fun s => !c.releases t pageAddr s }
    else c
  if t.isInstr == t.isData then .error .assertion
  else
    .ok (({ c.setTLB t ((c.tlb t).assign cfg.order pageAddr (page t.thePaddr)) with
      filled := c.filled ++ [⟨pageAddr, page t.thePaddr, t⟩] } : MMU).answer id)

/-- The second loop of `busCycle`. -/
def completions : List Nat → MMU → Except MMUFault MMU
  | [], c => .ok c
  | id :: rest, c =>
    if (c.item id).theAnnul then
      completions rest { c with thePageWalkEntries := rest, dropped := c.dropped ++ [id] }
    else if (c.item id).theDone then do
      let c ← { c with thePageWalkEntries := rest }.complete cfg id
      completions rest c
    else .ok c

def busCycle : Except MMUFault MMU := do
  let c ← lookups cfg c.theLookUpEntries c
  completions cfg c.thePageWalkEntries c

/-- `PageWalk::cycle` works on the walk at the front. -/
def cycle : Except MMUFault MMU :=
  match c.thePageWalker.theTranslationTransports with
  | [] => .ok c
  | (id, st) :: rest =>
    let t := { c.item id with theTimeoutCounter := (c.item id).theTimeoutCounter + 1 }
    if 1000 < t.theTimeoutCounter then .error .assertion
    else if t.theDone then
      .ok { c.setItem id t with thePageWalker := { c.thePageWalker with theTranslationTransports := rest } }
    else if t.theReady then
      if t.theWaiting then
        match c.thePageWalker.theMMU with
        | none => .error .nullMMU
        | some m => do
          let w ← m.walk ⟨t, st, c.thePageWalker.trace_address⟩
          return { c.setItem id { w.basic with theWaiting := false } with
            thePageWalker := { c.thePageWalker with theTranslationTransports := (id, w.stateful) :: rest }
            used := c.used ++ [(c.resynced, m)] }
      else
        let w := mmu_t.preTranslate ⟨t, st, c.thePageWalker.trace_address⟩
        let requests := if t.theCurrentTranslationLevel < st.requiredTableLookups then [id] else []
        .ok { c.setItem id { w.basic with theReady := false, theWaiting := true } with
          thePageWalker := { c.thePageWalker with
            trace_address := w.trace_address
            theMemoryTranslations := c.thePageWalker.theMemoryTranslations ++ requests } }
    else .ok (c.setItem id t)

def processMemoryRequests : MMU :=
  { c with
    thePageWalker := { c.thePageWalker with theMemoryTranslations := [] }
    MemoryRequestOut := c.MemoryRequestOut ++ c.thePageWalker.theMemoryTranslations }

def drive : Except MMUFault MMU := do
  let c ← c.busCycle cfg
  let c ← c.cycle
  return c.processMemoryRequests

/-- A new request of either port; the object is made ready and queued. -/
def request (t : Translation) : MMU :=
  { c.setItem c.pushed { t with theReady := !t.theReady } with
    pushed := c.pushed + 1
    theLookUpEntries := c.theLookUpEntries ++ [c.pushed] }

/-- The reply of the core to a memory request of the walker. -/
def memoryReply (id : Nat) (value : BitVec 64) : MMU :=
  c.setItem id { c.item id with rawTTEValue := value, theReady := !(c.item id).theReady }

/-- The component gets a new register object, the walker keeps the one it has. -/
def resyncMMU (regs : mmu_regs_t) : Except MMUFault MMU := do
  let m ← regs.setupAddressSpaceSizesAndGranules
  return { c with
    theMMU := some m
    theMMUInitialized := true
    thePageWalker := { c.thePageWalker with theTranslationTransports := [] }
    thePageWalkEntries := []
    alreadyPW := []
    standingEntries := []
    theLookUpEntries := []
    resynced := some regs }

/-- The register object of the trace mode, made at its first miss. -/
def initializeMMU (regs : mmu_regs_t) : Except MMUFault MMU :=
  if c.theMMUInitialized then .ok c
  else do
    let m ← regs.setupAddressSpaceSizesAndGranules
    return { c with
      theMMU := some m
      thePageWalker := { c.thePageWalker with theMMU := some m }
      theMMUInitialized := true }

/-- A request of the trace mode: a miss is walked at once, with four lookups at most. The TLB
    is asked for and filled with the address as it comes. -/
def TLBReqIn (t : Translation) (regs : mmu_regs_t) (mem : BitVec 64 → BitVec 64) : Except MMUFault MMU := do
  if cfg.PerfectTLB then return c
  else
    let r := (c.tlb t).lookUp t.theVaddr
    let c := c.setTLB t r.2
    if r.1.isSome then return c
    else
      let c ← c.initializeMMU regs
      match c.thePageWalker.theMMU with
      | none => .error .nullMMU
      | some m =>
        let walked ← m.push_back_trace cfg.outOfRange mem 4 t
        let t' := (walked.map Walk.basic).getD t
        return { c.setTLB t ((c.tlb t).assign cfg.order t.theVaddr t'.thePaddr) with
          filled := c.filled ++ [⟨t.theVaddr, t'.thePaddr, t'⟩]
          used := c.used ++ [(c.resynced, m)] }

def step (c : MMU) : MMUEvent → Except MMUFault MMU
  | .request theVaddr aType hasInstruction => .ok (c.request (.create theVaddr aType hasInstruction))
  | .annul id => .ok (c.setItem id { c.item id with theAnnul := true })
  | .memoryReply id value => .ok (c.memoryReply id value)
  | .drive => c.drive cfg
  | .resync regs => c.resyncMMU regs
  | .TLBReqIn theVaddr aType regs mem => c.TLBReqIn cfg (.create theVaddr aType false) regs mem

end MMU

end nMMU
