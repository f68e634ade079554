import Flexus.FastCMPCache.SingleCMPProtocol

/-!
# The functional CMP cache

A request is served at once: the directory and the array are looked up, the protocol
says which of the sharers are snooped, memory is asked if no snoop was answered with the
block, and then the directory and the array are brought up to date.
-/

namespace nFastCMPCache

open nCMPCache (MemoryMessageType)
open nFastCache (CoherenceState_t AbstractCache blockOf)

/-- The options of the cache. The coherence unit is the block size of the array. -/
structure Config where
  SeparateID : Bool
  AlwaysMulticast : Bool

/-- The ports to the caches of the cores, for instructions and for data. -/
inductive SnoopPort where
  | SnoopOutI (core : Nat)
  | SnoopOutD (core : Nat)
  deriving DecidableEq, Repr

/-- A message that was sent on a snoop port. -/
structure Snoop where
  port : SnoopPort
  type : MemoryMessageType
  address : Nat
  deriving DecidableEq, Repr

/-- The cache, with what is behind its snoop ports and the messages it has sent. -/
structure Node {n : Nat} (D : AbstractDirectory n) {size : Nat} (A : AbstractCache size)
    (Above : Type) where
  theDirectory : D.Directory
  theCache : A.Cache
  above : Above
  snoops : List Snoop
  requests : List (MemoryMessageType × Nat)

/-- What is behind the snoop ports: a message changes it and comes back with the answer. -/
abbrev SnoopPorts (Above : Type) :=
  SnoopPort → MemoryMessageType → Nat → Above → Option (MemoryMessageType × Above)

def combineSnoopResponse (a b : MemoryMessageType) : Option MemoryMessageType :=
  if a = NoRequest then some b
  else if b = NoRequest then some a
  else if a = .InvUpdateAck ∨ b = .InvUpdateAck then some .InvUpdateAck
  else if a = .InvalidateAck ∨ b = .InvalidateAck then some .InvalidateAck
  else if a = .Invalidate ∨ b = .Invalidate then some .Invalidate
  else if a = .ReturnReplyDirty ∨ b = .ReturnReplyDirty then some .ReturnReplyDirty
  else if a = .ReturnReply ∨ b = .ReturnReply then some .ReturnReply
  else if a = .ReturnNAck ∧ b = .ReturnNAck then some .ReturnNAck
  else none

/-- The combined answer to the snoops so far, the reply, and which next state is used. -/
structure SnoopResult where
  response : MemoryMessageType
  our_response : MemoryMessageType
  use_ns1 : Bool
  deriving DecidableEq, Repr

def PrimaryAction.isTerminal (action : PrimaryAction) (response : MemoryMessageType) : Bool :=
  response == action.terminal_response.1 || response == action.terminal_response.2

section Requests

variable {n : Nat} {D : AbstractDirectory n} {size : Nat} {A : AbstractCache size} {Above : Type}
  (cfg : Config) (ports : SnoopPorts Above)

/-- The port to a sharer. Without separate caches the snoops of a request go to the data
    side. -/
def snoopPort (index : Nat) : SnoopPort :=
  if cfg.SeparateID then
    if index % 2 = 1 then .SnoopOutI (index / 2) else .SnoopOutD (index / 2)
  else .SnoopOutD index

/-- The ports on which a sharer is invalidated for an entry that the directory gives up. -/
def invalidatePorts (index : Nat) : List SnoopPort :=
  if cfg.SeparateID then
    if index % 2 = 1 then [.SnoopOutI (index / 2)] else [.SnoopOutD (index / 2)]
  else [.SnoopOutI index, .SnoopOutD index]

/-- Send a message on a snoop port. -/
def sendSnoop (port : SnoopPort) (type : MemoryMessageType) (address : Nat) (s : Node D A Above) :
    Option (MemoryMessageType × Node D A Above) := do
  let (answer, above) ← ports port type address s.above
  some (answer, { s with above := above, snoops := s.snoops ++ [⟨port, type, address⟩] })

/-- Send an `Invalidate` to every sharer of an entry that is given up. -/
def invalidateBlock (address : Nat) (sharers : SharingVector n) (s : Node D A Above) :
    Option (Node D A Above) :=
  (sharers.toList.flatMap fun index => invalidatePorts cfg index).foldlM
    (fun s port => (sendSnoop ports port .Invalidate address s).map Prod.snd) s

/-- Snoop the caches of a list in turn, but not the one that asks. Without multicast the
    first terminal answer is the last. -/
def sendSnoops (action : PrimaryAction) (anIndex : Fin n) (address addr : Nat) (multicast : Bool)
    (dir_entry : D.Entry) :
    List (Fin n) → SnoopResult → Node D A Above → Option (SnoopResult × Node D A Above)
  | [], result, s => some (result, s)
  | index :: rest, result, s =>
    if index = anIndex then
      sendSnoops action anIndex address addr multicast dir_entry rest result s
    else do
      let (answer, s) ← sendSnoop ports (snoopPort cfg index) action.snoop_type address s
      let response ← combineSnoopResponse result.response answer
      let second := response != action.terminal_response.1 && response == action.terminal_response.2
      let result := { response := response,
                      our_response := if second then action.response.2 else result.our_response,
                      use_ns1 := result.use_ns1 || second }
      let dir ← D.processSnoopResponse index answer dir_entry addr s.theDirectory
      let s := { s with theDirectory := dir }
      if !multicast && action.isTerminal response then some (result, s)
      else sendSnoops action anIndex address addr multicast dir_entry rest result s

/-- Several caches are snooped, not counting the one that asks. -/
def multipleSnoops (anIndex : Fin n) (snoop_list : List (Fin n)) : Bool :=
  decide (1 < snoop_list.length) && !(snoop_list.length == 2 && snoop_list.contains anIndex)

/-- The snoops of a request. The flag tells whether they were answered with success. -/
def snoopSharers (action : PrimaryAction) (anIndex : Fin n) (address addr : Nat)
    (sharers : SharingVector n) (dir_entry : D.Entry) (s : Node D A Above) :
    Option (SnoopResult × Bool × Node D A Above) :=
  let start : SnoopResult := { response := NoRequest, our_response := action.response.1, use_ns1 := false }
  if action.snoop_type = NoRequest then some (start, false, s)
  else do
    let snoop_list := sharers.toList
    let multicast := action.multicast || (cfg.AlwaysMulticast && multipleSnoops anIndex snoop_list)
    let (result, s) ← sendSnoops cfg ports action anIndex address addr multicast dir_entry snoop_list start s
    some (result, action.isTerminal result.response, s)

/-- Run the actions that the lookup of the directory left. -/
def runActions (extra_actions : List (D.Directory → Nat × SharingVector n)) (s : Node D A Above) :
    Option (Node D A Above) :=
  extra_actions.foldlM (fun s extra =>
    invalidateBlock cfg ports (extra s.theDirectory).1 (extra s.theDirectory).2 s) s

/-- Bring the array up to date; an allocation may evict blocks. -/
def updateCache (action : PrimaryAction) (nstate : CoherenceState_t) (lookup : A.LookupResult)
    (s : Node D A Above) : Option (Node D A Above) :=
  let state := A.getState s.theCache lookup
  if action.allocate then
    let (evicted, cache) := A.allocate s.theCache lookup nstate
    some { s with theCache := cache
                  requests := s.requests ++ evicted.map fun v => (SingleCMPProtocol.evict v.2, v.1) }
  else if nstate ≠ state then
    if state = .kInvalid then none
    else some { s with theCache := A.changeState s.theCache lookup nstate action.update false }
  else if action.update ∧ state ≠ .kInvalid then
    some { s with theCache := A.updateLRU s.theCache lookup }
  else some s

/-- The statistics know where a request of each type can be satisfied. -/
def isClassified (type : MemoryMessageType) (accessed_memory snoop_success : Bool) : Bool :=
  let request := type == .ReadReq || type == .FetchReq || type == .WriteReq ||
    type == .NonAllocatingStoreReq
  (!accessed_memory || request) && (!snoop_success || request || type == .UpgradeReq) &&
    (snoop_success || accessed_memory || request || type == .UpgradeReq || type.isEvictType)

/-- Serve a request of a cache. Memory's own answer to a request that is forwarded does
    not matter: the reply is the one that the protocol and the snoops gave. -/
def processRequest (anIndex : Fin n) (type : MemoryMessageType) (address : Nat) (s : Node D A Above) :
    Option (MemoryMessageType × Node D A Above) := do
  let addr := blockOf size address
  let (dir, sharers, state, dir_entry, extra_actions) := D.lookup anIndex addr type s.theDirectory
  let (cache, lookup) := A.lookup s.theCache addr
  let s := { s with theDirectory := dir, theCache := cache }
  let action ← SingleCMPProtocol.getAction type (A.getState s.theCache lookup) state
  let (result, snoop_success, s) ← snoopSharers cfg ports action anIndex address addr sharers dir_entry s
  let accessed_memory := !snoop_success && action.forward_request
  let s := if accessed_memory then { s with requests := s.requests ++ [(type, address)] } else s
  let s ← runActions cfg ports extra_actions s
  let dir ← D.respond anIndex type result.our_response dir_entry addr s.theDirectory
  let s := { s with theDirectory := dir }
  let nstate := if result.use_ns1 then action.next_state.2 else action.next_state.1
  let s ← updateCache action nstate lookup s
  if isClassified type accessed_memory snoop_success then some (result.our_response, s) else none

end Requests

end nFastCMPCache
