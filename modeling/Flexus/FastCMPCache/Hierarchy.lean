import Flexus.FastCache.InclusiveMESI
import Flexus.FastCMPCache.InfiniteDirectory

/-!
# Private caches over the functional CMP cache

Every index of the directory is that of one private cache.
-/

namespace nFastCMPCache

open nCMPCache (MemoryMessageType)
open nFastCache

/-- The options of the private caches. -/
structure PrivateConfig where
  CleanEvictions : Bool
  UsingTraces : Bool
  SnoopLRU : Bool

/-- The requests of a core. -/
inductive CoreRequest where
  | LoadReq | StoreReq | FetchReq | RMWReq | CmpxReq | NonAllocatingStoreReq
  deriving DecidableEq, Repr

def CoreRequest.type : CoreRequest → MemoryMessageType
  | LoadReq => .LoadReq
  | StoreReq => .StoreReq
  | FetchReq => .FetchReq
  | RMWReq => .RMWReq
  | CmpxReq => .CmpxReq
  | NonAllocatingStoreReq => .NonAllocatingStoreReq

/-- The cache that a snoop port leads to. Without separate caches there is none on the
    instruction side. -/
def cacheAt (n : Nat) (cfg : Config) (port : SnoopPort) : Option (Fin n) :=
  let index := match port with
    | .SnoopOutI core => if cfg.SeparateID then some (2 * core + 1) else none
    | .SnoopOutD core => if cfg.SeparateID then some (2 * core) else some core
  index.bind fun i => if h : i < n then some ⟨i, h⟩ else none

section Private

variable {n size : Nat} {A₁ A₂ : AbstractCache size} {D : AbstractDirectory n} (cfg : Config)
  (pcfg : PrivateConfig)

/-- A private cache serves a snoop. Nothing is cached above it: a snoop that it passes on
    comes back as it was. -/
def snoopIn (type : MemoryMessageType) (address : Nat) (c : A₁.Cache) :
    Option (MemoryMessageType × A₁.Cache) := do
  let tagset := blockOf size address
  let (c, lookup) := A₁.lookup c tagset
  let action ← InclusiveMESI.getSnoopAction pcfg.SnoopLRU (A₁.getState c lookup) type
  let c ← match action.nstate with
    | .SameState => some c
    | .S_State => some (A₁.changeState c lookup .kShared action.makeMRU action.makeLRU)
    | .I_State => some (A₁.changeState c lookup .kInvalid action.makeMRU action.makeLRU)
    | _ => none
  let answer := match action.resp with
    | some resp => resp
    | none => if type = .Invalidate then .InvalidateAck
      else if type = .Downgrade then .DowngradeAck else type
  some (answer, (A₁.lookup c tagset).1)

/-- The private caches as what is behind the snoop ports. -/
def snoopPorts : SnoopPorts (Fin n → A₁.Cache) := fun port type address above =>
  match cacheAt n cfg port with
  | none => some (type, above)
  | some i => do
    let (answer, c) ← snoopIn pcfg type address (above i)
    some (answer, Function.update above i c)

variable (D A₁ A₂) in
/-- The caches of the system with the directory. -/
abbrev System := Node D A₂ (Fin n → A₁.Cache)

def System.putCache (s : System A₁ A₂ D) (i : Fin n) (c : A₁.Cache) : System A₁ A₂ D :=
  { s with above := Function.update s.above i c }

/-- A private cache sends a message to the shared cache. -/
def forwardMessage (i : Fin n) (type : MemoryMessageType) (address : Nat) (s : System A₁ A₂ D) :
    Option (MemoryMessageType × System A₁ A₂ D) :=
  processRequest cfg (snoopPorts cfg pcfg) i type address s

/-- A block leaves a private cache. No core has it dirty. -/
def evict (i : Fin n) (s : System A₁ A₂ D) (v : Nat × CoherenceState_t) : Option (System A₁ A₂ D) :=
  let type := InclusiveMESI.evict false v.2
  if type = .EvictDirty ∨ pcfg.CleanEvictions then
    (forwardMessage cfg pcfg i type v.1 s).map Prod.snd
  else some s

/-- Allocate the block of a lookup; what it displaces is evicted before. -/
def allocate (i : Fin n) (lookup : A₁.LookupResult) (new_state : CoherenceState_t)
    (s : System A₁ A₂ D) : Option (System A₁ A₂ D) := do
  let s ← (A₁.allocate (s.above i) lookup new_state).1.foldlM (evict cfg pcfg i) s
  some (s.putCache i (A₁.allocate (s.above i) lookup new_state).2)

def updateLRU (i : Fin n) (lookup : A₁.LookupResult) (s : System A₁ A₂ D) : System A₁ A₂ D :=
  s.putCache i (A₁.updateLRU (s.above i) lookup)

def makeMRU (i : Fin n) (lookup : A₁.LookupResult) (new_state : CoherenceState_t)
    (s : System A₁ A₂ D) : System A₁ A₂ D :=
  s.putCache i (A₁.changeState (s.above i) lookup new_state true false)

/-- The state in which a block is allocated for a reply to a read. -/
def readState (is_load : Bool) (reply : MemoryMessageType) :
    Option (CoherenceState_t × MemoryMessageType) :=
  match reply with
  | .MissReply => some (.kShared, reply)
  | .MissReplyWritable => some (.kExclusive, reply)
  | .MissReplyDirty => some (if is_load then .kModified else .kExclusive, reply)
  | .FwdReplyOwned => some (.kOwned, .MissReply)
  | _ => none

/-- Carry an action out. The combinations of parameters that have no code fail. -/
def doCoherenceAction (action : CoherenceAction) (i : Fin n) (lookup : A₁.LookupResult)
    (type : MemoryMessageType) (address : Nat) (s : System A₁ A₂ D) :
    Option (MemoryMessageType × System A₁ A₂ D) :=
  match action with
  | ⟨.SendNone, false, .SameState, false, .NoResponse⟩ => some (type, s)
  | ⟨.SendNone, false, .SameState, true, .FillWritable⟩ => some (.MissReplyWritable, updateLRU i lookup s)
  | ⟨.SendNone, false, .DependState, true, .FillDirty⟩ =>
    some (.MissReplyDirty,
      if type = .LoadReq then updateLRU i lookup s else makeMRU i lookup .kExclusive s)
  | ⟨.SendNone, false, .SameState, true, .FillDirty⟩ => some (.MissReplyDirty, updateLRU i lookup s)
  | ⟨.SendNone, false, .E_State, true, .FillDirty⟩ => some (.MissReplyDirty, makeMRU i lookup .kExclusive s)
  | ⟨.SendNone, false, .SameState, true, .FillValid⟩ => some (.MissReply, updateLRU i lookup s)
  | ⟨.SendNone, false, .M_State, true, .FillWritable⟩ =>
    some (.MissReplyWritable, makeMRU i lookup .kModified s)
  | ⟨.SendNone, false, .SameState, true, .NoResponse⟩ => some (type, updateLRU i lookup s)
  | ⟨.SendUpgrade, false, .M_State, true, .FillWritable⟩ => do
    let (_, s) ← forwardMessage cfg pcfg i .UpgradeReq address s
    some (.MissReplyWritable, makeMRU i lookup .kModified s)
  | ⟨.SendUpgrade, false, .E_State, true, .FillWritable⟩ => do
    let (_, s) ← forwardMessage cfg pcfg i .UpgradeReq address s
    some (.MissReplyWritable, makeMRU i lookup .kExclusive s)
  | ⟨.SendNone, false, .M_State, true, .NoResponse⟩ => some (type, makeMRU i lookup .kModified s)
  | ⟨.SendNone, false, .E_State, true, .NoResponse⟩ => some (type, makeMRU i lookup .kExclusive s)
  | ⟨.SendUpgrade, false, .M_State, true, .NoResponse⟩ => do
    let (reply, s) ← forwardMessage cfg pcfg i .UpgradeReq address s
    some (reply, makeMRU i lookup .kModified s)
  | ⟨.SendUpgrade, false, .E_State, true, .NoResponse⟩ => do
    let (reply, s) ← forwardMessage cfg pcfg i .UpgradeReq address s
    some (reply, makeMRU i lookup .kExclusive s)
  | ⟨.SendRead, true, .DependState, true, .FillDepend⟩ => do
    let (reply, s) ← forwardMessage cfg pcfg i .ReadReq address s
    let (new_state, reply) ← readState (type = .LoadReq) reply
    let s ← allocate cfg pcfg i lookup new_state s
    some (reply, s)
  | ⟨.SendWrite, true, .M_State, true, .FillDepend⟩ => do
    let (reply, s) ← forwardMessage cfg pcfg i .WriteReq address s
    let s ← allocate cfg pcfg i lookup .kModified s
    some (reply, s)
  | ⟨.SendWrite, true, .E_State, true, .FillDepend⟩ => do
    let (reply, s) ← forwardMessage cfg pcfg i .WriteReq address s
    let s ← allocate cfg pcfg i lookup .kExclusive s
    some (reply, s)
  | ⟨.SendFetch, true, .S_State, true, .FillValid⟩ => do
    let (_, s) ← forwardMessage cfg pcfg i .FetchReq address s
    let s ← allocate cfg pcfg i lookup .kShared s
    some (.MissReply, s)
  | ⟨.SendFetch, true, .DependState, true, .FillValid⟩ => do
    let (reply, s) ← forwardMessage cfg pcfg i .FetchReq address s
    let s ← allocate cfg pcfg i lookup (if reply = .FwdReplyOwned then .kOwned else .kShared) s
    some (.MissReply, s)
  | ⟨.SendNAW, false, .SameState, false, .FillDepend⟩ => forwardMessage cfg pcfg i type address s
  | _ => none

/-- A private cache serves a request. -/
def requestIn (i : Fin n) (type : MemoryMessageType) (address : Nat) (s : System A₁ A₂ D) :
    Option (MemoryMessageType × System A₁ A₂ D) := do
  let access ← message2access type
  let (c, lookup) := A₁.lookup (s.above i) (blockOf size address)
  let s := s.putCache i c
  let action ← InclusiveMESI.getCoherenceAction pcfg.UsingTraces (A₁.getState c lookup) access
  doCoherenceAction cfg pcfg action i lookup type address s

/-- Requests of the cores, one after the other. -/
def run (requests : List (Fin n × CoreRequest × Nat)) (s : System A₁ A₂ D) :
    Option (System A₁ A₂ D) :=
  requests.foldlM (fun s r => (requestIn cfg pcfg r.1 r.2.1.type r.2.2 s).map Prod.snd) s

end Private

/-- All caches and the directory are empty. -/
def System.start {n size : Nat} (A₁ A₂ : AbstractCache size) : System A₁ A₂ (InfiniteDirectory n) where
  theDirectory := fun _ => none
  theCache := A₂.empty
  above := fun _ => A₁.empty
  snoops := []
  requests := []

end nFastCMPCache
