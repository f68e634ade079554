import Flexus.CmpCache.Message

/-!
# The mapper between the components and the network

Each node of the network has a port for its caches, one for its directory and one for its memory
controller.
-/

namespace nSplitDestinationMapper

open nCMPCache (MemoryMessage MemoryMessageType DestinationType)

def NUM_VC : Nat := 3

def NUM_PORTS : Nat := 3

inductive VC where
  | REPLY_VC | SNOOP_VC | REQUEST_VC
  deriving DecidableEq, Repr

def VC.index : VC → Nat
  | REPLY_VC => 0
  | SNOOP_VC => 1
  | REQUEST_VC => 2

def CACHE_PORT : Nat := 0

def DIR_PORT : Nat := 1

def MEM_PORT : Nat := 2

inductive DirLocation_t where
  | eDistributed | eAtMemory
  deriving DecidableEq, Repr

/-- The parameters of the mapper, with the locations as the numbers of the list in the text.
    The width of the system counts when no number of cores is given. -/
structure Config where
  Cores : Nat
  systemWidth : Nat
  MemControllers : Nat
  Directories : Nat
  Banks : Nat
  DirInterleaving : Nat
  MemInterleaving : Nat
  DirXORShift : Int
  MemXORShift : Int
  DirLocation : DirLocation_t
  MemLocation : List Int
  MemReplyToDir : Bool
  MemAcksNeedData : Bool
  TwoPhaseWB : Bool
  LocalDir : Bool
  systemWidth_pos : 0 < systemWidth
  directories_lt : Directories < 2 ^ 31
  dirInterleaving_lt : DirInterleaving < 2 ^ 31

/-- An element of a vector. `none` is an access outside of it. -/
def at? (l : List Int) (i : Int) : Option Int := if 0 ≤ i then l[i.toNat]? else none

def store? (l : List Int) (i v : Int) : Option (List Int) :=
  if 0 ≤ i ∧ i.toNat < l.length then some (l.set i.toNat v) else none

/-- An index map from the components of a kind to network ports, and the reverse map from
    nodes to the components. -/
structure PortMap where
  index : List Int
  reverse : List Int
  deriving DecidableEq, Repr

namespace PortMap

/-- No component has a port yet. -/
def unplaced (components nodes : Nat) : PortMap where
  index := List.replicate components (-1)
  reverse := List.replicate nodes (-1)

/-- Put a component at a node, whose port has the given offset. -/
def place (offset : Int) (i : Nat) (loc : Int) (p : PortMap) : Option PortMap := do
  let index ← store? p.index i (loc + offset)
  let reverse ← store? p.reverse loc i
  return { index := index, reverse := reverse }

end PortMap

structure Maps where
  theMem : PortMap
  theDir : PortMap
  deriving DecidableEq, Repr

/-- Why a configuration is not accepted, or is accepted and damages memory. -/
inductive InitFault where
  | assertion | outOfBounds
  deriving DecidableEq, Repr

def isPowerOfTwo (n : Nat) : Bool := n &&& (n - 1) == 0

namespace Config

variable (c : Config)

def theTotalNumCores : Nat := if c.Cores ≠ 0 then c.Cores else c.systemWidth

def theMemShift : Nat := c.MemInterleaving.log2

def theMemMask : Nat := c.MemControllers - 1

def theDirShift : Nat := c.DirInterleaving.log2

def theDirMask : Nat := c.Directories - 1

/-- The offset of the ports of a kind. -/
def offset (port : Nat) : Int := (port * c.theTotalNumCores : Nat)

/-- A directory at memory is placed with its controller. -/
def placeDirectory (i : Nat) (loc : Int) (p : PortMap) : Option PortMap :=
  if c.DirLocation = .eAtMemory then p.place (c.offset DIR_PORT) i loc else some p

/-- The loop over the memory controllers, from the given one on. -/
def placeControllers : Nat → List Int → Maps → Option Maps
  | _, [], m => some m
  | i, loc :: locs, m => do
    let mem ← m.theMem.place (c.offset MEM_PORT) i loc
    let dir ← c.placeDirectory i loc m.theDir
    placeControllers (i + 1) locs { theMem := mem, theDir := dir }

/-- Every node has the directory of its own index. -/
def distributed : PortMap where
  index := (List.range c.Directories).map fun (i : Nat) => (i : Int) + c.offset DIR_PORT
  reverse := (List.range c.Directories).map fun (i : Nat) => (i : Int)

def init : Except InitFault Maps :=
  if ¬ (isPowerOfTwo c.MemControllers ∧ isPowerOfTwo c.Directories ∧ isPowerOfTwo c.MemInterleaving ∧
      isPowerOfTwo c.DirInterleaving ∧ c.Banks ≤ c.Directories ∧
      c.MemLocation.length = c.MemControllers) then .error .assertion
  else
    match c.placeControllers 0 c.MemLocation
      { theMem := .unplaced c.MemControllers c.theTotalNumCores
        theDir := .unplaced c.Directories c.theTotalNumCores } with
    | none => .error .outOfBounds
    | some m =>
      match c.DirLocation with
      | .eAtMemory => .ok m
      | .eDistributed =>
        if c.Directories = c.theTotalNumCores then .ok { m with theDir := c.distributed }
        else .error .assertion

/-! ## The homes of an address -/

/-- The directory of an address. -/
def getDirectoryLocation (anAddress : Nat) : Nat :=
  if 0 < c.DirXORShift then
    ((anAddress >>> c.theDirShift) ^^^ (anAddress >>> c.DirXORShift.toNat)) &&& c.theDirMask
  else ((anAddress >>> c.theDirShift) &&& c.theDirMask) % c.Banks

def getMemoryLocation (anAddress : Nat) : Nat :=
  if 0 < c.MemXORShift then
    ((anAddress >>> c.theMemShift) ^^^ (anAddress >>> c.MemXORShift.toNat)) &&& c.theMemMask
  else (anAddress >>> c.theMemShift) &&& c.theMemMask

end Config

/-! ## Messages -/

/-- The inputs from the components. -/
inductive Input where
  | ICacheRequestIn | ICacheSnoopIn | ICacheReplyIn | CacheRequestIn | CacheSnoopIn | CacheReplyIn
  | DirRequestIn | DirSnoopIn | DirReplyIn | MemoryIn
  deriving DecidableEq, Repr

/-- The outputs to the components. -/
inductive Output where
  | DirRequestOut (index : Nat) | DirSnoopOut (index : Nat) | DirReplyOut (index : Nat)
  | CacheSnoopOut (index : Nat) | CacheReplyOut (index : Nat)
  | ICacheSnoopOut (index : Nat) | ICacheReplyOut (index : Nat)
  | MemoryOut (index : Nat)
  deriving DecidableEq, Repr

/-- Who a message is for. A core names its data cache by twice its index, and its instruction
    cache by one more. -/
structure DestinationMessage where
  type : DestinationType
  requester : Int := -1
  directory : Int := -1
  remote_directory : Int := -1
  source : Int := -1
  memory : Int := -1
  other : Int := -1
  deriving DecidableEq, Repr

structure MemoryTransport where
  msg : MemoryMessage
  dest : Option DestinationMessage
  deriving DecidableEq, Repr

structure NetworkMessage where
  src : Int
  dest : Int
  src_port : Int
  dst_port : Int
  vc : VC
  deriving DecidableEq, Repr

namespace Config

variable (c : Config) (m : Maps)

/-- The port of the component that a message is for. A multicast message was split into single
    ones before, so that its type is an assertion failure. -/
def buildNetworkMessage (dest : DestinationMessage) (aSrc : Int) (aVC : VC) : Option NetworkMessage :=
  let netTo (dest dst_port : Int) : NetworkMessage :=
    { src := aSrc, dest := dest, src_port := 0, dst_port := dst_port, vc := aVC }
  match dest.type with
  | .Requester => some (netTo (dest.requester / 2) (dest.requester % 2))
  | .Directory =>
    if c.LocalDir = true ∧ 0 ≤ dest.requester then
      (at? m.theDir.index (dest.requester / 2)).map (netTo · 0)
    else if 0 ≤ dest.directory then (at? m.theDir.index dest.directory).map (netTo · 0)
    else none
  | .RemoteDirectory => (at? m.theDir.index dest.remote_directory).map (netTo · 0)
  | .Memory => (at? m.theMem.index dest.memory).map (netTo · 0)
  | .Source => some (netTo (dest.source / 2) (dest.source % 2))
  | .Other => some (netTo (dest.other / 2) (dest.other % 2))
  | .Multicast => none

/-! ## What the components send -/

/-- A cache's message without a destination goes to the directory. -/
def homeOf (requester : Int) (address : Nat) : DestinationMessage where
  type := .Directory
  requester := requester
  directory := c.getDirectoryLocation address

def fillDirectory (address : Nat) (dest : DestinationMessage) : DestinationMessage :=
  if dest.directory = -1 then { dest with directory := c.getDirectoryLocation address } else dest

def fillRequester (requester : Int) (dest : DestinationMessage) : DestinationMessage :=
  if dest.requester = -1 then { dest with requester := requester } else dest

/-- The destination of a request from a cache. -/
def requestDestination (requester : Int) (t : MemoryTransport) : DestinationMessage :=
  let dest := match t.dest with
    | none => c.homeOf requester t.msg.address
    | some dest => c.fillDirectory t.msg.address dest
  { fillRequester requester dest with memory := c.getMemoryLocation t.msg.address }

/-- The destination of a snoop message from a cache. -/
def snoopDestination (requester : Int) (t : MemoryTransport) : DestinationMessage :=
  let dest := match t.dest with
    | none => { c.homeOf requester t.msg.address with memory := c.getMemoryLocation t.msg.address }
    | some dest =>
      if dest.memory = -1 then { dest with memory := c.getMemoryLocation t.msg.address } else dest
  fillRequester requester (c.fillDirectory t.msg.address dest)

def buildReplyDestination (address : Nat) (node : Int) : DestinationMessage :=
  { c.homeOf node address with memory := c.getMemoryLocation address }

/-- A reply goes to the directory or to the requester by its type. -/
def adjustReplyDestination (msg : MemoryMessageType) (dest : DestinationMessage) :
    Option DestinationMessage :=
  match msg with
  | .EvictClean | .EvictWritable | .EvictDirty | .ReadAck | .FetchAck | .ReadAckDirty
  | .FetchAckDirty | .WriteAck | .UpgradeAck | .NASAck | .WriteRetry =>
    some { dest with type := .Directory }
  | .FwdNAck => some (if c.TwoPhaseWB then dest else { dest with type := .Directory })
  | .FwdReply | .FwdReplyOwned | .FwdReplyWritable | .FwdReplyDirty =>
    some { dest with type := .Requester }
  | .InvalidateAck | .InvalidateNAck | .InvUpdateAck =>
    some { dest with type := if dest.requester = -1 then .Directory else .Requester }
  | .ProtocolMessage =>
    some (if dest.type = .Requester then { dest with type := .Directory } else dest)
  | _ => none

/-- The acknowledgements that a cache may send without a destination. -/
def isAckType : MemoryMessageType → Bool
  | .ReadAck | .FetchAck | .WriteAck | .UpgradeAck | .NASAck => true
  | _ => false

def replyDestination (requester : Int) (t : MemoryTransport) : Option DestinationMessage :=
  match t.dest with
  | none =>
    if t.msg.isEvictType ∨ isAckType t.msg.type ∨ t.msg.type = .ProtocolMessage then
      some (c.buildReplyDestination t.msg.address requester)
    else none
  | some dest => c.adjustReplyDestination t.msg.type (c.fillDirectory t.msg.address dest)

/-- Send a message from a node. -/
def send (aSrc src_port : Int) (vc : VC) (msg : MemoryMessage) (dest : DestinationMessage) :
    Option (MemoryTransport × NetworkMessage) :=
  (c.buildNetworkMessage m dest aSrc vc).map fun net =>
    ({ msg := msg, dest := some dest }, { net with src_port := src_port })

def pushICacheRequestIn (anIndex : Nat) (t : MemoryTransport) : Option (MemoryTransport × NetworkMessage) :=
  c.send m anIndex 1 .REQUEST_VC t.msg (c.requestDestination (2 * anIndex + 1) t)

def pushICacheSnoopIn (anIndex : Nat) (t : MemoryTransport) : Option (MemoryTransport × NetworkMessage) :=
  c.send m anIndex 1 .SNOOP_VC t.msg (c.snoopDestination (2 * anIndex + 1) t)

def pushICacheReplyIn (anIndex : Nat) (t : MemoryTransport) : Option (MemoryTransport × NetworkMessage) :=
  (c.replyDestination (2 * anIndex + 1) t).bind (c.send m anIndex 1 .REPLY_VC t.msg)

def pushCacheRequestIn (anIndex : Nat) (t : MemoryTransport) : Option (MemoryTransport × NetworkMessage) :=
  c.send m anIndex 0 .REQUEST_VC t.msg (c.requestDestination (2 * anIndex) t)

def pushCacheSnoopIn (anIndex : Nat) (t : MemoryTransport) : Option (MemoryTransport × NetworkMessage) :=
  c.send m anIndex 0 .SNOOP_VC t.msg (c.snoopDestination (2 * anIndex) t)

def pushCacheReplyIn (anIndex : Nat) (t : MemoryTransport) : Option (MemoryTransport × NetworkMessage) :=
  (c.replyDestination (2 * anIndex) t).bind (c.send m anIndex 0 .REPLY_VC t.msg)

/-- A message from a directory has a destination. -/
def pushDirRequestIn (anIndex : Nat) (t : MemoryTransport) : Option (MemoryTransport × NetworkMessage) := do
  let dest ← t.dest
  let node ← at? m.theDir.index anIndex
  c.send m node 0 .REQUEST_VC t.msg dest

def pushDirSnoopIn (anIndex : Nat) (t : MemoryTransport) : Option (MemoryTransport × NetworkMessage) := do
  let dest ← t.dest
  let node ← at? m.theDir.index anIndex
  c.send m node 0 .SNOOP_VC t.msg
    (c.fillDirectory t.msg.address { dest with memory := c.getMemoryLocation t.msg.address })

def pushDirReplyIn (anIndex : Nat) (t : MemoryTransport) : Option (MemoryTransport × NetworkMessage) := do
  let dest ← t.dest
  let node ← at? m.theDir.index anIndex
  c.send m node 0 .REPLY_VC t.msg dest

/-- Memory replies to the directory or to the requester. -/
def pushMemoryIn (anIndex : Nat) (t : MemoryTransport) : Option (MemoryTransport × NetworkMessage) := do
  let dest ← t.dest
  let node ← at? m.theMem.index anIndex
  if c.MemReplyToDir then c.send m node 0 .REPLY_VC t.msg { dest with type := .Directory }
  else
    let msg := if c.MemAcksNeedData then { t.msg with ackRequired := true, ackRequiresData := true }
      else t.msg
    c.send m node 0 .REPLY_VC msg { dest with type := .Requester }

def push : Input → Nat → MemoryTransport → Option (MemoryTransport × NetworkMessage)
  | .ICacheRequestIn => c.pushICacheRequestIn m
  | .ICacheSnoopIn => c.pushICacheSnoopIn m
  | .ICacheReplyIn => c.pushICacheReplyIn m
  | .CacheRequestIn => c.pushCacheRequestIn m
  | .CacheSnoopIn => c.pushCacheSnoopIn m
  | .CacheReplyIn => c.pushCacheReplyIn m
  | .DirRequestIn => c.pushDirRequestIn m
  | .DirSnoopIn => c.pushDirSnoopIn m
  | .DirReplyIn => c.pushDirReplyIn m
  | .MemoryIn => c.pushMemoryIn m

/-! ## What the network delivers -/

/-- The directory of a node, if there is an output for it. -/
def dirOf (node : Nat) : Option Nat := do
  let dir ← m.theDir.reverse[node]?
  if c.Banks = 0 then none
  else
    let dir_index := dir.tmod c.Banks
    if 0 ≤ dir_index ∧ dir_index < c.Directories then some dir_index.toNat else none

def memOf (node : Nat) : Option Nat := do
  let mem_index ← m.theMem.reverse[node]?
  if 0 ≤ mem_index ∧ mem_index < c.MemControllers then some mem_index.toNat else none

/-- What arrives at a port of the first kind of network interfaces. -/
def FromNIC0 (node port : Nat) (vc : VC) : Option Output :=
  if port = CACHE_PORT then
    if node < c.Cores then
      match vc with
      | .REQUEST_VC => none
      | .SNOOP_VC => some (.CacheSnoopOut node)
      | .REPLY_VC => some (.CacheReplyOut node)
    else none
  else if port = DIR_PORT then
    (c.dirOf m node).map fun dir_index =>
      match vc with
      | .REQUEST_VC => .DirRequestOut dir_index
      | .SNOOP_VC => .DirSnoopOut dir_index
      | .REPLY_VC => .DirReplyOut dir_index
  else if port = MEM_PORT then (c.memOf m node).map .MemoryOut
  else none

/-- The second kind of network interfaces is there for the instruction caches. -/
def FromNIC1 (node port : Nat) (vc : VC) : Option Output :=
  if port = CACHE_PORT ∧ node < c.Cores then
    match vc with
    | .REQUEST_VC => none
    | .SNOOP_VC => some (.ICacheSnoopOut node)
    | .REPLY_VC => some (.ICacheReplyOut node)
  else none

/-- A network port that the mapper has. -/
def ValidPort (dest : Int) : Prop := 0 ≤ dest ∧ dest < (NUM_PORTS * c.Cores : Nat)

instance (dest : Int) : Decidable (c.ValidPort dest) := inferInstanceAs (Decidable (_ ∧ _))

/-- The network carries a message to the port it is for, on its virtual channel. -/
def deliver (net : NetworkMessage) : Option Output :=
  if c.ValidPort net.dest then
    let anIndex := net.dest.toNat * NUM_VC + net.vc.index
    let port := anIndex / (c.theTotalNumCores * NUM_VC)
    let node := (anIndex / NUM_VC) % c.theTotalNumCores
    if net.dst_port = 0 then c.FromNIC0 m node port net.vc
    else c.FromNIC1 node port net.vc
  else none

end Config

end nSplitDestinationMapper
