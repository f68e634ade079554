import Flexus.SplitDestinationMapper.Ports
import Flexus.Lib.BitFields

/-!
# Messages reach whom they name

A message names a directory bank, a memory controller or a cache.
-/

namespace nSplitDestinationMapper

open nCMPCache (MemoryMessage MemoryMessageType DestinationType)

/-- Who can be named by a message. -/
inductive Component where
  | DirectoryBank (index : Nat)
  | MemoryController (index : Nat)
  | DataCache (core : Nat)
  | InstructionCache (core : Nat)
  deriving DecidableEq, Repr

/-- The output to a component for messages of a virtual channel. A cache has none for
    requests. -/
def Component.output : Component → VC → Option Output
  | .DirectoryBank index, .REQUEST_VC => some (.DirRequestOut index)
  | .DirectoryBank index, .SNOOP_VC => some (.DirSnoopOut index)
  | .DirectoryBank index, .REPLY_VC => some (.DirReplyOut index)
  | .MemoryController index, _ => some (.MemoryOut index)
  | .DataCache core, .SNOOP_VC => some (.CacheSnoopOut core)
  | .DataCache core, .REPLY_VC => some (.CacheReplyOut core)
  | .InstructionCache core, .SNOOP_VC => some (.ICacheSnoopOut core)
  | .InstructionCache core, .REPLY_VC => some (.ICacheReplyOut core)
  | _, .REQUEST_VC => none

/-- The cache that a number stands for. -/
def cacheOf (number : Int) : Option Component :=
  if number < 0 then none
  else if number % 2 = 0 then some (.DataCache (number / 2).toNat)
  else some (.InstructionCache (number / 2).toNat)

def homeNamed (make : Nat → Component) (number : Int) : Option Component :=
  if number < 0 then none else some (make number.toNat)

/-- Whom a message names. -/
def DestinationMessage.named (dest : DestinationMessage) : Option Component :=
  match dest.type with
  | .Requester => cacheOf dest.requester
  | .Directory => homeNamed .DirectoryBank dest.directory
  | .RemoteDirectory => homeNamed .DirectoryBank dest.remote_directory
  | .Source => cacheOf dest.source
  | .Memory => homeNamed .MemoryController dest.memory
  | .Other => cacheOf dest.other
  | .Multicast => none

namespace Config

variable (c : Config) (m : Maps)

/-- The components that messages may name: those there are, and the directories and memory
    controllers to which the addresses are mapped. -/
def Has : Component → Prop
  | .DirectoryBank index => index < c.Banks ∨ ∃ a < 2 ^ 64, c.getDirectoryLocation a = index
  | .MemoryController index => index < c.MemControllers ∨ ∃ a < 2 ^ 64, c.getMemoryLocation a = index
  | .DataCache core => core < c.theTotalNumCores
  | .InstructionCache core => core < c.theTotalNumCores

/-- Every message reaches whom it names, through a port there is. -/
def Delivers : Prop :=
  ∀ (dest : DestinationMessage) (aSrc : Int) (vc : VC) (target : Component) (out : Output),
    dest.named = some target → c.Has target → dest.requester < 2 * c.theTotalNumCores → target.output vc = some out →
      ∃ net, c.buildNetworkMessage m dest aSrc vc = some net ∧ c.ValidPort net.dest ∧ c.deliver m net = some out

/-- Whether there is a component at an input. -/
def Sends : Input → Nat → Prop
  | .DirRequestIn, i | .DirSnoopIn, i | .DirReplyIn, i => i < c.Banks
  | .MemoryIn, i => i < c.MemControllers
  | _, i => i < c.theTotalNumCores

/-- A destination with no other homes than those of an address. -/
structure Fits (a : Nat) (dest : DestinationMessage) : Prop where
  directory : dest.directory = -1 ∨ dest.directory = c.getDirectoryLocation a
  memory : dest.memory = -1 ∨ dest.memory = c.getMemoryLocation a
  requester : dest.requester < 2 * c.theTotalNumCores

def IsFor (a : Nat) (t : MemoryTransport) : Prop :=
  t.msg.address = a ∧ ∀ dest, t.dest = some dest → c.Fits a dest

/-- All messages for an address that are sent to the directory reach one bank, and all that are
    sent to memory reach one controller. -/
def AgreesOnHomes : Prop :=
  ∀ a < 2 ^ 64, ∃ bank controller : Nat, ∀ (input : Input) (i : Nat) (t t' : MemoryTransport) (net : NetworkMessage),
    c.Sends input i → c.IsFor a t → c.push m input i t = some (t', net) →
      ∀ dest, t'.dest = some dest →
        (dest.type = .Directory → c.deliver m net = (Component.DirectoryBank bank).output net.vc) ∧
          (dest.type = .Memory → c.deliver m net = (Component.MemoryController controller).output net.vc)

/-- The mapper is initialized without touching memory that is not its own, and messages reach
    whom they name. -/
def Sound : Prop := ∃ m, c.init = .ok m ∧ c.Delivers m ∧ c.AgreesOnHomes m

/-- The controllers are at different nodes there are. Directories at memory are at least the
    banks, and no fewer than the controllers. The hash leads to banks only. A local directory
    is the only bank, and each core has one. -/
structure WellPlaced : Prop where
  cores : c.Cores ≠ 0
  banks : 0 < c.Banks
  controllers : 0 < c.MemControllers
  inside : ∀ loc ∈ c.MemLocation, 0 ≤ loc ∧ loc < c.Cores
  distinct : c.MemLocation.Nodup
  atMemory : c.DirLocation = .eAtMemory → c.Banks ≤ c.MemControllers ∧ c.MemControllers ≤ c.Directories
  hashed : 0 < c.DirXORShift → c.DirXORShift ≠ c.theDirShift → c.Banks = c.Directories
  localDir : c.LocalDir = true → c.Banks = 1 ∧ (c.DirLocation = .eAtMemory → c.Cores ≤ c.MemControllers)

end Config

/-! ## Delivery -/

namespace Config

variable {c : Config} {m : Maps} {net : NetworkMessage}

section Ports

variable {node : Nat} {vc : VC}

theorem FromNIC0_cache : c.FromNIC0 m node CACHE_PORT vc =
    if node < c.Cores then (Component.DataCache node).output vc else none := by
  unfold FromNIC0
  rw [if_pos rfl]
  cases vc <;> rfl

theorem FromNIC0_dir : c.FromNIC0 m node DIR_PORT vc =
    (c.dirOf m node).bind fun index => (Component.DirectoryBank index).output vc := by
  unfold FromNIC0
  rw [if_neg (by decide), if_pos rfl]
  cases vc <;> exact Option.map_eq_bind

theorem FromNIC0_mem : c.FromNIC0 m node MEM_PORT vc =
    (c.memOf m node).bind fun index => (Component.MemoryController index).output vc := by
  unfold FromNIC0
  rw [if_neg (by decide), if_neg (by decide), if_pos rfl]
  cases vc <;> exact Option.map_eq_bind

theorem FromNIC1_cache : c.FromNIC1 node CACHE_PORT vc =
    if node < c.Cores then (Component.InstructionCache node).output vc else none := by
  unfold FromNIC1
  simp only [true_and]
  cases vc <;> rfl

end Ports

/-- A port number takes a message to the node and the kind of port it was made of. -/
theorem deliver_at {node port : Nat} (hnode : node < c.theTotalNumCores) (hcores : c.Cores ≠ 0)
    (hport : port < NUM_PORTS) (hdest : net.dest = node + c.offset port) :
    c.ValidPort net.dest ∧ c.deliver m net =
      if net.dst_port = 0 then c.FromNIC0 m node port net.vc else c.FromNIC1 node port net.vc := by
  have hsame : c.theTotalNumCores = c.Cores := if_pos hcores
  have hdest' : net.dest = ((node + port * c.theTotalNumCores : Nat) : Int) := by
    rw [hdest, offset]
    push_cast
    rfl
  have hfit : node + port * c.theTotalNumCores < NUM_PORTS * c.theTotalNumCores := by
    have hle := Nat.mul_le_mul_right c.theTotalNumCores (Nat.succ_le_of_lt hport)
    rw [Nat.succ_mul] at hle
    omega
  have hvalid : c.ValidPort net.dest := by
    unfold ValidPort
    rw [hdest', ← hsame]
    omega
  have hvc : net.vc.index < NUM_VC := by
    cases net.vc <;> decide
  have hindex : (net.dest.toNat * NUM_VC + net.vc.index) / NUM_VC = node + port * c.theTotalNumCores := by
    rw [hdest', Int.toNat_natCast, Nat.add_comm, Nat.add_mul_div_right _ _ (by decide : 0 < NUM_VC),
      Nat.div_eq_of_lt hvc, Nat.zero_add]
  have hkind : (net.dest.toNat * NUM_VC + net.vc.index) / (c.theTotalNumCores * NUM_VC) = port := by
    rw [Nat.mul_comm c.theTotalNumCores, ← Nat.div_div_eq_div_mul, hindex,
      Nat.add_mul_div_right _ _ theTotalNumCores_pos, Nat.div_eq_of_lt hnode, Nat.zero_add]
  refine ⟨hvalid, ?_⟩
  unfold deliver
  rw [if_pos hvalid]
  dsimp only
  rw [hkind, hindex, Nat.add_mul_mod_self_right, Nat.mod_eq_of_lt hnode]

theorem getMemoryLocation_lt (hcontrollers : 0 < c.MemControllers) (a : Nat) :
    c.getMemoryLocation a < c.MemControllers := by
  have hmask : c.getMemoryLocation a ≤ c.theMemMask := by
    unfold getMemoryLocation
    split <;> exact Nat.and_le_right
  unfold theMemMask at hmask
  omega

theorem WellPlaced.getDirectoryLocation_lt (h : c.WellPlaced) (a : Nat) :
    c.getDirectoryLocation a < c.Banks := by
  have hbanks := h.banks
  unfold getDirectoryLocation
  split
  · next hxor =>
    by_cases hsame : c.DirXORShift = c.theDirShift
    · rw [hsame, Int.toNat_natCast, Nat.xor_self, Nat.zero_and]
      exact hbanks
    · have hmask : ((a >>> c.theDirShift) ^^^ (a >>> c.DirXORShift.toNat)) &&& c.theDirMask ≤ c.theDirMask :=
        Nat.and_le_right
      have hall := h.hashed hxor hsame
      unfold theDirMask at hmask ⊢
      omega
  · exact Nat.mod_lt _ hbanks

/-- What is sent to the port of a memory controller reaches it. -/
theorem WellPlaced.reaches_controller (h : c.WellPlaced) (hleads : c.Leads m) {i : Nat} (hi : i < c.MemControllers) :
    ∃ dest, at? m.theMem.index i = some dest ∧ ∀ net : NetworkMessage, net.dest = dest → net.dst_port = 0 →
      c.ValidPort net.dest ∧ c.deliver m net = (Component.MemoryController i).output net.vc := by
  obtain ⟨node, hnode, hindex, hreverse⟩ := hleads.mem.node h.distinct (hleads.length.symm ▸ hi)
  refine ⟨_, (at?_natCast _ _).trans hindex, fun net hdest hport => ?_⟩
  obtain ⟨hvalid, hdeliver⟩ := deliver_at (m := m) hnode h.cores (by decide : MEM_PORT < NUM_PORTS) hdest
  refine ⟨hvalid, ?_⟩
  have hmem : c.memOf m node = some i := by
    unfold memOf
    rw [hreverse, Option.bind_eq_bind, Option.bind_some, if_pos (by omega), Int.toNat_natCast]
  rw [hdeliver, if_pos hport, FromNIC0_mem, hmem, Option.bind_some]

/-- What is sent to the port of a directory reaches the bank that it is part of. -/
theorem WellPlaced.reaches_directory (h : c.WellPlaced) (hleads : c.Leads m) {k : Nat}
    (hmemory : c.DirLocation = .eAtMemory → k < c.MemControllers)
    (hdistributed : c.DirLocation = .eDistributed → k < c.Directories) :
    ∃ dest, at? m.theDir.index k = some dest ∧ ∀ net : NetworkMessage, net.dest = dest → net.dst_port = 0 →
      c.ValidPort net.dest ∧ c.deliver m net = (Component.DirectoryBank (k % c.Banks)).output net.vc := by
  have hplaced : ∃ node < c.theTotalNumCores,
      m.theDir.index[k]? = some (node + c.offset DIR_PORT) ∧ m.theDir.reverse[node]? = some (k : Int) := by
    cases hloc : c.DirLocation with
    | eAtMemory =>
      exact (hleads.atMemory hloc).node h.distinct (hleads.length.symm ▸ hmemory hloc)
    | eDistributed =>
      obtain ⟨hcores, hdir⟩ := hleads.distributed hloc
      have hk := hdistributed hloc
      refine ⟨k, hcores ▸ hk, ?_, ?_⟩
      · rw [hdir, distributed, List.getElem?_map, List.getElem?_range hk, Option.map_some]
      · rw [hdir, distributed, List.getElem?_map, List.getElem?_range hk, Option.map_some]
  obtain ⟨node, hnode, hindex, hreverse⟩ := hplaced
  refine ⟨_, (at?_natCast _ _).trans hindex, fun net hdest hport => ?_⟩
  obtain ⟨hvalid, hdeliver⟩ := deliver_at (m := m) hnode h.cores (by decide : DIR_PORT < NUM_PORTS) hdest
  refine ⟨hvalid, ?_⟩
  have hdir : c.dirOf m node = some (k % c.Banks) := by
    have hbanks := h.banks
    have hlt := Nat.mod_lt k hbanks
    have hle := hleads.banks_le
    have hmod : (k : Int).tmod c.Banks = ((k % c.Banks : Nat) : Int) := by
      rw [Int.tmod_eq_emod_of_nonneg (Int.natCast_nonneg k), Int.natCast_emod]
    unfold dirOf
    rw [hreverse, Option.bind_eq_bind, Option.bind_some, if_neg (by omega)]
    dsimp only
    rw [hmod, if_pos (by omega), Int.toNat_natCast]
  rw [hdeliver, if_pos hport, FromNIC0_dir, hdir, Option.bind_some]

/-- The number of a cache is a port number and the kind of its network interface. -/
theorem reaches_cache (hcores : c.Cores ≠ 0) {number : Int} {target : Component} {out : Output}
    (hcache : cacheOf number = some target) (hhas : c.Has target) (hdest : net.dest = number / 2)
    (hport : net.dst_port = number % 2) (hout : target.output net.vc = some out) :
    c.ValidPort net.dest ∧ c.deliver m net = some out := by
  unfold cacheOf at hcache
  split at hcache
  · cases hcache
  · next hpos =>
    have hsame : c.theTotalNumCores = c.Cores := if_pos hcores
    have hcore : (number / 2).toNat < c.theTotalNumCores := by
      split at hcache <;> (obtain rfl := Option.some.inj hcache; exact hhas)
    have hnode : net.dest = (number / 2).toNat + c.offset CACHE_PORT := by
      rw [hdest, offset, CACHE_PORT, Nat.zero_mul, Int.natCast_zero, Int.add_zero]
      omega
    obtain ⟨hvalid, hdeliver⟩ := deliver_at (m := m) hcore hcores (by decide : CACHE_PORT < NUM_PORTS) hnode
    refine ⟨hvalid, ?_⟩
    rw [hdeliver]
    split at hcache
    · next heven =>
      obtain rfl := Option.some.inj hcache
      rw [if_pos (hport.trans heven), FromNIC0_cache, if_pos (hsame ▸ hcore), hout]
    · next hodd =>
      obtain rfl := Option.some.inj hcache
      rw [if_neg (fun hzero => hodd (hport.symm.trans hzero)), FromNIC1_cache, if_pos (hsame ▸ hcore), hout]

end Config

end nSplitDestinationMapper
