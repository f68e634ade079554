import Flexus.CmpCache.Reservations

/-!
# The assertions of the policy

The policy makes no assertion on reservations: whatever fault a handler stops with, it is
not one of the controller's ledger.
-/

namespace nCMPCache

open Runs

/-- The assertions on reservations. -/
def Fault.ofReservation : Fault → Bool
  | .snoopsLeft | .reservationsLeft | .reservationUnderflow | .reservationOverflow => true
  | _ => false

def allowed (f : Fault) : Prop := f.ofReservation = false

/-- The computation makes no assertion on reservations. -/
abbrev Unaccounted {α : Type} (x : Except Fault α) : Prop := Yields allowed x fun _ => True

section Rules

variable {α β : Type} {x : Except Fault α}

theorem Unaccounted.bind {f : α → Except Fault β} (hx : Unaccounted x) (hf : ∀ a, Unaccounted (f a)) :
    Unaccounted (x >>= f) :=
  Yields.bind hx fun a _ => hf a

theorem Unaccounted.map {f : α → β} (hx : Unaccounted x) : Unaccounted (f <$> x) :=
  Yields.map hx fun _ _ => trivial

theorem unaccounted_ok {a : α} : Unaccounted (.ok a : Except Fault α) := .ok trivial

theorem unaccounted_pure {a : α} : Unaccounted (pure a : Except Fault α) := .ok trivial

end Rules

namespace SimpleDirectoryState

variable {d : SimpleDirectoryState} {n : Int}

theorem unaccounted_set {b : Bool} : Unaccounted (d.set n b) := by
  unfold set
  split
  · exact unaccounted_ok
  · exact .error rfl

theorem unaccounted_joinSharer : Unaccounted (d.joinSharer n) := by
  unfold joinSharer
  split
  · exact unaccounted_ok
  · exact unaccounted_set

theorem unaccounted_dropSharer : Unaccounted (d.dropSharer n) := by
  unfold dropSharer
  split
  · exact unaccounted_set
  · exact unaccounted_ok

end SimpleDirectoryState

namespace Policy

variable {cfg : CMPCacheInfo} {s : Policy cfg} {p : ProcessEntry} {hasMaf mafWaiting : Bool} {a : MemoryAddress}
  {st : MAFState} {dir : SimpleDirectoryState} {reserve : Int} {req : MemoryMessage}

theorem unaccounted_allocate {arr : StdArray cfg} : Unaccounted (arr.allocate a) := by
  refine ⟨fun _ _ => trivial, fun f hf => ?_⟩
  rw [allocate_error hf]
  rfl

theorem unaccounted_place : Unaccounted (s.place p hasMaf a st) := by
  unfold place
  split
  · split
    · exact unaccounted_ok
    · exact .error rfl
  · exact unaccounted_ok

theorem unaccounted_stall : Unaccounted (s.stall p hasMaf a st) :=
  unaccounted_place.bind fun _ => unaccounted_pure

theorem unaccounted_activate : Unaccounted (s.activate p hasMaf a) :=
  unaccounted_place.bind fun _ => unaccounted_pure

theorem unaccounted_recoverBlock {e : EvictEntry} : Unaccounted (s.recoverBlock a e) :=
  unaccounted_allocate.bind fun _ => unaccounted_pure

theorem unaccounted_fillFromEvict : Unaccounted (s.fillFromEvict req) :=
  unaccounted_allocate.bind fun _ => unaccounted_pure

/-! ## Requests -/

theorem unaccounted_writeEvictData {fwd : Bool} : Unaccounted (writeEvictData reserve s p hasMaf fwd) := by
  unfold writeEvictData
  dsimp only
  split
  · split
    · exact unaccounted_fillFromEvict.bind fun _ => unaccounted_pure
    · split <;> exact unaccounted_ok
  · exact unaccounted_ok

theorem unaccounted_finishEvict {active fwd : Bool} : Unaccounted (s.finishEvict p active fwd) := by
  unfold finishEvict
  dsimp only
  split
  · split
    · exact .error rfl
    · refine SimpleDirectoryState.unaccounted_dropSharer.bind fun _ => ?_
      split
      · split
        · split
          · exact .error rfl
          · exact unaccounted_ok
        · exact unaccounted_ok
      · exact unaccounted_ok
  · split
    · exact SimpleDirectoryState.unaccounted_set.bind fun _ => unaccounted_pure
    · exact unaccounted_ok

theorem unaccounted_doEvict : Unaccounted (doEvict reserve s p hasMaf) := by
  unfold doEvict
  split
  · exact unaccounted_stall
  · split
    · exact unaccounted_writeEvictData.bind fun _ => unaccounted_finishEvict
    · exact unaccounted_finishEvict

theorem unaccounted_serveUntrackedStore : Unaccounted (s.serveUntrackedStore p hasMaf a) := by
  unfold serveUntrackedStore
  split <;> exact unaccounted_activate

theorem unaccounted_serveFromMemory : Unaccounted (s.serveFromMemory p hasMaf mafWaiting a) := by
  unfold serveFromMemory
  split
  · exact unaccounted_stall
  · split
    · exact unaccounted_activate
    case h_2 | h_3 => exact unaccounted_activate.bind fun _ => unaccounted_pure
    · exact unaccounted_activate
    · exact .error rfl

theorem unaccounted_serveRead : Unaccounted (s.serveRead p hasMaf mafWaiting a dir) := by
  unfold serveRead
  split
  · split
    · exact unaccounted_stall
    · exact unaccounted_activate.bind fun _ => unaccounted_pure
  · split
    · exact unaccounted_stall
    · exact SimpleDirectoryState.unaccounted_set.bind fun _ => unaccounted_activate

theorem unaccounted_serveWrite : Unaccounted (s.serveWrite p hasMaf a dir) := by
  unfold serveWrite
  split
  · exact SimpleDirectoryState.unaccounted_set.bind fun _ => unaccounted_activate
  · unfold invalidateSharers
    dsimp only
    split
    · exact .error rfl
    · exact unaccounted_activate

theorem unaccounted_serveUpgrade : Unaccounted (s.serveUpgrade p hasMaf a dir) := by
  unfold serveUpgrade
  split
  · split
    · exact .error rfl
    · exact unaccounted_activate
  · exact unaccounted_activate

theorem unaccounted_serveStore : Unaccounted (s.serveStore p hasMaf a) := by
  unfold serveStore
  split <;> exact unaccounted_activate

theorem unaccounted_serveRequest : Unaccounted (s.serveRequest p hasMaf mafWaiting a) := by
  unfold serveRequest
  split
  · split
    · exact unaccounted_serveUntrackedStore
    · exact .error rfl
  · dsimp only
    split
    · exact unaccounted_serveFromMemory
    · split
      case h_1 | h_2 => exact unaccounted_serveRead
      · exact unaccounted_serveWrite
      · exact unaccounted_serveUpgrade
      · exact unaccounted_serveStore
      · exact .error rfl

theorem unaccounted_claimCacheBlock : Unaccounted (s.claimCacheBlock a) := by
  unfold claimCacheBlock
  split
  · split
    · split
      · exact unaccounted_ok
      · exact unaccounted_recoverBlock.map
    · exact unaccounted_ok
  · exact unaccounted_ok

theorem unaccounted_startRequest : Unaccounted (startRequest reserve s p hasMaf mafWaiting) := by
  unfold startRequest
  dsimp only
  split
  · exact unaccounted_doEvict
  · split
    · exact unaccounted_ok
    · split
      · exact unaccounted_stall
      · next s₁ _ =>
        have hclaim := unaccounted_claimCacheBlock (s := s₁) (a := cfg.blockAddress p.transport.msg.address)
        split
        · next f hf => exact .error (hclaim.2 f hf)
        · exact unaccounted_stall
        · exact unaccounted_serveRequest

theorem unaccounted_doRequest : Unaccounted (doRequest reserve s p hasMaf) := by
  unfold doRequest
  dsimp only
  split
  · exact unaccounted_startRequest
  · split
    case h_1 | h_2 =>
      split
      · exact unaccounted_doEvict
      · exact unaccounted_stall
    · exact unaccounted_stall
    · split
      · exact unaccounted_stall
      · exact unaccounted_startRequest
    case h_5 | h_6 | h_7 => exact unaccounted_startRequest
    · exact .error rfl

/-! ## Replies -/

theorem unaccounted_matchingMAF {t : MemoryTransport} : Unaccounted (s.matchingMAF t) := by
  unfold matchingMAF
  split
  · exact unaccounted_ok
  · exact .error rfl

theorem unaccounted_firstMAF {type : MemoryMessageType} : Unaccounted (s.firstMAF a type) := by
  unfold firstMAF
  split
  · split
    · exact unaccounted_ok
    · exact .error rfl
  · exact .error rfl

theorem unaccounted_makeRoom : Unaccounted (s.makeRoom a) := by
  unfold makeRoom
  split
  · split
    · exact .error rfl
    · exact unaccounted_allocate.bind fun _ => unaccounted_pure
  · exact unaccounted_ok

theorem unaccounted_completeInvalidate {d : DirEBEntry} {n : Int} :
    Unaccounted (s.completeInvalidate p d dir n) := by
  unfold completeInvalidate
  dsimp only
  split
  · split
    · exact .error rfl
    · exact unaccounted_ok
  · exact unaccounted_ok

theorem unaccounted_handleInvalidateAck : Unaccounted (s.handleInvalidateAck p) := by
  unfold handleInvalidateAck
  dsimp only
  split
  · exact .error rfl
  · refine SimpleDirectoryState.unaccounted_dropSharer.bind fun _ => ?_
    split
    · exact (unaccounted_makeRoom.bind fun _ => unaccounted_pure).bind fun _ => unaccounted_completeInvalidate
    · exact unaccounted_completeInvalidate

theorem unaccounted_handleReadAck : Unaccounted (s.handleReadAck p) := by
  refine unaccounted_matchingMAF.bind fun _ => ?_
  dsimp only
  split
  · exact .error rfl
  · refine SimpleDirectoryState.unaccounted_joinSharer.bind fun _ => ?_
    split
    · exact (unaccounted_makeRoom.bind fun _ => unaccounted_pure).bind fun _ => unaccounted_pure
    · exact unaccounted_pure

theorem unaccounted_handleOwnershipAck {type : MemoryMessageType} :
    Unaccounted (handleOwnershipAck type s p) := by
  refine unaccounted_firstMAF.bind fun _ => ?_
  dsimp only
  split
  · exact .error rfl
  · exact SimpleDirectoryState.unaccounted_set.bind fun _ => unaccounted_pure

theorem unaccounted_handleMemoryReply : Unaccounted (s.handleMemoryReply p) := by
  refine unaccounted_matchingMAF.bind fun _ => ?_
  dsimp only
  split
  · exact (unaccounted_makeRoom.bind fun _ => unaccounted_pure).bind fun _ => unaccounted_pure
  · exact unaccounted_pure

theorem unaccounted_handleFwdNAck : Unaccounted (s.handleFwdNAck p) := by
  unfold handleFwdNAck
  split
  · exact .error rfl
  · refine unaccounted_matchingMAF.bind fun _ => ?_
    have hrecover : Unaccounted (s.recoverCopy p.transport.msg.address) := by
      unfold recoverCopy
      split
      · split
        · split
          · exact unaccounted_ok
          · exact unaccounted_recoverBlock
        · exact unaccounted_ok
      · exact unaccounted_ok
    refine hrecover.bind fun _ => ?_
    unfold retryForward
    dsimp only
    split
    · split
      · exact .error rfl
      · exact unaccounted_ok
    · split <;> exact unaccounted_ok

theorem unaccounted_handleEvictAck : Unaccounted (s.handleEvictAck p) := by
  unfold handleEvictAck
  dsimp only
  split
  · exact .error rfl
  · split
    · exact .error rfl
    · exact unaccounted_ok

theorem unaccounted_handleReply : Unaccounted (s.handleReply p) := by
  unfold handleReply
  split
  case h_1 | h_2 => exact unaccounted_handleInvalidateAck
  case h_3 | h_4 | h_5 | h_6 => exact unaccounted_handleReadAck
  case h_7 => exact unaccounted_firstMAF.bind fun _ => unaccounted_pure
  case h_8 | h_9 => exact unaccounted_handleOwnershipAck
  case h_10 => exact unaccounted_matchingMAF.bind fun _ => unaccounted_pure
  case h_11 | h_12 | h_13 => exact unaccounted_handleMemoryReply
  case h_14 => exact unaccounted_handleFwdNAck
  case h_15 => exact unaccounted_handleEvictAck
  case h_16 => exact .error rfl

/-! ## The bank's own evictions -/

theorem unaccounted_getCacheEvictTransport : Unaccounted s.getCacheEvictTransport := by
  unfold getCacheEvictTransport
  split
  · exact .error rfl
  · refine Unaccounted.bind ?_ fun _ => unaccounted_pure
    unfold CacheEvictBuffer.firstNonPending
    split
    · exact unaccounted_ok
    · exact .error rfl

theorem unaccounted_handleIdleWork : Unaccounted (s.handleIdleWork p) := by
  unfold handleIdleWork
  split
  · split
    · exact unaccounted_getCacheEvictTransport.bind fun _ => unaccounted_pure
    · exact unaccounted_ok
  · exact unaccounted_ok

end Policy

end nCMPCache
