import Flexus.CmpCache.Message
import Flexus.FastCache.StdCache

/-!
# The protocol of the functional private caches

What a private cache does for a request or a snoop by the state of the block. The tables
are those of `InclusiveMESI`; an entry that has no action of its own fails an assertion.
-/

namespace nFastCache

open nCMPCache (MemoryMessageType)
open CoherenceState_t

inductive access_t where
  | kReadAccess | kWriteAccess | kFetchAccess | kUpgrade | kEvictClean | kEvictWritable
  | kEvictDirty | kStoreAccess | kNAWAccess
  deriving DecidableEq, Repr

/-- The access that a message asks for. The other messages fail an assertion. -/
def message2access (type : MemoryMessageType) : Option access_t :=
  match type with
  | .ReadReq => some .kReadAccess
  | .WriteReq => some .kWriteAccess
  | .FetchReq => some .kFetchAccess
  | .UpgradeReq => some .kUpgrade
  | .EvictClean => some .kEvictClean
  | .EvictWritable => some .kEvictWritable
  | .EvictDirty => some .kEvictDirty
  | .LoadReq => some .kReadAccess
  | .RMWReq | .CmpxReq | .StoreReq => some .kStoreAccess
  | .NonAllocatingStoreReq => some .kNAWAccess
  | _ => none

inductive Send where
  | SendNone | SendUpgrade | SendWrite | SendRead | SendFetch | SendNAW
  deriving DecidableEq, Repr

inductive NextState where
  | SameState | M_State | E_State | S_State | I_State | DependState
  deriving DecidableEq, Repr

inductive Fill where
  | FillWritable | FillValid | FillDepend | FillDirty | NoResponse
  deriving DecidableEq, Repr

/-- The parameters of an action. Whether it allocates and whether it updates the order of
    use are flags. -/
structure CoherenceAction where
  send : Send
  allocates : Bool
  nstate : NextState
  updatesLRU : Bool
  resp : Fill
  deriving DecidableEq, Repr

/-- What a cache does for a snoop. An answer that depends on the caches above is `none`. -/
structure SnoopAction where
  resp : Option MemoryMessageType
  doSnoop : Bool
  nstate : NextState
  makeMRU : Bool
  makeLRU : Bool
  deriving DecidableEq, Repr

namespace InclusiveMESI

open Send NextState Fill

def act (send : Send) (allocates : Bool) (nstate : NextState) (updatesLRU : Bool) (resp : Fill) :
    Option CoherenceAction :=
  some ⟨send, allocates, nstate, updatesLRU, resp⟩

/-- The actions for requests. With traces some requests are allowed that otherwise fail. -/
def getCoherenceAction (using_traces : Bool) (s : CoherenceState_t) (a : access_t) :
    Option CoherenceAction :=
  match s, a with
  | kModified, .kReadAccess => act SendNone false DependState true FillDirty
  | kModified, .kWriteAccess => act SendNone false E_State true FillDirty
  | kModified, .kStoreAccess => act SendNone false SameState true FillDirty
  | kModified, .kNAWAccess => act SendNone false SameState true FillDirty
  | kModified, .kFetchAccess => act SendNone false SameState true FillValid
  | kModified, .kUpgrade => act SendNone false E_State true FillDirty
  | kModified, .kEvictClean => act SendNone false SameState true NoResponse
  | kModified, .kEvictWritable => none
  | kModified, .kEvictDirty => none
  | kExclusive, .kReadAccess => act SendNone false SameState true FillValid
  | kExclusive, .kWriteAccess => act SendNone false SameState true FillWritable
  | kExclusive, .kStoreAccess => act SendNone false M_State true FillWritable
  | kExclusive, .kNAWAccess => act SendNone false M_State true FillWritable
  | kExclusive, .kFetchAccess => act SendNone false SameState true FillValid
  | kExclusive, .kUpgrade => act SendNone false SameState true FillWritable
  | kExclusive, .kEvictClean => act SendNone false SameState true NoResponse
  | kExclusive, .kEvictWritable => act SendNone false SameState true NoResponse
  | kExclusive, .kEvictDirty => act SendNone false M_State true NoResponse
  | kShared, .kReadAccess => act SendNone false SameState true FillValid
  | kShared, .kWriteAccess => act SendUpgrade false E_State true FillWritable
  | kShared, .kStoreAccess => act SendUpgrade false M_State true FillWritable
  | kShared, .kNAWAccess => act SendUpgrade false M_State true FillWritable
  | kShared, .kFetchAccess => act SendNone false SameState true FillValid
  | kShared, .kUpgrade => act SendUpgrade false E_State true FillWritable
  | kShared, .kEvictClean => act SendNone false SameState true NoResponse
  | kShared, .kEvictWritable => if using_traces then act SendNone false SameState true NoResponse else none
  | kShared, .kEvictDirty => if using_traces then act SendUpgrade false M_State true NoResponse else none
  | kInvalid, .kReadAccess => act SendRead true DependState true FillDepend
  | kInvalid, .kWriteAccess => act SendWrite true E_State true FillDepend
  | kInvalid, .kStoreAccess => act SendWrite true M_State true FillDepend
  | kInvalid, .kNAWAccess => act SendNAW false SameState false FillDepend
  | kInvalid, .kFetchAccess => act SendFetch true DependState true FillValid
  | kInvalid, .kUpgrade => if using_traces then act SendWrite true M_State true FillDepend else none
  | kInvalid, .kEvictClean => if using_traces then act SendNone false SameState false NoResponse else none
  | kInvalid, .kEvictWritable => if using_traces then act SendNone false SameState false NoResponse else none
  | kInvalid, .kEvictDirty => if using_traces then act SendNone false SameState false NoResponse else none
  | _, _ => none

/-- The actions for snoops. `DowngradeLRU` makes no difference to them. -/
def getSnoopAction (SnoopLRU : Bool) (s : CoherenceState_t) (t : MemoryMessageType) :
    Option SnoopAction :=
  match s, t with
  | kModified, .ReturnReq => some ⟨some .ReturnReplyDirty, false, S_State, false, SnoopLRU⟩
  | kExclusive, .ReturnReq => some ⟨some .ReturnReply, true, S_State, false, SnoopLRU⟩
  | kShared, .ReturnReq => some ⟨some .ReturnReply, false, SameState, false, false⟩
  | kInvalid, .ReturnReq => some ⟨some .ReturnNAck, false, SameState, false, false⟩
  | kModified, .Invalidate => some ⟨some .InvUpdateAck, true, I_State, false, true⟩
  | kExclusive, .Invalidate => some ⟨none, true, I_State, false, true⟩
  | kShared, .Invalidate => some ⟨some .InvalidateAck, true, I_State, false, true⟩
  | kInvalid, .Invalidate => some ⟨some .Invalidate, false, SameState, false, false⟩
  | kModified, .Downgrade => some ⟨some .DownUpdateAck, true, S_State, false, true⟩
  | kExclusive, .Downgrade => some ⟨none, true, S_State, false, true⟩
  | kShared, .Downgrade => some ⟨some .DowngradeAck, false, SameState, false, false⟩
  | kInvalid, .Downgrade => some ⟨some .DowngradeAck, false, SameState, false, false⟩
  | _, _ => none

/-- The message for a block that a cache evicts. -/
def evict (was_dirty : Bool) (state : CoherenceState_t) : MemoryMessageType :=
  if was_dirty || state == kModified then .EvictDirty
  else if state = kExclusive then .EvictWritable
  else .EvictClean

end InclusiveMESI

end nFastCache
