import Flexus.FastCMPCache.AbstractDirectory
import Flexus.FastCache.StdCache

/-!
# The protocol of a single chip

What the shared cache does for a request, by the state of the block in the cache and by
how many caches share it. `Exclusive` means exclusive on the chip: the one sharer of an
exclusive block may have it exclusive or modified.
-/

namespace nFastCMPCache

open nCMPCache (MemoryMessageType)
open nFastCache (CoherenceState_t)

/-- What is done for a request. Of each pair the second is used when the answer to a
    snoop is the second terminal one. -/
structure PrimaryAction where
  snoop_type : MemoryMessageType
  terminal_response : MemoryMessageType × MemoryMessageType
  response : MemoryMessageType × MemoryMessageType
  next_state : CoherenceState_t × CoherenceState_t
  multicast : Bool
  forward_request : Bool
  allocate : Bool
  update : Bool
  deriving DecidableEq, Repr

namespace SingleCMPProtocol

def action (snoop terminal1 terminal2 resp1 resp2 : MemoryMessageType) (ns1 ns2 : CoherenceState_t)
    (multi fwd alloc update : Bool) : Option PrimaryAction :=
  some { snoop_type := snoop, terminal_response := (terminal1, terminal2), response := (resp1, resp2),
         next_state := (ns1, ns2), multicast := multi, forward_request := fwd, allocate := alloc,
         update := update }

/-- The actions of the protocol. `none` is a poison action or a combination that the
    protocol does not have; both fail an assertion. -/
def getAction (type : MemoryMessageType) (c_state : CoherenceState_t) (d_state : SharingState) :
    Option PrimaryAction :=
  match type, c_state, d_state with
  | .ReadReq, .kModified, .ZeroSharers =>
    action NoRequest NoRequest NoRequest .MissReplyDirty NoRequest
      .kInvalid .kInvalid false false false true
  | .ReadReq, .kModified, .OneSharer =>
    action NoRequest NoRequest NoRequest .MissReply NoRequest
      .kModified .kModified false false false true
  | .ReadReq, .kModified, .ManySharers =>
    action NoRequest NoRequest NoRequest .MissReply NoRequest
      .kModified .kModified false false false true
  | .ReadReq, .kExclusive, .ZeroSharers =>
    action NoRequest NoRequest NoRequest .MissReplyWritable NoRequest
      .kExclusive .kExclusive false false false true
  | .ReadReq, .kExclusive, .OneSharer =>
    action .ReturnReq .ReturnReply .ReturnReplyDirty .MissReply .MissReply
      .kExclusive .kModified false false false true
  | .ReadReq, .kExclusive, .ManySharers =>
    action NoRequest NoRequest NoRequest .MissReply NoRequest
      .kExclusive .kExclusive false false false true
  | .ReadReq, .kShared, .ZeroSharers =>
    action NoRequest NoRequest NoRequest .MissReply NoRequest
      .kShared .kShared false false false true
  | .ReadReq, .kShared, .OneSharer =>
    action NoRequest NoRequest NoRequest .MissReply NoRequest
      .kShared .kShared false false false true
  | .ReadReq, .kShared, .ManySharers =>
    action NoRequest NoRequest NoRequest .MissReply NoRequest
      .kShared .kShared false false false true
  | .ReadReq, .kInvalid, .ZeroSharers =>
    action NoRequest NoRequest NoRequest .MissReplyWritable NoRequest
      .kExclusive .kExclusive false true true true
  | .ReadReq, .kInvalid, .OneSharer =>
    action .ReturnReq .ReturnReply .ReturnReplyDirty .MissReply .MissReply
      .kShared .kModified false false true true
  | .ReadReq, .kInvalid, .ManySharers =>
    action .ReturnReq .ReturnReply .ReturnReplyDirty .MissReply .MissReply
      .kShared .kModified false false true true
  | .FetchReq, .kModified, .ZeroSharers =>
    action NoRequest NoRequest NoRequest .MissReply NoRequest
      .kModified .kModified false false false true
  | .FetchReq, .kModified, .OneSharer =>
    action .ReturnReq .ReturnReply .ReturnReplyDirty .MissReply .MissReply
      .kModified .kModified false false false true
  | .FetchReq, .kModified, .ManySharers =>
    action NoRequest NoRequest NoRequest .MissReply NoRequest
      .kModified .kModified false false false true
  | .FetchReq, .kExclusive, .ZeroSharers =>
    action NoRequest NoRequest NoRequest .MissReply NoRequest
      .kExclusive .kExclusive false false false true
  | .FetchReq, .kExclusive, .OneSharer =>
    action .ReturnReq .ReturnReply .ReturnReplyDirty .MissReply .MissReply
      .kExclusive .kModified false false false true
  | .FetchReq, .kExclusive, .ManySharers =>
    action NoRequest NoRequest NoRequest .MissReply NoRequest
      .kExclusive .kExclusive false false false true
  | .FetchReq, .kShared, .ZeroSharers =>
    action NoRequest NoRequest NoRequest .MissReply NoRequest
      .kShared .kShared false false false true
  | .FetchReq, .kShared, .OneSharer =>
    action NoRequest NoRequest NoRequest .MissReply NoRequest
      .kShared .kShared false false false true
  | .FetchReq, .kShared, .ManySharers =>
    action NoRequest NoRequest NoRequest .MissReply NoRequest
      .kShared .kShared false false false true
  | .FetchReq, .kInvalid, .ZeroSharers =>
    action NoRequest NoRequest NoRequest .MissReply NoRequest .kShared .kShared false true true true
  | .FetchReq, .kInvalid, .OneSharer =>
    action .ReturnReq .ReturnReply .ReturnReplyDirty .MissReply .MissReply
      .kShared .kModified false false true true
  | .FetchReq, .kInvalid, .ManySharers =>
    action .ReturnReq .ReturnReply .ReturnReplyDirty .MissReply NoRequest
      .kShared .kModified false false true true
  | .UpgradeReq, .kModified, .ZeroSharers => none
  | .UpgradeReq, .kModified, .OneSharer =>
    action NoRequest NoRequest NoRequest .UpgradeReply NoRequest
      .kInvalid .kInvalid false false false true
  | .UpgradeReq, .kModified, .ManySharers =>
    action .Invalidate .InvalidateAck .InvUpdateAck .UpgradeReply .UpgradeReply
      .kInvalid .kInvalid true false false true
  | .UpgradeReq, .kExclusive, .ZeroSharers => none
  | .UpgradeReq, .kExclusive, .OneSharer =>
    action NoRequest NoRequest NoRequest .UpgradeReply NoRequest
      .kInvalid .kInvalid false false false true
  | .UpgradeReq, .kExclusive, .ManySharers =>
    action .Invalidate .InvalidateAck .InvUpdateAck .UpgradeReply .UpgradeReply
      .kInvalid .kInvalid true false false true
  | .UpgradeReq, .kShared, .ZeroSharers => none
  | .UpgradeReq, .kShared, .OneSharer =>
    action NoRequest NoRequest NoRequest .UpgradeReply NoRequest
      .kInvalid .kInvalid false false false true
  | .UpgradeReq, .kShared, .ManySharers =>
    action .Invalidate .InvalidateAck .InvUpdateAck .UpgradeReply .UpgradeReply
      .kInvalid .kInvalid true false false true
  | .UpgradeReq, .kInvalid, .ZeroSharers => none
  | .UpgradeReq, .kInvalid, .OneSharer =>
    action NoRequest NoRequest NoRequest .UpgradeReply NoRequest
      .kInvalid .kInvalid false false false true
  | .UpgradeReq, .kInvalid, .ManySharers =>
    action .Invalidate .InvalidateAck .InvUpdateAck .UpgradeReply .UpgradeReply
      .kInvalid .kInvalid true false false true
  | .WriteReq, .kModified, .ZeroSharers =>
    action NoRequest NoRequest NoRequest .MissReplyDirty NoRequest
      .kInvalid .kInvalid false false false true
  | .WriteReq, .kModified, .OneSharer =>
    action .Invalidate .InvalidateAck .InvUpdateAck .MissReplyDirty .MissReplyDirty
      .kInvalid .kInvalid false false false true
  | .WriteReq, .kModified, .ManySharers =>
    action .Invalidate .InvalidateAck .InvUpdateAck .MissReplyDirty .MissReplyDirty
      .kInvalid .kInvalid true false false true
  | .WriteReq, .kExclusive, .ZeroSharers =>
    action NoRequest NoRequest NoRequest .MissReplyWritable NoRequest
      .kInvalid .kInvalid false false false true
  | .WriteReq, .kExclusive, .OneSharer =>
    action .Invalidate .InvalidateAck .InvUpdateAck .MissReply .MissReplyDirty
      .kInvalid .kInvalid false false false true
  | .WriteReq, .kExclusive, .ManySharers =>
    action .Invalidate .InvalidateAck .InvUpdateAck .MissReply .MissReplyDirty
      .kInvalid .kInvalid true false false true
  | .WriteReq, .kShared, .ZeroSharers =>
    action NoRequest NoRequest NoRequest .MissReplyWritable NoRequest
      .kInvalid .kInvalid false false false true
  | .WriteReq, .kShared, .OneSharer =>
    action .Invalidate .InvalidateAck .InvUpdateAck .MissReply .MissReply
      .kInvalid .kInvalid false false false true
  | .WriteReq, .kShared, .ManySharers =>
    action .Invalidate .InvalidateAck .InvUpdateAck .MissReply NoRequest
      .kInvalid .kInvalid true false false true
  | .WriteReq, .kInvalid, .ZeroSharers =>
    action NoRequest NoRequest NoRequest .MissReplyWritable NoRequest
      .kInvalid .kInvalid false true false true
  | .WriteReq, .kInvalid, .OneSharer =>
    action .Invalidate .InvalidateAck .InvUpdateAck .MissReply .MissReply
      .kInvalid .kInvalid false false false true
  | .WriteReq, .kInvalid, .ManySharers =>
    action .Invalidate .InvalidateAck .InvUpdateAck .MissReply NoRequest
      .kInvalid .kInvalid true false false true
  | .NonAllocatingStoreReq, .kModified, .ZeroSharers =>
    action NoRequest NoRequest NoRequest .NonAllocatingStoreReply NoRequest
      .kModified .kModified false false false true
  | .NonAllocatingStoreReq, .kModified, .OneSharer =>
    action .Invalidate .InvalidateAck .InvUpdateAck .NonAllocatingStoreReply .NonAllocatingStoreReply
      .kModified .kModified false false false true
  | .NonAllocatingStoreReq, .kModified, .ManySharers =>
    action .Invalidate .InvalidateAck .InvUpdateAck .NonAllocatingStoreReply .NonAllocatingStoreReply
      .kModified .kModified true false false true
  | .NonAllocatingStoreReq, .kExclusive, .ZeroSharers =>
    action NoRequest NoRequest NoRequest .NonAllocatingStoreReply NoRequest
      .kModified .kModified false false false true
  | .NonAllocatingStoreReq, .kExclusive, .OneSharer =>
    action .Invalidate .InvalidateAck .InvUpdateAck .NonAllocatingStoreReply .NonAllocatingStoreReply
      .kModified .kModified false false false true
  | .NonAllocatingStoreReq, .kExclusive, .ManySharers =>
    action .Invalidate .InvalidateAck .InvUpdateAck .NonAllocatingStoreReply .NonAllocatingStoreReply
      .kModified .kModified true false false true
  | .NonAllocatingStoreReq, .kShared, .ZeroSharers =>
    action NoRequest NoRequest NoRequest .NonAllocatingStoreReply NoRequest
      .kModified .kModified false false false true
  | .NonAllocatingStoreReq, .kShared, .OneSharer =>
    action .Invalidate .InvalidateAck .InvUpdateAck .NonAllocatingStoreReply .NonAllocatingStoreReply
      .kModified .kModified false false false true
  | .NonAllocatingStoreReq, .kShared, .ManySharers =>
    action .Invalidate .InvalidateAck .InvUpdateAck .NonAllocatingStoreReply NoRequest
      .kModified .kModified true false false true
  | .NonAllocatingStoreReq, .kInvalid, .ZeroSharers =>
    action NoRequest NoRequest NoRequest .NonAllocatingStoreReply NoRequest
      .kInvalid .kInvalid false true false true
  | .NonAllocatingStoreReq, .kInvalid, .OneSharer =>
    action .Invalidate NoRequest NoRequest .NonAllocatingStoreReply .NonAllocatingStoreReply
      .kInvalid .kInvalid false true false true
  | .NonAllocatingStoreReq, .kInvalid, .ManySharers =>
    action .Invalidate NoRequest NoRequest .NonAllocatingStoreReply NoRequest
      .kInvalid .kInvalid true true false true
  | .EvictClean, .kModified, .ZeroSharers => none
  | .EvictClean, .kModified, .OneSharer =>
    action NoRequest NoRequest NoRequest NoRequest NoRequest
      .kModified .kModified false false false false
  | .EvictClean, .kModified, .ManySharers =>
    action NoRequest NoRequest NoRequest NoRequest NoRequest
      .kModified .kModified false false false false
  | .EvictClean, .kExclusive, .ZeroSharers => none
  | .EvictClean, .kExclusive, .OneSharer =>
    action NoRequest NoRequest NoRequest NoRequest NoRequest
      .kExclusive .kExclusive false false false false
  | .EvictClean, .kExclusive, .ManySharers =>
    action NoRequest NoRequest NoRequest NoRequest NoRequest
      .kExclusive .kExclusive false false false false
  | .EvictClean, .kShared, .ZeroSharers => none
  | .EvictClean, .kShared, .OneSharer =>
    action NoRequest NoRequest NoRequest NoRequest NoRequest
      .kShared .kShared false false false false
  | .EvictClean, .kShared, .ManySharers =>
    action NoRequest NoRequest NoRequest NoRequest NoRequest
      .kShared .kShared false false false false
  | .EvictClean, .kInvalid, .ZeroSharers => none
  | .EvictClean, .kInvalid, .OneSharer =>
    action NoRequest NoRequest NoRequest NoRequest NoRequest
      .kInvalid .kInvalid false false false false
  | .EvictClean, .kInvalid, .ManySharers =>
    action NoRequest NoRequest NoRequest NoRequest NoRequest
      .kInvalid .kInvalid false false false false
  | .EvictWritable, .kModified, .ZeroSharers => none
  | .EvictWritable, .kModified, .OneSharer =>
    action NoRequest NoRequest NoRequest NoRequest NoRequest
      .kModified .kModified false false false false
  | .EvictWritable, .kModified, .ManySharers => none
  | .EvictWritable, .kExclusive, .ZeroSharers => none
  | .EvictWritable, .kExclusive, .OneSharer =>
    action NoRequest NoRequest NoRequest NoRequest NoRequest
      .kExclusive .kExclusive false false false false
  | .EvictWritable, .kExclusive, .ManySharers => none
  | .EvictWritable, .kShared, .ZeroSharers => none
  | .EvictWritable, .kShared, .OneSharer => none
  | .EvictWritable, .kShared, .ManySharers => none
  | .EvictWritable, .kInvalid, .ZeroSharers => none
  | .EvictWritable, .kInvalid, .OneSharer =>
    action NoRequest NoRequest NoRequest NoRequest NoRequest
      .kExclusive .kExclusive false false true false
  | .EvictWritable, .kInvalid, .ManySharers => none
  | .EvictDirty, .kModified, .ZeroSharers => none
  | .EvictDirty, .kModified, .OneSharer => none
  | .EvictDirty, .kModified, .ManySharers => none
  | .EvictDirty, .kExclusive, .ZeroSharers => none
  | .EvictDirty, .kExclusive, .OneSharer =>
    action NoRequest NoRequest NoRequest NoRequest NoRequest
      .kModified .kModified false false true false
  | .EvictDirty, .kExclusive, .ManySharers => none
  | .EvictDirty, .kShared, .ZeroSharers => none
  | .EvictDirty, .kShared, .OneSharer => none
  | .EvictDirty, .kShared, .ManySharers => none
  | .EvictDirty, .kInvalid, .ZeroSharers => none
  | .EvictDirty, .kInvalid, .OneSharer =>
    action NoRequest NoRequest NoRequest NoRequest NoRequest
      .kModified .kModified false false true false
  | .EvictDirty, .kInvalid, .ManySharers => none
  | _, _, _ => none

/-- The message for a block that the shared cache evicts. -/
def evict (state : CoherenceState_t) : MemoryMessageType :=
  if state = .kModified then .EvictDirty else .EvictClean

end SingleCMPProtocol

end nFastCMPCache
