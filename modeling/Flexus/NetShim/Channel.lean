import Mathlib.Tactic

/-!
# Messages and ports

A message waits in a port or in a buffer in the queue of its virtual channel, which is made
of its priority and of the virtual channel of its route. A port counts the buffers that its
messages use.
-/

namespace nNetShim

abbrev MAX_NET_VC : Nat := 2

/-- Maximum number of priorities. -/
abbrev NUM_PRIORITIES : Nat := 4

abbrev MAX_VC : Nat := 8

def BUILD_VC (prot : Fin NUM_PRIORITIES) (net : Fin MAX_NET_VC) : Fin MAX_VC :=
  ⟨prot * MAX_NET_VC + net, by
    have hprot : prot.val < 4 := prot.isLt
    have hnet : net.val < 2 := net.isLt
    change prot.val * 2 + net.val < 8
    omega⟩

structure MessageState (numNodes numPorts : Nat) where
  serial : Nat
  srcNode : Fin numNodes
  destNode : Fin numNodes
  priority : Fin NUM_PRIORITIES
  networkVC : Fin MAX_VC
  nextHop : Option (Fin numPorts)
  nextVC : Option (Fin MAX_VC)
  hopCount : Int
  deriving DecidableEq, Repr

variable {numNodes numPorts : Nat}

/-- Queues of messages, each of which is in the queue of its virtual channel. -/
structure Queues (numNodes numPorts : Nat) where
  list : Fin MAX_VC → List (MessageState numNodes numPorts)
  filed : ∀ vc, ∀ m ∈ list vc, m.networkVC = vc

namespace Queues

variable (q : Queues numNodes numPorts) (msg : MessageState numNodes numPorts) (vc w : Fin MAX_VC)

def empty (numNodes numPorts : Nat) : Queues numNodes numPorts := ⟨fun _ => [], by simp⟩

/-- Put a message at the end of the queue of its virtual channel. -/
def insert : Queues numNodes numPorts where
  list := Function.update q.list msg.networkVC (q.list msg.networkVC ++ [msg])
  filed := by
    intro w m hm
    by_cases hw : w = msg.networkVC
    · subst hw
      rw [Function.update_self, List.mem_append, List.mem_singleton] at hm
      rcases hm with hm | rfl
      · exact q.filed _ m hm
      · rfl
    · rw [Function.update_of_ne hw] at hm
      exact q.filed w m hm

/-- Take the message at a place out of a queue. -/
def erase (i : Nat) : Queues numNodes numPorts where
  list := Function.update q.list vc ((q.list vc).eraseIdx i)
  filed := by
    intro w m hm
    by_cases hw : w = vc
    · subst hw
      rw [Function.update_self] at hm
      exact q.filed _ m (List.mem_of_mem_eraseIdx hm)
    · rw [Function.update_of_ne hw] at hm
      exact q.filed w m hm

theorem list_insert_of_ne (h : w ≠ msg.networkVC) : (q.insert msg).list w = q.list w :=
  Function.update_of_ne h ..

theorem list_erase_self (i : Nat) : (q.erase vc i).list vc = (q.list vc).eraseIdx i :=
  Function.update_self ..

theorem list_erase_of_ne (h : w ≠ vc) (i : Nat) : (q.erase vc i).list w = q.list w :=
  Function.update_of_ne h ..

end Queues

/-- A port: the buffers that it has and uses for each virtual channel, and the messages that
    are ready. -/
structure ChannelPort (numNodes numPorts : Nat) where
  bufferCount : Fin MAX_VC → Int
  buffersUsed : Fin MAX_VC → Int
  msl : Queues numNodes numPorts

namespace ChannelPort

variable (port : ChannelPort numNodes numPorts) (vc : Fin MAX_VC)

def peekMessage : Option (MessageState numNodes numPorts) := (port.msl.list vc).head?

def hasBufferSpace : Bool := decide (port.buffersUsed vc < port.bufferCount vc)

/-- The message that was looked at leaves the port. -/
def removeMessage : ChannelPort numNodes numPorts :=
  { port with
    msl := port.msl.erase vc 0
    buffersUsed := Function.update port.buffersUsed vc (port.buffersUsed vc - 1) }

/-- A message comes to an output port. -/
def insertMessage (msg : MessageState numNodes numPorts) : ChannelPort numNodes numPorts :=
  { port with
    msl := port.msl.insert msg
    buffersUsed := Function.update port.buffersUsed msg.networkVC (port.buffersUsed msg.networkVC + 1) }

end ChannelPort

/-- Messages that could not be routed, with a cursor in the queue of one virtual channel. -/
structure NetSwitchInternalBuffer (numNodes numPorts : Nat) where
  bufferCount : Fin MAX_VC → Int
  buffersUsed : Fin MAX_VC → Int
  ageBuffer : Queues numNodes numPorts
  currPriority : Fin MAX_VC
  currMessage : Option Nat

namespace NetSwitchInternalBuffer

variable (b : NetSwitchInternalBuffer numNodes numPorts)

def isFull (vc : Fin MAX_VC) : Bool := decide (b.bufferCount vc ≤ b.buffersUsed vc)

def insertMessage (msg : MessageState numNodes numPorts) : NetSwitchInternalBuffer numNodes numPorts :=
  { b with
    ageBuffer := b.ageBuffer.insert msg
    buffersUsed := Function.update b.buffersUsed msg.networkVC (b.buffersUsed msg.networkVC + 1) }

/-- The place behind another one in the current queue, if there is a message. -/
def place (i : Nat) : Option Nat := if i < (b.ageBuffer.list b.currPriority).length then some i else none

def gotoFirstMessage (vc : Fin MAX_VC) : NetSwitchInternalBuffer numNodes numPorts :=
  let b := { b with currPriority := vc }
  { b with currMessage := b.place 0 }

def getMessage : Option (MessageState numNodes numPorts) :=
  b.currMessage.bind fun i => (b.ageBuffer.list b.currPriority)[i]?

/-- Go on to the next message; the flag tells that there is none. -/
def nextMessage : Bool × NetSwitchInternalBuffer numNodes numPorts :=
  match b.currMessage with
  | none => (true, b)
  | some i => ((b.place (i + 1)).isNone, { b with currMessage := b.place (i + 1) })

/-- The current message leaves the buffer, and the one behind it becomes the current one. -/
def removeMessage : NetSwitchInternalBuffer numNodes numPorts :=
  match b.currMessage with
  | none => b
  | some i =>
    let b := { b with
      ageBuffer := b.ageBuffer.erase b.currPriority i
      buffersUsed := Function.update b.buffersUsed b.currPriority (b.buffersUsed b.currPriority - 1) }
    { b with currMessage := b.place i }

end NetSwitchInternalBuffer

end nNetShim
