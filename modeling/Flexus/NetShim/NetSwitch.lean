import Flexus.NetShim.Channel

/-!
# The switch

In each cycle a switch moves messages from its internal buffer and from its input ports to
its output ports, one virtual channel after the other. A message of an input port that
cannot be routed goes to the internal buffer if there is room.
-/

namespace nNetShim

variable {numNodes numPorts : Nat}

/-- The entries of a routing table in the order in which they are tried. -/
abbrev RoutingTable (numNodes numPorts : Nat) := Fin numNodes → List (Fin numPorts × Fin MAX_NET_VC)

abbrev Ports (numNodes numPorts : Nat) := Fin numPorts → ChannelPort numNodes numPorts

/-- The first port and virtual channel of the routing table that have room for a message. -/
def routingPolicy (table : RoutingTable numNodes numPorts) (outputPorts : Ports numNodes numPorts)
    (msg : MessageState numNodes numPorts) : Option (Fin numPorts × Fin MAX_VC) :=
  ((table msg.destNode).find? fun entry =>
    (outputPorts entry.1).hasBufferSpace (BUILD_VC msg.priority entry.2)).map fun entry =>
      (entry.1, BUILD_VC msg.priority entry.2)

/-- Put a message that was routed into its output port. -/
def sendMessageToOutput (outputPorts : Ports numNodes numPorts) (msg : MessageState numNodes numPorts)
    (route : Fin numPorts × Fin MAX_VC) : Ports numNodes numPorts :=
  Function.update outputPorts route.1 ((outputPorts route.1).insertMessage { msg with
    nextHop := some route.1
    networkVC := route.2
    nextVC := none
    hopCount := msg.hopCount + 1 })

/-- The messages of a virtual channel that are ready in the input ports. -/
def ready (inputPorts : Ports numNodes numPorts) (vc : Fin MAX_VC) : Nat :=
  ∑ p, ((inputPorts p).msl.list vc).length

theorem ready_eq_zero {inputPorts : Ports numNodes numPorts} {vc : Fin MAX_VC} :
    ready inputPorts vc = 0 ↔ ∀ p, (inputPorts p).peekMessage vc = none := by
  simp [ready, ChannelPort.peekMessage]

/-- A message that leaves a port is not ready any more. -/
theorem ready_removeMessage {inputPorts : Ports numNodes numPorts} {p : Fin numPorts} {vc : Fin MAX_VC}
    (hmsg : (inputPorts p).peekMessage vc ≠ none) (w : Fin MAX_VC) :
    ready (Function.update inputPorts p ((inputPorts p).removeMessage vc)) w =
      if w = vc then ready inputPorts w - 1 else ready inputPorts w := by
  have hothers : ∑ q ∈ Finset.univ.erase p,
      ((Function.update inputPorts p ((inputPorts p).removeMessage vc) q).msl.list w).length =
        ∑ q ∈ Finset.univ.erase p, ((inputPorts q).msl.list w).length := by
    refine Finset.sum_congr rfl fun q hq => ?_
    rw [Function.update_of_ne (Finset.ne_of_mem_erase hq)]
  have hafter := Finset.add_sum_erase Finset.univ (fun q =>
    ((Function.update inputPorts p ((inputPorts p).removeMessage vc) q).msl.list w).length) (Finset.mem_univ p)
  have hbefore := Finset.add_sum_erase Finset.univ (fun q => ((inputPorts q).msl.list w).length)
    (Finset.mem_univ p)
  simp only [Function.update_self, hothers] at hafter
  unfold ready
  split
  · next hw =>
    subst hw
    have hlist : (((inputPorts p).removeMessage w).msl.list w).length + 1 =
        ((inputPorts p).msl.list w).length := by
      rw [ChannelPort.removeMessage, Queues.list_erase_self]
      cases hlist : (inputPorts p).msl.list w with
      | nil => simp [ChannelPort.peekMessage, hlist] at hmsg
      | cons m rest => rfl
    omega
  · next hw =>
    have hlist : ((inputPorts p).removeMessage vc).msl.list w = (inputPorts p).msl.list w :=
      Queues.list_erase_of_ne _ _ _ hw _
    rw [hlist] at hafter
    omega

/-- A switch. The ready messages of the input ports are counted for each virtual channel. -/
structure NetSwitch (numNodes numPorts : Nat) where
  crossbarBandwidth : Nat
  nextStartingPort : Fin numPorts
  inputPorts : Ports numNodes numPorts
  outputPorts : Ports numNodes numPorts
  internalBuffer : NetSwitchInternalBuffer numNodes numPorts
  routingTable : RoutingTable numNodes numPorts
  messagesWaiting : Fin MAX_VC → Nat
  counted : ∀ vc, messagesWaiting vc = ready inputPorts vc

namespace NetSwitch

/-- The first message of an input port, if there is one, leaves the port and is not waited for
    any more. -/
def takeMessage (sw : NetSwitch numNodes numPorts) (p : Fin numPorts) (vc : Fin MAX_VC) :
    NetSwitch numNodes numPorts :=
  if hmsg : (sw.inputPorts p).peekMessage vc = none then sw
  else { sw with
    inputPorts := Function.update sw.inputPorts p ((sw.inputPorts p).removeMessage vc)
    messagesWaiting := Function.update sw.messagesWaiting vc (sw.messagesWaiting vc - 1)
    counted := by
      intro w
      rw [ready_removeMessage hmsg, Function.update_apply, sw.counted, sw.counted]
      split
      · next hw => rw [hw]
      · rfl }

/-- The port after another one, in a circle. -/
def nextPort (p : Fin numPorts) : Fin numPorts :=
  ⟨(p.val + 1) % numPorts, Nat.mod_lt _ (Nat.zero_lt_of_lt p.isLt)⟩

end NetSwitch

/-- Where a message is when the switch tries to deliver it: in the internal buffer, with a
    number of messages behind it, or at the head of an input port. -/
inductive Place (numPorts : Nat) where
  | internal (behind : Nat)
  | port (p : Fin numPorts)
  deriving DecidableEq, Repr

/-- An attempt to deliver a message, with the bandwidth that remains for it. -/
structure Attempt (numPorts : Nat) where
  vc : Fin MAX_VC
  place : Place numPorts
  bandwidthRemaining : Int
  delivered : Bool
  deriving DecidableEq, Repr

/-- The switch in the middle of a cycle, with a record of the attempts so far. -/
structure Drive (numNodes numPorts : Nat) where
  sw : NetSwitch numNodes numPorts
  bandwidthRemaining : Int
  attempts : List (Attempt numPorts)

namespace Drive

variable (d : Drive numNodes numPorts) (vc : Fin MAX_VC)

/-- How many messages are behind the current one of the internal buffer. -/
def behind : Nat :=
  (d.sw.internalBuffer.ageBuffer.list d.sw.internalBuffer.currPriority).length -
    (d.sw.internalBuffer.currMessage.getD 0 + 1)

def log (place : Place numPorts) (delivered : Bool) : List (Attempt numPorts) :=
  d.attempts ++ [⟨vc, place, d.bandwidthRemaining, delivered⟩]

/-- Try to deliver the current message of the internal buffer. -/
def internalBody (msg : MessageState numNodes numPorts) : Drive numNodes numPorts :=
  match routingPolicy d.sw.routingTable d.sw.outputPorts msg with
  | some route =>
    { sw := { d.sw with
        internalBuffer := d.sw.internalBuffer.removeMessage
        outputPorts := sendMessageToOutput d.sw.outputPorts msg route }
      bandwidthRemaining := d.bandwidthRemaining - 1
      attempts := d.log vc (.internal d.behind) true }
  | none => { d with attempts := d.log vc (.internal d.behind) false }

/-- Go through the internal buffer while there are messages and bandwidth. Every round goes
    on by one message at least, so the length of the queue is enough fuel. -/
def internalLoop : Nat → Drive numNodes numPorts → Drive numNodes numPorts
  | 0, d => d
  | fuel + 1, d =>
    match d.sw.internalBuffer.getMessage with
    | none => d
    | some msg =>
      if 0 < d.bandwidthRemaining then
        let d := d.internalBody vc msg
        let (last, internalBuffer) := d.sw.internalBuffer.nextMessage
        let d := { d with sw := { d.sw with internalBuffer := internalBuffer } }
        if last then d else internalLoop fuel d
      else d

/-- Try to deliver the first message of an input port; if it cannot be routed, keep it in the
    internal buffer. -/
def portBody (p : Fin numPorts) : Drive numNodes numPorts :=
  match (d.sw.inputPorts p).peekMessage vc with
  | none => d
  | some msg =>
    let taken := d.sw.takeMessage p vc
    match routingPolicy d.sw.routingTable d.sw.outputPorts msg with
    | some route =>
      { sw := { taken with outputPorts := sendMessageToOutput d.sw.outputPorts msg route }
        bandwidthRemaining := d.bandwidthRemaining - 1
        attempts := d.log vc (.port p) true }
    | none =>
      if d.sw.internalBuffer.isFull msg.networkVC then
        { d with attempts := d.log vc (.port p) false }
      else
        { d with
          sw := { taken with internalBuffer := d.sw.internalBuffer.insertMessage msg }
          attempts := d.log vc (.port p) false }

/-- Go round the input ports from the one where this cycle starts, as long as the bandwidth
    is not zero after a port. -/
def portLoop : Nat → Fin numPorts → Drive numNodes numPorts → Drive numNodes numPorts
  | 0, _, d => d
  | fuel + 1, currPort, d =>
    let d := d.portBody vc currPort
    if NetSwitch.nextPort currPort ≠ d.sw.nextStartingPort ∧ d.bandwidthRemaining ≠ 0 then
      portLoop fuel (NetSwitch.nextPort currPort) d
    else d

/-- One virtual channel: the internal buffer, and then the input ports if messages wait. -/
def driveVC : Drive numNodes numPorts :=
  let d := { d with sw := { d.sw with internalBuffer := d.sw.internalBuffer.gotoFirstMessage vc } }
  let d := internalLoop vc (d.sw.internalBuffer.ageBuffer.list vc).length d
  if d.sw.messagesWaiting vc = 0 then d else portLoop vc numPorts d.sw.nextStartingPort d

end Drive

namespace NetSwitch

/-- One cycle of the switch, before the next starting port is chosen. -/
def run (sw : NetSwitch numNodes numPorts) : Drive numNodes numPorts :=
  (List.finRange MAX_VC).foldl Drive.driveVC ⟨sw, sw.crossbarBandwidth, []⟩

def drive (sw : NetSwitch numNodes numPorts) : NetSwitch numNodes numPorts :=
  { sw.run.sw with nextStartingPort := nextPort sw.run.sw.nextStartingPort }

end NetSwitch

end nNetShim
