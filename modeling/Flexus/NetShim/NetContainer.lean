import Flexus.Lib.InputStream
import Flexus.Lib.Traced
import Flexus.NetShim.Channel

/-!
# Building a network from a file

A file declares parameters and then, in `TOP` and `ROUTE` statements, the channels and the
routing tables of a network. An access outside the bounds of an array and a read of a variable
that was never set are faults; everything else that goes wrong is reported as an error. The
run records the reads from the file and the steps that have no check of their own.
-/

namespace nNetShim

open InputStream Runs

/-- The parameters of a network. -/
inductive Param where
  | channelLatency | channelLatencyData | channelLatencyControl | channelBandwidth
  | localChannelLatencyDivider | numNodes | numSwitches | switchInputBuffers | switchOutputBuffers
  | switchInternalBuffersPerVC | switchBandwidth | switchPorts
  deriving DecidableEq, Repr

/-- A node has one port for each direction, and a switch several ones. -/
inductive PortId where
  | node (n : Int)
  | switch (sw port : Int)
  deriving DecidableEq, Repr

def PortId.isSwitch : PortId → Bool
  | .node _ => false
  | .switch .. => true

@[ext]
structure Channel where
  fromPort : Option PortId
  toPort : Option PortId

/-- The sizes that the arrays were allocated with. -/
structure Sizes where
  numNodes : Int
  numSwitches : Int
  switchPorts : Int
  numChannels : Int

/-- The container of a network. The channel pointers of the ports and the routing tables of the
    switches are found by the indices into the arrays; `sizes` are all 0 before the allocation. -/
structure NetContainer where
  params : Param → Int
  numChannels : Int
  maxChannelIndex : Int
  openFiles : Nat
  sizes : Sizes
  channels : Int → Channel
  input : PortId → Option Int
  output : PortId → Option Int
  routingTable : Int → Int → List (Int × Int)

/-- How a run ends without a network. -/
inductive Stop where
  | error
  | fault
  deriving DecidableEq, Repr

/-- What a run records. -/
inductive Event where
  | word (s : Stream)
  | int (s : Stream)
  | character (s : Stream)
  | allocate (nc : NetContainer)
  | attach (nc : NetContainer) (source destination : PortId)
  | validate (nc : NetContainer)

abbrev Parse (α : Type) := Traced Event Stop α

def error {α : Type} : Parse α := Traced.stop .error

def fault {α : Type} : Parse α := Traced.stop .fault

/-! ## Tokens -/

def strcasecmp (a b : List Char) : Bool := a.map Char.toLower == b.map Char.toLower

def STR_NODE : List Char := "NODE".toList

def STR_TO : List Char := "->".toList

def STR_SWITCH : List Char := "SWITCH".toList

def STR_OPENCURLY : List Char := "\x7b".toList

def STR_CLOSECURLY : List Char := "\x7d".toList

/-- A word goes into a buffer of 100 characters. -/
def readWord (s : Stream) : Parse (List Char × Stream) :=
  .record (.word s) (if s.failbit = false ∧ s.getWord.1.length < 100 then pure s.getWord else fault)

def readStringToken (s : Stream) : Parse (List Char × Stream) :=
  let s := s.ws
  if s.eofbit then error
  else if s.peek = some '#' then error
  else readWord s

def readIntToken (s : Stream) : Parse (Int × Stream) :=
  let s := s.ws
  if s.eofbit then error
  else if s.peek = some '#' then error
  else .record (.int s) (if s.failbit = false then pure s.getInt else fault)

/-- The character after the first part of a token; without one, the variable is never set. -/
def readColon (s : Stream) : Parse Stream :=
  .record (.character s) (match s.get with
    | some (c, s) => if c = ':' then pure s else error
    | none => fault)

def readTopologyDoubleToken (s : Stream) : Parse (Int × Int × Stream) := do
  let (tok1, s) ← readIntToken s
  let s ← readColon s
  let (tok2, s) ← readIntToken s
  return (tok1, tok2, s)

/-- A word that has to be a certain one. -/
def expect (str : List Char) (s : Stream) : Parse Stream := do
  let (token, s) ← readStringToken s
  if strcasecmp str token then return s else error

/-! ## Topology -/

/-- An access to an array with a size. -/
def access (i size : Int) : Parse Unit := if 0 ≤ i ∧ i < size then pure () else fault

namespace NetContainer

variable (nc : NetContainer)

def setFromPort (c : Int) (p : PortId) : Parse NetContainer :=
  if (nc.channels c).fromPort.isSome then error
  else return { nc with
    channels := Function.update nc.channels c { nc.channels c with fromPort := some p }
    output := Function.update nc.output p (some c) }

def setToPort (c : Int) (p : PortId) : Parse NetContainer :=
  if (nc.channels c).toPort.isSome then error
  else return { nc with
    channels := Function.update nc.channels c { nc.channels c with toPort := some p }
    input := Function.update nc.input p (some c) }

def attachChannel (c sw port : Int) (isInput : Bool) : Parse NetContainer := do
  access sw nc.sizes.numSwitches
  access c nc.sizes.numChannels
  access port nc.sizes.switchPorts
  if isInput then nc.setToPort c (.switch sw port) else nc.setFromPort c (.switch sw port)

def attachSwitchChannels (sw port : Int) (destination : Bool) : Parse NetContainer := do
  let nc ← nc.attachChannel nc.maxChannelIndex sw port destination
  nc.attachChannel (nc.maxChannelIndex + 1) sw port (!destination)

def attachNodeChannels (node : Int) : Parse NetContainer := do
  access node nc.sizes.numNodes
  access nc.maxChannelIndex nc.sizes.numChannels
  let nc ← nc.setFromPort nc.maxChannelIndex (.node node)
  access (nc.maxChannelIndex + 1) nc.sizes.numChannels
  nc.setToPort (nc.maxChannelIndex + 1) (.node node)

/-- The local delay of an input port is not a part of the topology. -/
def setLocalDelayOnly (sw port : Int) : Parse Unit := do
  access sw nc.sizes.numSwitches
  access port nc.sizes.switchPorts

/-- Attach a pair of channels between two ports; the source of the first one is the node, if
    there is one. -/
def attach : PortId → PortId → Parse NetContainer
  | .switch sw port, .node node => do
    let nc ← nc.attachNodeChannels node
    let nc ← nc.attachSwitchChannels sw port true
    nc.setLocalDelayOnly sw port
    return nc
  | .node node, .switch sw port => do
    let nc ← nc.attachNodeChannels node
    let nc ← nc.attachSwitchChannels sw port true
    nc.setLocalDelayOnly sw port
    return nc
  | .switch sw0 port0, .switch sw1 port1 => do
    let nc ← nc.attachSwitchChannels sw0 port0 false
    nc.attachSwitchChannels sw1 port1 true
  | .node _, .node _ => error

def readTopSrcDest (s : Stream) : Parse (PortId × Stream) := do
  let (str, s) ← readStringToken s
  if strcasecmp STR_NODE str then
    let (node, s) ← readIntToken s
    if nc.params .numNodes ≤ node then error else return (.node node, s)
  else if strcasecmp STR_SWITCH str then
    let (sw, port, s) ← readTopologyDoubleToken s
    return (.switch sw port, s)
  else error

def handleTopology (s : Stream) : Parse (NetContainer × Stream) := do
  let (source, s) ← nc.readTopSrcDest s
  let s ← expect STR_TO s
  let (destination, s) ← nc.readTopSrcDest s
  if ¬ source.isSwitch ∧ ¬ destination.isSwitch then error
  else if nc.numChannels - 1 ≤ nc.maxChannelIndex then error
  else
    let nc ← .record (.attach nc source destination) (nc.attach source destination)
    return ({ nc with maxChannelIndex := nc.maxChannelIndex + 2 }, s)

/-! ## Routes -/

/-- The entries of a routing table fill it from the front. -/
def addRoutingEntry (sw node port vc : Int) : Parse NetContainer := do
  access sw nc.sizes.numSwitches
  access node nc.sizes.numNodes
  let entries := nc.routingTable sw node
  if (port, vc) ∈ entries then return nc
  else if entries.length < nc.sizes.switchPorts * MAX_NET_VC then
    let tables := Function.update (nc.routingTable sw) node (entries ++ [(port, vc)])
    return { nc with routingTable := Function.update nc.routingTable sw tables }
  else error

/-- The list of ports and virtual channels of a route, up to the closing bracket. Each round
    reads something, so the length of the text is enough fuel. -/
def routeEntries (sw node : Int) : Nat → NetContainer → Stream → Parse (NetContainer × Stream)
  | 0, _, _ => fault
  | fuel + 1, nc, s => do
    let s := s.ws
    if s.peek = some '\x7d' then return (nc, s)
    else
      let (port, vc, s) ← readTopologyDoubleToken s
      if nc.params .switchPorts ≤ port ∨ port < 0 then error
      else if (MAX_NET_VC : Int) ≤ vc ∨ vc < 0 then error
      else
        let nc ← nc.addRoutingEntry sw node port vc
        routeEntries sw node fuel nc s

def handleRoute (s : Stream) : Parse (NetContainer × Stream) := do
  let s ← expect STR_SWITCH s
  let (sw, s) ← readIntToken s
  if nc.params .numSwitches ≤ sw ∨ sw < 0 then error
  else
    let s ← expect STR_TO s
    let (node, s) ← readIntToken s
    if nc.params .numNodes ≤ node ∨ node < 0 then error
    else
      let s ← expect STR_OPENCURLY s
      let (nc, s) ← routeEntries sw node (s.rest.length + 1) nc s
      let s ← expect STR_CLOSECURLY s
      return (nc, s)

/-! ## Parameters and the allocation -/

/-- The bounds that the parameters have to exceed. -/
def checkedParams : List (Param × Int) :=
  [(.channelLatency, 0), (.channelLatencyData, 0), (.channelLatencyControl, 0),
    (.localChannelLatencyDivider, 0), (.numNodes, 0), (.numSwitches, 0), (.switchInputBuffers, 0),
    (.switchOutputBuffers, 0), (.switchInternalBuffersPerVC, -1), (.switchBandwidth, 0),
    (.switchPorts, 1)]

/-- Whether an error is found in the parameters; only before the allocation. -/
def validateParameters : Bool :=
  if 0 < nc.numChannels then false
  else checkedParams.any fun c => !decide (c.2 < nc.params c.1)

/-- The number of channels is a product of integers of 32 bits. -/
def allocateNetworkStructures : Parse NetContainer :=
  if 0 < nc.numChannels then error
  else
    let numChannels := nc.params .numSwitches * nc.params .switchPorts * 2
    .record (.allocate nc) (if numChannels ≤ Stream.INT_MAX then
      return { nc with
        numChannels := numChannels
        maxChannelIndex := 0
        sizes := ⟨nc.params .numNodes, nc.params .numSwitches, nc.params .switchPorts, numChannels⟩
        channels := fun _ => ⟨none, none⟩
        input := fun _ => none
        output := fun _ => none
        routingTable := fun _ _ => [] }
    else fault)

/-! ## The network -/

/-- A loop over the first elements of an array. -/
def accessUpTo (n size : Int) : Parse Unit := if n ≤ 0 ∨ n ≤ size then pure () else fault

/-- The indices of such a loop. -/
def indices (n : Int) : List Int := (List.range n.toNat).map Int.ofNat

/-- A node needs a channel in each direction. -/
def checkNode (n : Int) : Bool := (nc.output (.node n)).isNone || (nc.input (.node n)).isNone

/-- A switch needs a route to each node, over ports that are connected. -/
def checkRoutingTable (sw : Int) : Bool :=
  (indices (nc.params .numNodes)).any fun node => (nc.routingTable sw node).isEmpty ||
    (nc.routingTable sw node).any fun entry => (nc.output (.switch sw entry.1)).isNone

/-- The routing tables index the output ports of their switches. -/
def accessRoutes : Parse Unit :=
  if ∀ sw ∈ indices (nc.params .numSwitches), ∀ node ∈ indices (nc.params .numNodes),
      ∀ entry ∈ nc.routingTable sw node, 0 ≤ entry.1 ∧ entry.1 < nc.sizes.switchPorts then
    pure ()
  else fault

def validateNetwork : Parse NetContainer :=
  .record (.validate nc) do
    accessUpTo (nc.params .numNodes) nc.sizes.numNodes
    accessUpTo (nc.params .numSwitches) nc.sizes.numSwitches
    nc.accessRoutes
    if (indices (nc.params .numNodes)).any nc.checkNode ||
        (indices (nc.params .numSwitches)).any nc.checkRoutingTable then error
    else return nc

/-! ## Files -/

inductive ValidationOrder where
  | VALIDATE_ANYTIME | VALIDATE_BEFORE | VALIDATE_AFTER
  deriving DecidableEq, Repr

/-- What handles a token. -/
inductive Handler where
  | includeFile
  | parameter (p : Param)
  | topology
  | route
  deriving DecidableEq, Repr

structure TokenMap where
  token : List Char
  order : ValidationOrder
  func : Handler

def topTokens : List TokenMap :=
  [⟨"INCLUDE".toList, .VALIDATE_ANYTIME, .includeFile⟩,
    ⟨"CHANNELLATENCY".toList, .VALIDATE_BEFORE, .parameter .channelLatency⟩,
    ⟨"CHANNELLATENCYDATA".toList, .VALIDATE_BEFORE, .parameter .channelLatencyData⟩,
    ⟨"CHANNELLATENCYCONTROL".toList, .VALIDATE_BEFORE, .parameter .channelLatencyControl⟩,
    ⟨"CHANNELBANDWIDTH".toList, .VALIDATE_BEFORE, .parameter .channelBandwidth⟩,
    ⟨"LOCALCHANNELLATENCYDIVIDER".toList, .VALIDATE_BEFORE, .parameter .localChannelLatencyDivider⟩,
    ⟨"NUMNODES".toList, .VALIDATE_BEFORE, .parameter .numNodes⟩,
    ⟨"NUMSWITCHES".toList, .VALIDATE_BEFORE, .parameter .numSwitches⟩,
    ⟨"SWITCHINPUTBUFFERS".toList, .VALIDATE_BEFORE, .parameter .switchInputBuffers⟩,
    ⟨"SWITCHOUTPUTBUFFERS".toList, .VALIDATE_BEFORE, .parameter .switchOutputBuffers⟩,
    ⟨"SWITCHINTERNALBUFFERSPERVC".toList, .VALIDATE_BEFORE, .parameter .switchInternalBuffersPerVC⟩,
    ⟨"SWITCHBANDWIDTH".toList, .VALIDATE_BEFORE, .parameter .switchBandwidth⟩,
    ⟨"SWITCHPORTS".toList, .VALIDATE_BEFORE, .parameter .switchPorts⟩,
    ⟨"TOP".toList, .VALIDATE_AFTER, .topology⟩,
    ⟨"ROUTE".toList, .VALIDATE_AFTER, .route⟩]

/-- Parameters come before the allocation; the first other statement makes it. -/
def checkOrder : ValidationOrder → Parse NetContainer
  | .VALIDATE_ANYTIME => return nc
  | .VALIDATE_BEFORE => if nc.numChannels ≠ 0 then error else return nc
  | .VALIDATE_AFTER =>
    if nc.numChannels ≠ 0 then return nc
    else if nc.validateParameters then error
    else nc.allocateNetworkStructures

/-- Go on in another file. -/
def handleInclude (build : List Char → NetContainer → Parse NetContainer) (s : Stream) :
    Parse (NetContainer × Stream) := do
  let (filename, s) ← readStringToken s
  let nc ← build filename nc
  return (nc, s)

def handleParameter (p : Param) (s : Stream) : Parse (NetContainer × Stream) := do
  let (value, s) ← readIntToken s
  return ({ nc with params := Function.update nc.params p value }, s)

/-- Handle one statement. After a comment the source reads the next word right away, here it
    is read in the next round of the loop over the file. -/
def readFirstToken (build : List Char → NetContainer → Parse NetContainer) (s : Stream) :
    Parse (NetContainer × Stream) :=
  let s := s.ws
  if s.eofbit then return (nc, s)
  else do
    let (firstTok, s) ← readWord s
    if firstTok.head? = some '#' then return (nc, s.ignore 1024 '\n')
    else
      match topTokens.find? fun t => strcasecmp t.token firstTok with
      | none => error
      | some t =>
        let nc ← nc.checkOrder t.order
        match t.func with
        | .includeFile => nc.handleInclude build s
        | .parameter p => nc.handleParameter p s
        | .topology => nc.handleTopology s
        | .route => nc.handleRoute s

/-- The loop over a file. Each round reads something, so the length of the text is enough
    fuel. -/
def readFile (build : List Char → NetContainer → Parse NetContainer) :
    Nat → NetContainer → Stream → Parse NetContainer
  | 0, _, _ => fault
  | fuel + 1, nc, s =>
    if s.eofbit then return nc
    else do
      let (nc, s) ← nc.readFirstToken build s
      readFile build fuel nc s

end NetContainer

/-- The texts of the files that can be opened. -/
abbrev Files := List Char → Option (List Char)

namespace NetContainer

def new : NetContainer where
  params _ := -1
  numChannels := 0
  maxChannelIndex := -1
  openFiles := 0
  sizes := ⟨0, 0, 0, 0⟩
  channels _ := ⟨none, none⟩
  input _ := none
  output _ := none
  routingTable _ _ := []

/-- Build the network of a file, where only some more files can be open at a time. -/
def buildNetwork (files : Files) : Nat → List Char → NetContainer → Parse NetContainer
  | 0, _, _ => error
  | limit + 1, filename, nc =>
    match files filename with
    | none => error
    | some text => do
      let nc ← readFile (buildNetwork files limit) (text.length + 2)
        { nc with openFiles := nc.openFiles + 1 } (.ofText text)
      let nc := { nc with openFiles := nc.openFiles - 1 }
      if nc.openFiles = 0 then nc.validateNetwork else return nc

end NetContainer

end nNetShim
