import Flexus.Lib.Greedy
import Flexus.NetShim.NetSwitch

/-!
# The arbitration of a switch

For each virtual channel the messages of the internal buffer come first, in the order of their
age, and then the first message of each input port, from the one where the cycle starts.
-/

namespace nNetShim

open Greedy

variable {numNodes numPorts : Nat}

/-! ## The algorithm -/

/-- A message that the switch is to try. -/
structure Candidate (numNodes numPorts : Nat) where
  vc : Fin MAX_VC
  place : Place numPorts
  msg : MessageState numNodes numPorts

/-- Deliver a message to an output port, if it can be routed. -/
def AttemptDelivery (table : RoutingTable numNodes numPorts) (outputPorts : Ports numNodes numPorts)
    (c : Candidate numNodes numPorts) : Option (Ports numNodes numPorts) :=
  (routingPolicy table outputPorts c.msg).map (sendMessageToOutput outputPorts c.msg)

/-- The messages of a queue, each with the number of those behind it. -/
def inAgeOrder (vc : Fin MAX_VC) : List (MessageState numNodes numPorts) → List (Candidate numNodes numPorts)
  | [] => []
  | msg :: rest => ⟨vc, .internal rest.length, msg⟩ :: inAgeOrder vc rest

/-- Some ports in a circle. -/
def portsFrom : Nat → Fin numPorts → List (Fin numPorts)
  | 0, _ => []
  | k + 1, p => p :: portsFrom k (NetSwitch.nextPort p)

/-- The first messages of some ports. -/
def heads (vc : Fin MAX_VC) (hs : List (Fin numPorts × Option (MessageState numNodes numPorts))) :
    List (Candidate numNodes numPorts) :=
  hs.filterMap fun h => h.2.map fun msg => ⟨vc, .port h.1, msg⟩

namespace NetSwitch

variable (sw : NetSwitch numNodes numPorts) (vc : Fin MAX_VC)

/-- The input ports with their first messages, from the one where the cycle starts. -/
def circle : List (Fin numPorts × Option (MessageState numNodes numPorts)) :=
  (portsFrom numPorts sw.nextStartingPort).map fun p => (p, (sw.inputPorts p).peekMessage vc)

/-- The messages of a virtual channel that are to be tried. -/
def candidates : List (Candidate numNodes numPorts) :=
  inAgeOrder vc (sw.internalBuffer.ageBuffer.list vc) ++ heads vc (sw.circle vc)

/-- All messages that are to be tried, by virtual channels in increasing order. -/
def stated : List (Candidate numNodes numPorts) := (List.finRange MAX_VC).flatMap sw.candidates

end NetSwitch

/-- The messages that some ports hold. -/
def held (ports : Ports numNodes numPorts) : Nat := ∑ p, ∑ vc, ((ports p).msl.list vc).length

/-- The attempts that were made while bandwidth remained. -/
def places (attempts : List (Attempt numPorts)) : List (Fin MAX_VC × Place numPorts) :=
  (attempts.filter fun a => 0 < a.bandwidthRemaining).map fun a => (a.vc, a.place)

/-- A cycle follows the algorithm: it moves no more messages to the output ports than the
    bandwidth allows, and while bandwidth remains it makes just the attempts of the algorithm. -/
def NetSwitch.Follows (sw : NetSwitch numNodes numPorts) : Prop :=
  held sw.drive.outputPorts ≤ held sw.outputPorts + sw.crossbarBandwidth ∧
    places sw.run.attempts =
      (tried (AttemptDelivery sw.routingTable) (sw.crossbarBandwidth, sw.outputPorts) sw.stated).map
        fun c => (c.vc, c.place)

/-- As the algorithm goes on, a delivered message of the internal buffer is the last one of its
    queue or uses the bandwidth up, and when no bandwidth is left for the input ports, the
    first message of the first port cannot be routed. -/
def NetSwitch.Undisturbed (sw : NetSwitch numNodes numPorts) :
    List (Fin MAX_VC) → Nat × Ports numNodes numPorts → Prop
  | [], _ => True
  | vc :: vcs, st =>
    let serve := AttemptDelivery sw.routingTable
    let internal := inAgeOrder vc (sw.internalBuffer.ageBuffer.list vc)
    let scanned := serveAll serve st internal
    ServedLast serve st internal ∧
      (scanned.1 = 0 → ∀ msg, (sw.inputPorts sw.nextStartingPort).peekMessage vc = some msg →
        routingPolicy sw.routingTable scanned.2 msg = none) ∧
      sw.Undisturbed vcs (serveAll serve st (sw.candidates vc))

/-! ## The loops on the output ports -/

/-- The part of a cycle that the arbitration depends on. -/
structure Track (numNodes numPorts : Nat) where
  outs : Ports numNodes numPorts
  left : Int
  attempts : List (Attempt numPorts)

namespace Track

variable (table : RoutingTable numNodes numPorts) (vc : Fin MAX_VC)

def attempt (place : Place numPorts) (msg : MessageState numNodes numPorts) (t : Track numNodes numPorts) :
    Track numNodes numPorts :=
  match routingPolicy table t.outs msg with
  | some route =>
    ⟨sendMessageToOutput t.outs msg route, t.left - 1, t.attempts ++ [⟨vc, place, t.left, true⟩]⟩
  | none => { t with attempts := t.attempts ++ [⟨vc, place, t.left, false⟩] }

/-- The loop over the internal buffer: behind a delivered message one is passed over. -/
def scan : Track numNodes numPorts → List (MessageState numNodes numPorts) → Track numNodes numPorts
  | t, [] => t
  | t, msg :: rest =>
    if 0 < t.left then
      match routingPolicy table t.outs msg, rest with
      | some _, [] => t.attempt table vc (.internal 0) msg
      | some _, _ :: later => scan (t.attempt table vc (.internal rest.length) msg) later
      | none, rest => scan (t.attempt table vc (.internal rest.length) msg) rest
    else t

/-- The first message of a port. -/
def port (p : Fin numPorts) (head : Option (MessageState numNodes numPorts)) (t : Track numNodes numPorts) :
    Track numNodes numPorts :=
  match head with
  | none => t
  | some msg => t.attempt table vc (.port p) msg

/-- The loop over the input ports. -/
def ports : Track numNodes numPorts → List (Fin numPorts × Option (MessageState numNodes numPorts)) →
    Track numNodes numPorts
  | t, [] => t
  | t, h :: rest =>
    if (t.port table vc h.1 h.2).left ≠ 0 then ports (t.port table vc h.1 h.2) rest
    else t.port table vc h.1 h.2

end Track

/-- What a virtual channel does to the output ports. -/
def NetSwitch.channel (sw : NetSwitch numNodes numPorts) (t : Track numNodes numPorts) (vc : Fin MAX_VC) :
    Track numNodes numPorts :=
  let t := t.scan sw.routingTable vc (sw.internalBuffer.ageBuffer.list vc)
  if sw.messagesWaiting vc = 0 then t else t.ports sw.routingTable vc (sw.circle vc)

namespace Track

variable {table : RoutingTable numNodes numPorts} {vc : Fin MAX_VC} {t : Track numNodes numPorts}
  {msg : MessageState numNodes numPorts} {rest : List (MessageState numNodes numPorts)}
  {route : Fin numPorts × Fin MAX_VC}

theorem scan_nil : t.scan table vc [] = t := rfl

theorem scan_stop (h : ¬0 < t.left) : t.scan table vc rest = t := by
  cases rest with
  | nil => exact scan_nil
  | cons msg rest =>
    unfold scan
    rw [if_neg h]

theorem scan_none (h : 0 < t.left) (hroute : routingPolicy table t.outs msg = none) :
    t.scan table vc (msg :: rest) = (t.attempt table vc (.internal rest.length) msg).scan table vc rest := by
  conv_lhs => unfold scan
  rw [if_pos h, hroute]

theorem scan_some (h : 0 < t.left) (hroute : routingPolicy table t.outs msg = some route) :
    t.scan table vc (msg :: rest) =
      (t.attempt table vc (.internal rest.length) msg).scan table vc rest.tail := by
  conv_lhs => unfold scan
  rw [if_pos h, hroute]
  cases rest with
  | nil => exact scan_nil.symm
  | cons m later => rfl

end Track

/-! ## The internal buffer -/

namespace NetSwitchInternalBuffer

variable {b : NetSwitchInternalBuffer numNodes numPorts} {vc w : Fin MAX_VC}
  {msg : MessageState numNodes numPorts} {pre rest : List (MessageState numNodes numPorts)}

/-- The cursor is in the queue of a virtual channel, behind some of its messages. -/
structure At (b : NetSwitchInternalBuffer numNodes numPorts) (vc : Fin MAX_VC)
    (pre rest : List (MessageState numNodes numPorts)) : Prop where
  priority : b.currPriority = vc
  list : b.ageBuffer.list vc = pre ++ rest
  cursor : b.currMessage = if rest = [] then none else some pre.length

theorem place_eq {i : Nat} (hpriority : b.currPriority = vc) (hlist : b.ageBuffer.list vc = pre ++ rest)
    (hi : i = pre.length) : b.place i = if rest = [] then none else some pre.length := by
  subst hi
  rw [place, hpriority, hlist, List.length_append]
  cases rest with
  | nil => simp
  | cons m rest => simp

theorem at_gotoFirstMessage (b : NetSwitchInternalBuffer numNodes numPorts) (vc : Fin MAX_VC) :
    (b.gotoFirstMessage vc).At vc [] (b.ageBuffer.list vc) :=
  ⟨rfl, rfl, place_eq rfl rfl rfl⟩

theorem At.getMessage (h : b.At vc pre rest) : b.getMessage = rest.head? := by
  unfold NetSwitchInternalBuffer.getMessage
  rw [h.cursor, h.priority, h.list]
  cases rest with
  | nil => rfl
  | cons m rest => simp

theorem At.nextMessage (h : b.At vc pre (msg :: rest)) :
    b.nextMessage.1 = rest.isEmpty ∧ b.nextMessage.2.At vc (pre ++ [msg]) rest := by
  have hcursor : b.currMessage = some pre.length := h.cursor.trans (if_neg (List.cons_ne_nil _ _))
  have hlist : b.ageBuffer.list vc = (pre ++ [msg]) ++ rest := by
    rw [h.list, List.append_assoc, List.singleton_append]
  have hplace : b.place (pre.length + 1) = if rest = [] then none else some (pre ++ [msg]).length :=
    place_eq h.priority hlist (by simp)
  unfold NetSwitchInternalBuffer.nextMessage
  rw [hcursor]
  refine ⟨?_, h.priority, hlist, hplace⟩
  dsimp only
  rw [hplace]
  cases rest <;> rfl

/-- At the end the cursor stays. -/
theorem At.nextMessage_nil (h : b.At vc pre []) : b.nextMessage = (true, b) := by
  unfold NetSwitchInternalBuffer.nextMessage
  rw [h.cursor, if_pos rfl]

theorem At.removeMessage (h : b.At vc pre (msg :: rest)) : b.removeMessage.At vc pre rest := by
  have hcursor : b.currMessage = some pre.length := h.cursor.trans (if_neg (List.cons_ne_nil _ _))
  have hlist : (b.ageBuffer.erase b.currPriority pre.length).list vc = pre ++ rest := by
    rw [h.priority, Queues.list_erase_self, h.list, List.eraseIdx_append_of_length_le (le_refl _),
      Nat.sub_self, List.eraseIdx_cons_zero]
  unfold NetSwitchInternalBuffer.removeMessage
  rw [hcursor]
  exact ⟨h.priority, hlist, place_eq h.priority hlist rfl⟩

theorem list_nextMessage : b.nextMessage.2.ageBuffer = b.ageBuffer := by
  unfold NetSwitchInternalBuffer.nextMessage
  cases b.currMessage <;> rfl

theorem list_removeMessage (hpriority : b.currPriority = vc) (hw : w ≠ vc) :
    b.removeMessage.ageBuffer.list w = b.ageBuffer.list w := by
  unfold NetSwitchInternalBuffer.removeMessage
  cases b.currMessage with
  | none => rfl
  | some i => exact Queues.list_erase_of_ne _ _ _ (by rwa [hpriority]) _

end NetSwitchInternalBuffer

/-! ## What the loops do -/

/-- The messages of the other virtual channels have not moved. -/
structure Kept (vc : Fin MAX_VC) (sw sw' : NetSwitch numNodes numPorts) : Prop where
  start : sw'.nextStartingPort = sw.nextStartingPort
  table : sw'.routingTable = sw.routingTable
  heads : ∀ w, w ≠ vc → ∀ p, (sw'.inputPorts p).peekMessage w = (sw.inputPorts p).peekMessage w
  internal : ∀ w, w ≠ vc →
    sw'.internalBuffer.ageBuffer.list w = sw.internalBuffer.ageBuffer.list w

theorem Kept.refl (vc : Fin MAX_VC) (sw : NetSwitch numNodes numPorts) : Kept vc sw sw :=
  ⟨rfl, rfl, fun _ _ _ => rfl, fun _ _ => rfl⟩

theorem Kept.trans {vc : Fin MAX_VC} {sw sw₁ sw₂ : NetSwitch numNodes numPorts} (h : Kept vc sw sw₁)
    (h' : Kept vc sw₁ sw₂) : Kept vc sw sw₂ where
  start := h'.start.trans h.start
  table := h'.table.trans h.table
  heads := fun w hw p => (h'.heads w hw p).trans (h.heads w hw p)
  internal := fun w hw => (h'.internal w hw).trans (h.internal w hw)

namespace Drive

variable {d : Drive numNodes numPorts} {vc : Fin MAX_VC} {msg : MessageState numNodes numPorts}
  {pre rest : List (MessageState numNodes numPorts)}

def track (d : Drive numNodes numPorts) : Track numNodes numPorts :=
  ⟨d.sw.outputPorts, d.bandwidthRemaining, d.attempts⟩

theorem track_outs (d : Drive numNodes numPorts) : d.track.outs = d.sw.outputPorts := rfl

theorem track_attempts (d : Drive numNodes numPorts) : d.track.attempts = d.attempts := rfl

theorem behind_eq (h : d.sw.internalBuffer.At vc pre (msg :: rest)) : d.behind = rest.length := by
  unfold behind
  rw [h.cursor, h.priority, h.list, if_neg (List.cons_ne_nil _ _), Option.getD_some, List.length_append,
    List.length_cons]
  omega

theorem track_internalBody (h : d.sw.internalBuffer.At vc pre (msg :: rest)) :
    (d.internalBody vc msg).track =
      d.track.attempt d.sw.routingTable vc (.internal rest.length) msg := by
  unfold internalBody Track.attempt
  rw [behind_eq h]
  dsimp only [track]
  cases routingPolicy d.sw.routingTable d.sw.outputPorts msg <;> rfl

/-- A round of the loop over the internal buffer leaves the cursor behind the message, and behind
    the next one as well if the message was delivered. -/
theorem internalBody_next (h : d.sw.internalBuffer.At vc pre (msg :: rest)) :
    ∃ pre' rest', rest' = (if routingPolicy d.sw.routingTable d.sw.outputPorts msg = none then rest
        else rest.tail) ∧
      (d.internalBody vc msg).sw.internalBuffer.nextMessage.1 = rest'.isEmpty ∧
      (d.internalBody vc msg).sw.internalBuffer.nextMessage.2.At vc pre' rest' := by
  unfold internalBody
  cases hroute : routingPolicy d.sw.routingTable d.sw.outputPorts msg with
  | none => exact ⟨_, rest, rfl, h.nextMessage⟩
  | some route =>
    have hremoved := h.removeMessage
    refine ⟨if rest = [] then pre else pre ++ rest.take 1, rest.tail, by simp, ?_⟩
    cases rest with
    | nil =>
      dsimp only
      rw [hremoved.nextMessage_nil]
      exact ⟨rfl, hremoved⟩
    | cons next later => exact hremoved.nextMessage

theorem internalBody_kept (h : d.sw.internalBuffer.At vc pre (msg :: rest)) :
    Kept vc d.sw (d.internalBody vc msg).sw ∧ (d.internalBody vc msg).sw.inputPorts = d.sw.inputPorts := by
  unfold internalBody
  split
  · refine ⟨⟨rfl, rfl, fun _ _ _ => rfl, fun w hw => ?_⟩, rfl⟩
    exact NetSwitchInternalBuffer.list_removeMessage h.priority hw
  · exact ⟨.refl _ _, rfl⟩

/-- The loop over the internal buffer does what the scan says. -/
theorem internalLoop_spec {fuel : Nat} (h : d.sw.internalBuffer.At vc pre rest) (hfuel : rest.length ≤ fuel) :
    (internalLoop vc fuel d).track = d.track.scan d.sw.routingTable vc rest ∧
      Kept vc d.sw (internalLoop vc fuel d).sw ∧
      (internalLoop vc fuel d).sw.inputPorts = d.sw.inputPorts := by
  induction fuel generalizing d pre rest with
  | zero =>
    rw [List.length_eq_zero_iff.mp (Nat.le_zero.mp hfuel)]
    exact ⟨rfl, .refl _ _, rfl⟩
  | succ fuel ih =>
    unfold internalLoop
    rw [h.getMessage]
    cases rest with
    | nil => exact ⟨rfl, .refl _ _, rfl⟩
    | cons msg rest =>
      dsimp only [List.head?_cons]
      by_cases hleft : 0 < d.bandwidthRemaining
      · rw [if_pos hleft]
        obtain ⟨pre', rest', hrest, hlast, hat⟩ := internalBody_next h
        obtain ⟨hkept, hinputs⟩ := internalBody_kept h
        have htrack := track_internalBody h
        have hshorter : rest'.length ≤ rest.length := by
          rw [hrest]
          split
          · exact le_refl _
          · rw [List.length_tail]
            omega
        have hscan : d.track.scan d.sw.routingTable vc (msg :: rest) =
            (d.internalBody vc msg).track.scan d.sw.routingTable vc rest' := by
          rw [htrack, hrest]
          cases hroute : routingPolicy d.sw.routingTable d.sw.outputPorts msg with
          | none => exact Track.scan_none hleft hroute
          | some route => exact Track.scan_some hleft hroute
        rw [hscan, hlast]
        have hmoved : Kept vc d.sw { (d.internalBody vc msg).sw with
            internalBuffer := (d.internalBody vc msg).sw.internalBuffer.nextMessage.2 } :=
          hkept.trans ⟨rfl, rfl, fun _ _ _ => rfl, fun w _ => by
            dsimp only
            rw [NetSwitchInternalBuffer.list_nextMessage]⟩
        cases rest' with
        | nil => exact ⟨rfl, hmoved, hinputs⟩
        | cons next later =>
          obtain ⟨hloop, hkept', hinputs'⟩ := ih (d := { d.internalBody vc msg with
            sw := { (d.internalBody vc msg).sw with
              internalBuffer := (d.internalBody vc msg).sw.internalBuffer.nextMessage.2 } }) hat
            (by rw [List.length_cons] at hfuel; omega)
          refine ⟨hloop.trans ?_, hmoved.trans hkept', hinputs'.trans hinputs⟩
          dsimp only [track]
          rw [hkept.table]
      · rw [if_neg hleft]
        exact ⟨(Track.scan_stop hleft).symm, .refl _ _, rfl⟩

/-! ## The input ports -/

theorem track_portBody (d : Drive numNodes numPorts) (vc : Fin MAX_VC) (p : Fin numPorts) : (d.portBody vc p).track =
    d.track.port d.sw.routingTable vc p ((d.sw.inputPorts p).peekMessage vc) := by
  unfold portBody Track.port
  cases (d.sw.inputPorts p).peekMessage vc with
  | none => rfl
  | some msg =>
    dsimp only
    unfold Track.attempt
    dsimp only [track]
    cases routingPolicy d.sw.routingTable d.sw.outputPorts msg with
    | some route => rfl
    | none =>
      dsimp only
      split
      · rfl
      · unfold NetSwitch.takeMessage
        split <;> rfl

theorem takeMessage_kept (sw : NetSwitch numNodes numPorts) (p : Fin numPorts) (vc : Fin MAX_VC) :
    Kept vc sw (sw.takeMessage p vc) ∧
      ∀ q, q ≠ p → (sw.takeMessage p vc).inputPorts q = sw.inputPorts q := by
  unfold NetSwitch.takeMessage
  split
  · exact ⟨.refl _ _, fun _ _ => rfl⟩
  · refine ⟨⟨rfl, rfl, fun w hw q => ?_, fun _ _ => rfl⟩, fun q hq => Function.update_of_ne hq ..⟩
    dsimp only
    by_cases hq : q = p
    · subst hq
      rw [Function.update_self]
      exact congrArg List.head? (Queues.list_erase_of_ne _ _ _ hw _)
    · rw [Function.update_of_ne hq]

/-- A message that is kept is one of its own virtual channel. -/
theorem portBody_kept (d : Drive numNodes numPorts) (vc : Fin MAX_VC) (p : Fin numPorts) : Kept vc d.sw (d.portBody vc p).sw ∧
    ∀ q, q ≠ p → (d.portBody vc p).sw.inputPorts q = d.sw.inputPorts q := by
  obtain ⟨htaken, hothers⟩ := takeMessage_kept d.sw p vc
  unfold portBody
  cases hmsg : (d.sw.inputPorts p).peekMessage vc with
  | none => exact ⟨.refl _ _, fun _ _ => rfl⟩
  | some msg =>
    dsimp only
    cases routingPolicy d.sw.routingTable d.sw.outputPorts msg with
    | some route => exact ⟨⟨htaken.start, htaken.table, htaken.heads, htaken.internal⟩, hothers⟩
    | none =>
      dsimp only
      split
      · exact ⟨.refl _ _, fun _ _ => rfl⟩
      · have hvc : msg.networkVC = vc :=
          (d.sw.inputPorts p).msl.filed vc msg (List.mem_of_mem_head? hmsg)
        refine ⟨⟨htaken.start, htaken.table, htaken.heads, fun w hw => ?_⟩, hothers⟩
        exact Queues.list_insert_of_ne _ _ _ (by rwa [hvc])

/-- The ports from one port on are those that follow it in the circle. -/
theorem mem_portsFrom {k : Nat} {p q : Fin numPorts} :
    q ∈ portsFrom k p ↔ ∃ j < k, q.val = (p.val + j) % numPorts := by
  induction k generalizing p with
  | zero => simp [portsFrom]
  | succ k ih =>
    have hnext : ∀ j, ((NetSwitch.nextPort p).val + j) % numPorts = (p.val + (j + 1)) % numPorts := by
      intro j
      rw [NetSwitch.nextPort, Nat.mod_add_mod, Nat.add_assoc, Nat.add_comm 1 j]
    rw [portsFrom, List.mem_cons, ih]
    constructor
    · rintro (rfl | ⟨j, hj, hq⟩)
      · exact ⟨0, Nat.succ_pos k, (Nat.mod_eq_of_lt q.isLt).symm⟩
      · exact ⟨j + 1, Nat.succ_lt_succ hj, hq.trans (hnext j)⟩
    · rintro ⟨j, hj, hq⟩
      cases j with
      | zero => exact .inl (Fin.ext (hq.trans (Nat.mod_eq_of_lt p.isLt)))
      | succ j => exact .inr ⟨j, Nat.lt_of_succ_lt_succ hj, hq.trans (hnext j).symm⟩

/-- Less than a whole round does not come back. -/
theorem add_mod_ne {n p j : Nat} (hp : p < n) (hj : 0 < j) (hjn : j < n) : (p + j) % n ≠ p := by
  intro h
  rcases Nat.lt_or_ge (p + j) n with hlt | hge
  · rw [Nat.mod_eq_of_lt hlt] at h
    omega
  · rw [Nat.mod_eq_sub_mod hge, Nat.mod_eq_of_lt (by omega)] at h
    omega

/-- The loop over the input ports ends when it comes back to the first port or no bandwidth
    is left after a port. -/
theorem portLoop_spec {sw : NetSwitch numNodes numPorts} (fuel : Nat) (p : Fin numPorts)
    (hstart : d.sw.nextStartingPort = sw.nextStartingPort) (htable : d.sw.routingTable = sw.routingTable)
    (hheads : ∀ q ∈ portsFrom fuel p,
      (d.sw.inputPorts q).peekMessage vc = (sw.inputPorts q).peekMessage vc)
    (hpos : (p.val + fuel) % numPorts = sw.nextStartingPort.val) (hfuel : fuel ≤ numPorts) :
    (portLoop vc fuel p d).track = d.track.ports sw.routingTable vc
        ((portsFrom fuel p).map fun q => (q, (sw.inputPorts q).peekMessage vc)) ∧
      Kept vc d.sw (portLoop vc fuel p d).sw := by
  induction fuel generalizing d p with
  | zero => exact ⟨rfl, .refl _ _⟩
  | succ k ih =>
    obtain ⟨hkept, hothers⟩ := portBody_kept d vc p
    have htrack := track_portBody d vc p
    rw [htable, hheads p List.mem_cons_self] at htrack
    have hleft : (d.portBody vc p).bandwidthRemaining =
        (d.track.port sw.routingTable vc p ((sw.inputPorts p).peekMessage vc)).left := by
      rw [← htrack]
      rfl
    unfold portLoop portsFrom
    rw [List.map_cons]
    unfold Track.ports
    dsimp only
    rw [hleft, hkept.start, hstart]
    by_cases hzero : (d.track.port sw.routingTable vc p ((sw.inputPorts p).peekMessage vc)).left = 0
    · rw [if_neg fun h => h.2 hzero, if_neg (not_not.mpr hzero)]
      exact ⟨htrack, hkept⟩
    · rw [if_pos hzero]
      by_cases hlast : NetSwitch.nextPort p = sw.nextStartingPort
      · rw [if_neg fun h => h.1 hlast]
        have hk : k = 0 := by
          by_contra hne
          have hback := congrArg Fin.val hlast
          rw [← hpos, ← Nat.add_assoc, Nat.add_right_comm p.val k 1, ← Nat.mod_add_mod] at hback
          exact add_mod_ne (NetSwitch.nextPort p).isLt (Nat.pos_of_ne_zero hne) (by omega) hback.symm
        subst hk
        exact ⟨htrack, hkept⟩
      · rw [if_pos ⟨hlast, hzero⟩]
        have hround : ((NetSwitch.nextPort p).val + k) % numPorts = sw.nextStartingPort.val := by
          rw [NetSwitch.nextPort, Nat.mod_add_mod, ← hpos]
          congr 1
          omega
        obtain ⟨hloop, hkept'⟩ := ih (d := d.portBody vc p) (NetSwitch.nextPort p) (hkept.start.trans hstart)
          (hkept.table.trans htable) (fun q hq => by
            have hne : q ≠ p := by
              rintro rfl
              obtain ⟨j, hj, hback⟩ := mem_portsFrom.mp hq
              rw [NetSwitch.nextPort, Nat.mod_add_mod, Nat.add_assoc] at hback
              exact add_mod_ne q.isLt (by omega) (by omega) hback.symm
            rw [hothers q hne, hheads q (List.mem_cons_of_mem _ hq)]) hround (by omega)
        rw [hloop, htrack]
        exact ⟨rfl, hkept.trans hkept'⟩

/-- The switch is as in the beginning of the cycle for some virtual channels. -/
structure Fresh (vcs : List (Fin MAX_VC)) (sw sw' : NetSwitch numNodes numPorts) : Prop where
  start : sw'.nextStartingPort = sw.nextStartingPort
  table : sw'.routingTable = sw.routingTable
  heads : ∀ w ∈ vcs, ∀ p, (sw'.inputPorts p).peekMessage w = (sw.inputPorts p).peekMessage w
  internal : ∀ w ∈ vcs, sw'.internalBuffer.ageBuffer.list w = sw.internalBuffer.ageBuffer.list w

theorem Fresh.kept {vcs : List (Fin MAX_VC)} {sw sw₁ sw₂ : NetSwitch numNodes numPorts}
    (h : Fresh (vc :: vcs) sw sw₁) (hkept : Kept vc sw₁ sw₂) (hvc : vc ∉ vcs) : Fresh vcs sw sw₂ where
  start := hkept.start.trans h.start
  table := hkept.table.trans h.table
  heads := fun w hw p =>
    (hkept.heads w (fun heq => hvc (heq ▸ hw)) p).trans (h.heads w (List.mem_cons_of_mem _ hw) p)
  internal := fun w hw =>
    (hkept.internal w fun heq => hvc (heq ▸ hw)).trans (h.internal w (List.mem_cons_of_mem _ hw))

theorem driveVC_spec {vcs : List (Fin MAX_VC)} {sw : NetSwitch numNodes numPorts}
    (h : Fresh (vc :: vcs) sw d.sw) :
    (d.driveVC vc).track = sw.channel d.track vc ∧ Kept vc d.sw (d.driveVC vc).sw := by
  unfold driveVC NetSwitch.channel
  rw [← h.internal vc List.mem_cons_self, ← h.table]
  have hat := NetSwitchInternalBuffer.at_gotoFirstMessage d.sw.internalBuffer vc
  generalize hd : ({ d with sw := { d.sw with
    internalBuffer := d.sw.internalBuffer.gotoFirstMessage vc } } : Drive numNodes numPorts) = d₀
  have hgoto : d₀.track = d.track ∧ Kept vc d.sw d₀.sw ∧ d₀.sw.inputPorts = d.sw.inputPorts ∧
      d₀.sw.routingTable = d.sw.routingTable ∧
      d₀.sw.internalBuffer.At vc [] (d.sw.internalBuffer.ageBuffer.list vc) ∧
      d₀.sw.internalBuffer.ageBuffer.list vc = d.sw.internalBuffer.ageBuffer.list vc := by
    rw [← hd]
    exact ⟨rfl, ⟨rfl, rfl, fun _ _ _ => rfl, fun _ _ => rfl⟩, rfl, rfl, hat, rfl⟩
  obtain ⟨htrack, hkept₀, hinputs₀, htable₀, hat₀, hlist₀⟩ := hgoto
  obtain ⟨hloop, hkept₁, hinputs₁⟩ := internalLoop_spec hat₀ (le_of_eq (congrArg List.length hlist₀).symm)
  rw [htrack, htable₀] at hloop
  dsimp only
  generalize internalLoop vc (d₀.sw.internalBuffer.ageBuffer.list vc).length d₀ = d₁
    at hloop hkept₁ hinputs₁ ⊢
  have hheads : ∀ p, (d₁.sw.inputPorts p).peekMessage vc = (sw.inputPorts p).peekMessage vc := by
    intro p
    rw [hinputs₁, hinputs₀]
    exact h.heads vc List.mem_cons_self p
  have hkept := hkept₀.trans hkept₁
  have hwaiting : d₁.sw.messagesWaiting vc = 0 ↔ sw.messagesWaiting vc = 0 := by
    rw [d₁.sw.counted, sw.counted, ready_eq_zero, ready_eq_zero]
    exact forall_congr' fun p => by rw [hheads p]
  by_cases hzero : sw.messagesWaiting vc = 0
  · rw [if_pos (hwaiting.mpr hzero), if_pos hzero]
    exact ⟨hloop, hkept⟩
  · rw [if_neg (hwaiting.not.mpr hzero), if_neg hzero]
    have hstart : d₁.sw.nextStartingPort = sw.nextStartingPort := hkept.start.trans h.start
    obtain ⟨hports, hkept₂⟩ := portLoop_spec numPorts d₁.sw.nextStartingPort hstart
      (hkept.table.trans h.table) (fun q _ => hheads q)
      (by rw [hstart, Nat.add_mod_right, Nat.mod_eq_of_lt sw.nextStartingPort.isLt]) (le_refl _)
    refine ⟨?_, hkept.trans hkept₂⟩
    rw [hports, hloop, hstart, h.table]
    rfl

/-- A whole cycle on the output ports. -/
theorem foldl_driveVC {vcs : List (Fin MAX_VC)} {sw : NetSwitch numNodes numPorts} (hnodup : vcs.Nodup)
    (h : Fresh vcs sw d.sw) : (vcs.foldl driveVC d).track = vcs.foldl sw.channel d.track := by
  induction vcs generalizing d with
  | nil => rfl
  | cons vc vcs ih =>
    obtain ⟨hvc, hnodup⟩ := List.nodup_cons.mp hnodup
    obtain ⟨htrack, hkept⟩ := driveVC_spec h
    rw [List.foldl_cons, List.foldl_cons, ← htrack]
    exact ih hnodup (h.kept hkept hvc)

end Drive

/-! ## The loops and the algorithm -/

namespace Track

variable {table : RoutingTable numNodes numPorts} {vc : Fin MAX_VC} {t : Track numNodes numPorts}
  {place : Place numPorts} {msg : MessageState numNodes numPorts}
  {l : List (MessageState numNodes numPorts)}
  {hs : List (Fin numPorts × Option (MessageState numNodes numPorts))}

theorem attempt_none (hroute : routingPolicy table t.outs msg = none) :
    t.attempt table vc place msg = { t with attempts := t.attempts ++ [⟨vc, place, t.left, false⟩] } := by
  unfold attempt
  rw [hroute]

theorem attempt_some {route : Fin numPorts × Fin MAX_VC} (hroute : routingPolicy table t.outs msg = some route) :
    t.attempt table vc place msg =
      ⟨sendMessageToOutput t.outs msg route, t.left - 1, t.attempts ++ [⟨vc, place, t.left, true⟩]⟩ := by
  unfold attempt
  rw [hroute]

theorem mem_attempt {a : Attempt numPorts} (ha : a ∈ (t.attempt table vc place msg).attempts) :
    a ∈ t.attempts ∨ a.vc = vc ∧ a.place = place := by
  cases hroute : routingPolicy table t.outs msg with
  | none =>
    rw [attempt_none hroute, List.mem_append, List.mem_singleton] at ha
    exact ha.imp id fun h => by rw [h]; exact ⟨rfl, rfl⟩
  | some route =>
    rw [attempt_some hroute, List.mem_append, List.mem_singleton] at ha
    exact ha.imp id fun h => by rw [h]; exact ⟨rfl, rfl⟩

/-- The scan tries messages of its queue only. -/
theorem mem_scan {a : Attempt numPorts} (ha : a ∈ (t.scan table vc l).attempts) :
    a ∈ t.attempts ∨ a.vc = vc ∧ ∃ k < l.length, a.place = .internal k := by
  fun_induction scan table vc t l with
  | case1 t => exact .inl ha
  | case2 t msg hleft route hroute =>
    exact (mem_attempt ha).imp id fun h => ⟨h.1, 0, Nat.zero_lt_one, h.2⟩
  | case3 t msg hleft route next later hroute ih =>
    rcases ih ha with h | ⟨hvc, k, hk, hplace⟩
    · exact (mem_attempt h).imp id fun h => ⟨h.1, _, Nat.lt_succ_self _, h.2⟩
    · exact .inr ⟨hvc, k, by simp only [List.length_cons]; omega, hplace⟩
  | case4 t msg rest hleft hroute ih =>
    rcases ih ha with h | ⟨hvc, k, hk, hplace⟩
    · exact (mem_attempt h).imp id fun h => ⟨h.1, _, Nat.lt_succ_self _, h.2⟩
    · exact .inr ⟨hvc, k, by simp only [List.length_cons]; omega, hplace⟩
  | case5 t msg rest hleft => exact .inl ha

theorem mem_ports {a : Attempt numPorts} (ha : a ∈ (t.ports table vc hs).attempts) :
    a ∈ t.attempts ∨ a.vc = vc ∧ ∃ p, a.place = .port p := by
  have hport : ∀ {t : Track numNodes numPorts} {h : Fin numPorts × Option (MessageState numNodes numPorts)},
      a ∈ (t.port table vc h.1 h.2).attempts → a ∈ t.attempts ∨ a.vc = vc ∧ ∃ p, a.place = .port p := by
    intro t h ha
    obtain ⟨p, head⟩ := h
    cases head with
    | none => exact .inl ha
    | some msg => exact (mem_attempt ha).imp id fun h => ⟨h.1, p, h.2⟩
  fun_induction ports table vc t hs with
  | case1 t => exact .inl ha
  | case2 t h rest hleft ih => exact (ih ha).elim hport .inr
  | case3 t h rest hleft => exact hport ha

/-! Every message that is delivered costs one unit of the bandwidth. -/

/-- Messages and bandwidth together. -/
def balance (t : Track numNodes numPorts) : Int := held t.outs + t.left

theorem held_sendMessageToOutput (outs : Ports numNodes numPorts) (route : Fin numPorts × Fin MAX_VC) :
    held (sendMessageToOutput outs msg route) = held outs + 1 := by
  obtain ⟨p, out⟩ := route
  have hothers : ∑ q ∈ Finset.univ.erase p,
      ∑ w, ((sendMessageToOutput outs msg (p, out) q).msl.list w).length =
        ∑ q ∈ Finset.univ.erase p, ∑ w, ((outs q).msl.list w).length := by
    refine Finset.sum_congr rfl fun q hq => ?_
    rw [sendMessageToOutput, Function.update_of_ne (Finset.ne_of_mem_erase hq)]
  have hport : ∑ w, ((sendMessageToOutput outs msg (p, out) p).msl.list w).length =
      ∑ w, ((outs p).msl.list w).length + 1 := by
    have hlist : ∀ w, ((sendMessageToOutput outs msg (p, out) p).msl.list w).length =
        ((outs p).msl.list w).length + if w = out then 1 else 0 := by
      intro w
      rw [sendMessageToOutput, Function.update_self]
      by_cases hw : w = out
      · subst hw
        simp [ChannelPort.insertMessage, Queues.insert]
      · simp [ChannelPort.insertMessage, Queues.insert, hw]
    rw [Finset.sum_congr rfl fun w _ => hlist w, Finset.sum_add_distrib, Finset.sum_ite_eq' Finset.univ out]
    simp
  unfold held
  rw [← Finset.add_sum_erase Finset.univ _ (Finset.mem_univ p), hothers, hport,
    ← Finset.add_sum_erase Finset.univ (fun q => ∑ w, ((outs q).msl.list w).length) (Finset.mem_univ p)]
  omega

theorem attempt_balance : (t.attempt table vc place msg).balance = t.balance ∧
    (t.attempt table vc place msg).left ≤ t.left := by
  unfold balance
  cases hroute : routingPolicy table t.outs msg with
  | none =>
    rw [attempt_none hroute]
    exact ⟨rfl, le_refl _⟩
  | some route =>
    rw [attempt_some hroute, held_sendMessageToOutput]
    dsimp only
    omega

theorem scan_balance : (t.scan table vc l).balance = t.balance ∧ (t.scan table vc l).left ≤ t.left := by
  fun_induction scan table vc t l with
  | case1 t => exact ⟨rfl, le_refl _⟩
  | case2 t msg hleft route hroute => exact attempt_balance
  | case3 t msg hleft route next later hroute ih =>
    exact ⟨ih.1.trans attempt_balance.1, ih.2.trans attempt_balance.2⟩
  | case4 t msg rest hleft hroute ih =>
    exact ⟨ih.1.trans attempt_balance.1, ih.2.trans attempt_balance.2⟩
  | case5 t msg rest hleft => exact ⟨rfl, le_refl _⟩

theorem port_balance {p : Fin numPorts} {head : Option (MessageState numNodes numPorts)} :
    (t.port table vc p head).balance = t.balance ∧ (t.port table vc p head).left ≤ t.left := by
  cases head with
  | none => exact ⟨rfl, le_refl _⟩
  | some msg => exact attempt_balance

theorem ports_balance : (t.ports table vc hs).balance = t.balance ∧
    (t.ports table vc hs).left ≤ t.left := by
  fun_induction ports table vc t hs with
  | case1 t => exact ⟨rfl, le_refl _⟩
  | case2 t h rest hleft ih => exact ⟨ih.1.trans port_balance.1, ih.2.trans port_balance.2⟩
  | case3 t h rest hleft => exact port_balance

/-- The loops have done just what the algorithm has done so far. -/
structure Sync (t : Track numNodes numPorts) (st : Nat × Ports numNodes numPorts)
    (done : List (Candidate numNodes numPorts)) : Prop where
  outs : t.outs = st.2
  left : t.left = st.1
  places : places t.attempts = done.map fun c => (c.vc, c.place)

theorem places_append (as : List (Attempt numPorts)) (a : Attempt numPorts) :
    nNetShim.places (as ++ [a]) =
      nNetShim.places as ++ if 0 < a.bandwidthRemaining then [(a.vc, a.place)] else [] := by
  unfold nNetShim.places
  rw [List.filter_append, List.map_append]
  by_cases h : 0 < a.bandwidthRemaining
  · simp [h]
  · simp [h]

variable {b : Nat} {outs outs' : Ports numNodes numPorts} {st : Nat × Ports numNodes numPorts}
  {done : List (Candidate numNodes numPorts)}

theorem Sync.undelivered (h : Sync t (b + 1, outs) done)
    (hserve : AttemptDelivery table outs ⟨vc, place, msg⟩ = none) :
    Sync (t.attempt table vc place msg) (b + 1, outs) (done ++ [⟨vc, place, msg⟩]) := by
  have hleft : 0 < t.left := by rw [h.left]; exact Int.natCast_pos.mpr (Nat.succ_pos b)
  have hroute : routingPolicy table t.outs msg = none := by
    rw [h.outs]
    exact Option.map_eq_none_iff.mp hserve
  rw [attempt_none hroute]
  refine ⟨h.outs, h.left, ?_⟩
  rw [places_append, h.places, if_pos hleft, List.map_append, List.map_singleton]

theorem Sync.delivered (h : Sync t (b + 1, outs) done)
    (hserve : AttemptDelivery table outs ⟨vc, place, msg⟩ = some outs') :
    Sync (t.attempt table vc place msg) (b, outs') (done ++ [⟨vc, place, msg⟩]) := by
  have hleft : 0 < t.left := by rw [h.left]; exact Int.natCast_pos.mpr (Nat.succ_pos b)
  obtain ⟨route, hroute, hsend⟩ := Option.map_eq_some_iff.mp hserve
  have houts : t.outs = outs := h.outs
  dsimp only at hroute hsend
  rw [← houts] at hroute hsend
  rw [attempt_some hroute]
  refine ⟨hsend, ?_, ?_⟩
  · dsimp only
    rw [h.left]
    push_cast
    omega
  · rw [places_append, h.places, if_pos hleft, List.map_append, List.map_singleton]

/-- The scan does what the algorithm does if it passes nothing over. -/
theorem Sync.scan (h : Sync t st done)
    (hlast : ServedLast (AttemptDelivery table) st (inAgeOrder vc l)) :
    Sync (t.scan table vc l) (serveAll (AttemptDelivery table) st (inAgeOrder vc l))
      (done ++ tried (AttemptDelivery table) st (inAgeOrder vc l)) := by
  induction l generalizing t st done with
  | nil =>
    rw [inAgeOrder, tried, List.append_nil]
    exact h
  | cons msg rest ih =>
    obtain ⟨b, outs⟩ := st
    cases b with
    | zero =>
      have hleft : ¬0 < t.left := by rw [h.left]; exact lt_irrefl _
      rw [scan_stop hleft, serveAll_zero, tried_zero, List.append_nil]
      exact h
    | succ b =>
      have hleft : 0 < t.left := by rw [h.left]; exact Int.natCast_pos.mpr (Nat.succ_pos b)
      have houts : t.outs = outs := h.outs
      unfold inAgeOrder at hlast ⊢
      cases hserve : AttemptDelivery table outs ⟨vc, .internal rest.length, msg⟩ with
      | none =>
        have hroute : routingPolicy table t.outs msg = none := by
          rw [houts]
          exact Option.map_eq_none_iff.mp hserve
        rw [servedLast_none hserve] at hlast
        rw [scan_none hleft hroute, serveAll_none hserve, tried_none hserve, List.append_cons]
        exact ih (h.undelivered hserve) hlast
      | some outs' =>
        obtain ⟨route, hroute, -⟩ := Option.map_eq_some_iff.mp hserve
        rw [servedLast_some hserve] at hlast
        rw [scan_some hleft (houts ▸ hroute), serveAll_some hserve, tried_some hserve, List.append_cons]
        have hsync := h.delivered hserve
        rcases hlast with rfl | hnil
        · have hspent : ¬0 < (t.attempt table vc (.internal rest.length) msg).left := by
            rw [hsync.left]
            exact lt_irrefl _
          rw [scan_stop hspent, serveAll_zero, tried_zero, List.append_nil]
          exact hsync
        · cases rest with
          | nil =>
            rw [inAgeOrder, tried, List.append_nil]
            exact hsync
          | cons next later => cases hnil

/-- Otherwise the scan passes a message over that the algorithm tries. -/
theorem Sync.passed_over (h : Sync t st done)
    (hlast : ¬ServedLast (AttemptDelivery table) st (inAgeOrder vc l)) :
    ∃ k < l.length,
      (vc, Place.internal k) ∈ (tried (AttemptDelivery table) st (inAgeOrder vc l)).map (fun c => (c.vc, c.place)) ∧
      ∀ a ∈ (t.scan table vc l).attempts, a ∈ t.attempts ∨ a.place ≠ .internal k := by
  induction l generalizing t st done with
  | nil => exact absurd trivial hlast
  | cons msg rest ih =>
    obtain ⟨b, outs⟩ := st
    cases b with
    | zero => exact absurd trivial hlast
    | succ b =>
      have hleft : 0 < t.left := by rw [h.left]; exact Int.natCast_pos.mpr (Nat.succ_pos b)
      have houts : t.outs = outs := h.outs
      unfold inAgeOrder at hlast ⊢
      cases hserve : AttemptDelivery table outs ⟨vc, .internal rest.length, msg⟩ with
      | none =>
        have hroute : routingPolicy table t.outs msg = none := by
          rw [houts]
          exact Option.map_eq_none_iff.mp hserve
        rw [servedLast_none hserve] at hlast
        obtain ⟨k, hk, htried, hmissed⟩ := ih (h.undelivered hserve) hlast
        rw [scan_none hleft hroute, tried_none hserve]
        refine ⟨k, Nat.lt_succ_of_lt hk, List.mem_cons_of_mem _ htried, fun a ha => ?_⟩
        rcases hmissed a ha with ha | hne
        · rcases mem_attempt ha with ha | ⟨-, hplace⟩
          · exact .inl ha
          · exact .inr (by rw [hplace, ne_eq, Place.internal.injEq]; omega)
        · exact .inr hne
      | some outs' =>
        obtain ⟨route, hroute, -⟩ := Option.map_eq_some_iff.mp hserve
        rw [servedLast_some hserve, not_or] at hlast
        obtain ⟨hb, hrest⟩ := hlast
        rw [scan_some hleft (houts ▸ hroute), tried_some hserve]
        cases rest with
        | nil => exact absurd rfl hrest
        | cons next later =>
          obtain ⟨b', rfl⟩ := Nat.exists_eq_succ_of_ne_zero hb
          refine ⟨later.length, by simp only [List.length_cons]; omega, ?_, fun a ha => ?_⟩
          · rw [inAgeOrder, tried]
            simp
          · rcases mem_scan ha with ha | ⟨-, k, hk, hplace⟩
            · rcases mem_attempt ha with ha | ⟨-, hplace⟩
              · exact .inl ha
              · exact .inr (by rw [hplace, ne_eq, Place.internal.injEq, List.length_cons]; omega)
            · rw [List.tail_cons] at hk
              exact .inr (by rw [hplace, ne_eq, Place.internal.injEq]; omega)

theorem ports_stop {p : Fin numPorts} {head : Option (MessageState numNodes numPorts)}
    (h : (t.port table vc p head).left = 0) :
    t.ports table vc ((p, head) :: hs) = t.port table vc p head := by
  unfold Track.ports
  rw [if_neg (not_not.mpr h)]

theorem ports_go {p : Fin numPorts} {head : Option (MessageState numNodes numPorts)}
    (h : (t.port table vc p head).left ≠ 0) :
    t.ports table vc ((p, head) :: hs) = (t.port table vc p head).ports table vc hs := by
  conv_lhs => unfold Track.ports
  rw [if_pos h]

/-- With bandwidth left the input ports are tried as the algorithm says. -/
theorem Sync.ports (h : Sync t st done) (hleft : st.1 ≠ 0) :
    Sync (t.ports table vc hs) (serveAll (AttemptDelivery table) st (heads vc hs))
      (done ++ tried (AttemptDelivery table) st (heads vc hs)) := by
  induction hs generalizing t st done with
  | nil =>
    rw [heads, List.filterMap_nil, tried, List.append_nil]
    exact h
  | cons h₀ rest ih =>
    obtain ⟨p, head⟩ := h₀
    obtain ⟨b, outs⟩ := st
    obtain ⟨b, rfl⟩ := Nat.exists_eq_succ_of_ne_zero hleft
    have hnext : ∀ {st' : Nat × Ports numNodes numPorts} {done' : List (Candidate numNodes numPorts)},
        Sync (t.port table vc p head) st' done' → Sync (t.ports table vc ((p, head) :: rest))
          (serveAll (AttemptDelivery table) st' (heads vc rest))
          (done' ++ tried (AttemptDelivery table) st' (heads vc rest)) := by
      intro st' done' h'
      obtain ⟨b', outs'⟩ := st'
      cases b' with
      | zero =>
        rw [ports_stop h'.left, serveAll_zero, tried_zero, List.append_nil]
        exact h'
      | succ b' =>
        rw [ports_go (by rw [h'.left]; exact Int.natCast_ne_zero.mpr (Nat.succ_ne_zero b'))]
        exact ih h' (Nat.succ_ne_zero b')
    cases head with
    | none => exact hnext h
    | some msg =>
      have hheads : heads vc ((p, some msg) :: rest) = ⟨vc, .port p, msg⟩ :: heads vc rest := rfl
      rw [hheads]
      cases hserve : AttemptDelivery table outs ⟨vc, .port p, msg⟩ with
      | none =>
        rw [serveAll_none hserve, tried_none hserve, List.append_cons]
        exact hnext (h.undelivered hserve)
      | some outs' =>
        rw [serveAll_some hserve, tried_some hserve, List.append_cons]
        exact hnext (h.delivered hserve)

/-- Without bandwidth left the first port is tried all the same. -/
theorem Sync.overrun (h : Sync t (0, outs) done) {p : Fin numPorts}
    {head : Option (MessageState numNodes numPorts)} :
    ((∀ msg, head = some msg → routingPolicy table outs msg = none) →
      Sync (t.ports table vc ((p, head) :: hs)) (0, outs) done) ∧
    (∀ msg, head = some msg → routingPolicy table outs msg ≠ none →
      (t.ports table vc ((p, head) :: hs)).left < 0) := by
  have hleft : t.left = 0 := h.left
  have houts : t.outs = outs := h.outs
  constructor
  · intro hunrouted
    cases head with
    | none =>
      have hport : (t.port table vc p none).left = 0 := hleft
      rw [ports_stop hport]
      exact h
    | some msg =>
      have hroute := hunrouted msg rfl
      rw [← houts] at hroute
      have hport : t.port table vc p (some msg) =
          { t with attempts := t.attempts ++ [⟨vc, .port p, t.left, false⟩] } := attempt_none hroute
      rw [ports_stop (by rw [hport]; exact hleft), hport]
      refine ⟨h.outs, h.left, ?_⟩
      rw [places_append, h.places, if_neg (by dsimp only; omega), List.append_nil]
  · rintro msg rfl hrouted
    obtain ⟨route, hroute⟩ := Option.ne_none_iff_exists'.mp hrouted
    rw [← houts] at hroute
    have hspent : (t.port table vc p (some msg)).left < 0 := by
      unfold port
      dsimp only
      rw [attempt_some hroute]
      dsimp only
      omega
    rw [ports_go (ne_of_lt hspent)]
    exact lt_of_le_of_lt ports_balance.2 hspent

end Track

namespace NetSwitch

variable {sw : NetSwitch numNodes numPorts} {vc : Fin MAX_VC} {vcs : List (Fin MAX_VC)}
  {t : Track numNodes numPorts} {st : Nat × Ports numNodes numPorts}
  {done : List (Candidate numNodes numPorts)}

theorem exists_portsFrom {k : Nat} (hk : 0 < k) (p : Fin numPorts) :
    ∃ rest, portsFrom k p = p :: rest := by
  cases k with
  | zero => exact absurd hk (lt_irrefl 0)
  | succ k => exact ⟨_, rfl⟩

/-- The circle begins with the starting port. -/
theorem exists_circle (sw : NetSwitch numNodes numPorts) (vc : Fin MAX_VC) : ∃ rest, sw.circle vc =
    (sw.nextStartingPort, (sw.inputPorts sw.nextStartingPort).peekMessage vc) :: rest := by
  obtain ⟨rest, hrest⟩ := exists_portsFrom (Nat.zero_lt_of_lt sw.nextStartingPort.isLt) sw.nextStartingPort
  unfold circle
  rw [hrest, List.map_cons]
  exact ⟨_, rfl⟩

theorem heads_circle (h : sw.messagesWaiting vc = 0) : heads vc (sw.circle vc) = [] := by
  rw [sw.counted, ready_eq_zero] at h
  unfold heads circle
  rw [List.filterMap_eq_nil_iff]
  intro x hx
  obtain ⟨p, -, rfl⟩ := List.mem_map.mp hx
  rw [h p]
  rfl

theorem mem_channel {a : Attempt numPorts} (ha : a ∈ (sw.channel t vc).attempts) :
    a ∈ (t.scan sw.routingTable vc (sw.internalBuffer.ageBuffer.list vc)).attempts ∨
      a.vc = vc ∧ ∃ p, a.place = .port p := by
  unfold channel at ha
  dsimp only at ha
  split at ha
  · exact .inl ha
  · exact Track.mem_ports ha

theorem mem_foldl_channel {a : Attempt numPorts} (ha : a ∈ (vcs.foldl sw.channel t).attempts) :
    a ∈ t.attempts ∨ a.vc ∈ vcs := by
  induction vcs generalizing t with
  | nil => exact .inl ha
  | cons vc vcs ih =>
    rcases ih ha with ha | ha
    · rcases mem_channel ha with ha | ⟨hvc, -⟩
      · exact (Track.mem_scan ha).imp id fun h => by rw [h.1]; exact List.mem_cons_self
      · exact .inr (by rw [hvc]; exact List.mem_cons_self)
    · exact .inr (List.mem_cons_of_mem _ ha)

theorem channel_balance (sw : NetSwitch numNodes numPorts) (t : Track numNodes numPorts)
    (vc : Fin MAX_VC) : (sw.channel t vc).balance = t.balance ∧
    (sw.channel t vc).left ≤ (t.scan sw.routingTable vc (sw.internalBuffer.ageBuffer.list vc)).left := by
  unfold channel
  dsimp only
  split
  · exact ⟨Track.scan_balance.1, le_refl _⟩
  · exact ⟨Track.ports_balance.1.trans Track.scan_balance.1, Track.ports_balance.2⟩

theorem foldl_channel_balance (sw : NetSwitch numNodes numPorts) (t : Track numNodes numPorts)
    (vcs : List (Fin MAX_VC)) : (vcs.foldl sw.channel t).balance = t.balance ∧
    (vcs.foldl sw.channel t).left ≤ t.left := by
  induction vcs generalizing t with
  | nil => exact ⟨rfl, le_refl _⟩
  | cons vc vcs ih =>
    have hfirst := channel_balance sw t vc
    obtain ⟨hbalance, hleft⟩ := ih (sw.channel t vc)
    exact ⟨hbalance.trans hfirst.1, hleft.trans (hfirst.2.trans Track.scan_balance.2)⟩

/-- A virtual channel that meets the conditions follows the algorithm. -/
theorem channel_sync (h : t.Sync st done)
    (hlast : ServedLast (AttemptDelivery sw.routingTable) st
      (inAgeOrder vc (sw.internalBuffer.ageBuffer.list vc)))
    (hspent : (serveAll (AttemptDelivery sw.routingTable) st
        (inAgeOrder vc (sw.internalBuffer.ageBuffer.list vc))).1 = 0 →
      ∀ msg, (sw.inputPorts sw.nextStartingPort).peekMessage vc = some msg →
        routingPolicy sw.routingTable (serveAll (AttemptDelivery sw.routingTable) st
          (inAgeOrder vc (sw.internalBuffer.ageBuffer.list vc))).2 msg = none) :
    (sw.channel t vc).Sync (serveAll (AttemptDelivery sw.routingTable) st (sw.candidates vc))
      (done ++ tried (AttemptDelivery sw.routingTable) st (sw.candidates vc)) := by
  have hscan := h.scan hlast
  unfold candidates
  rw [serveAll_append, tried_append, ← List.append_assoc]
  generalize serveAll (AttemptDelivery sw.routingTable) st
    (inAgeOrder vc (sw.internalBuffer.ageBuffer.list vc)) = st' at hscan hspent ⊢
  obtain ⟨b, outs⟩ := st'
  unfold channel
  dsimp only
  split
  · next hzero =>
    rw [heads_circle hzero, serveAll, tried, List.append_nil]
    exact hscan
  · by_cases hb : b = 0
    · subst hb
      obtain ⟨rest, hcircle⟩ := sw.exists_circle vc
      rw [serveAll_zero, tried_zero, List.append_nil, hcircle]
      exact hscan.overrun.1 (hspent rfl)
    · exact hscan.ports hb

/-- The loops follow the algorithm through the virtual channels that are left exactly if these
    meet the conditions. -/
theorem foldl_channel_iff (sw : NetSwitch numNodes numPorts) (hnodup : vcs.Nodup) (h : t.Sync st done)
    (hbefore : ∀ a ∈ t.attempts, a.vc ∉ vcs) :
    (0 ≤ (vcs.foldl sw.channel t).left ∧ places (vcs.foldl sw.channel t).attempts =
      (done ++ tried (AttemptDelivery sw.routingTable) st (vcs.flatMap sw.candidates)).map
        fun c => (c.vc, c.place)) ↔ sw.Undisturbed vcs st := by
  induction vcs generalizing t st done with
  | nil =>
    rw [List.flatMap_nil, tried, List.append_nil]
    refine iff_of_true ⟨?_, h.places⟩ trivial
    rw [List.foldl_nil, h.left]
    exact Int.natCast_nonneg _
  | cons vc vcs ih =>
    obtain ⟨hvc, hnodup⟩ := List.nodup_cons.mp hnodup
    rw [List.foldl_cons, List.flatMap_cons, tried_append, ← List.append_assoc]
    unfold Undisturbed
    dsimp only
    by_cases hlast : ServedLast (AttemptDelivery sw.routingTable) st
        (inAgeOrder vc (sw.internalBuffer.ageBuffer.list vc))
    · by_cases hspent : (serveAll (AttemptDelivery sw.routingTable) st
          (inAgeOrder vc (sw.internalBuffer.ageBuffer.list vc))).1 = 0 →
        ∀ msg, (sw.inputPorts sw.nextStartingPort).peekMessage vc = some msg →
          routingPolicy sw.routingTable (serveAll (AttemptDelivery sw.routingTable) st
            (inAgeOrder vc (sw.internalBuffer.ageBuffer.list vc))).2 msg = none
      · refine (ih hnodup (channel_sync h hlast hspent) fun a ha hmem => ?_).trans
          ⟨fun hrest => ⟨hlast, hspent, hrest⟩, fun hall => hall.2.2⟩
        have hown : a.vc ≠ vc := fun heq => hvc (heq ▸ hmem)
        rcases mem_channel ha with ha | ⟨heq, -⟩
        · rcases Track.mem_scan ha with ha | ⟨heq, -⟩
          · exact hbefore a ha (List.mem_cons_of_mem _ hmem)
          · exact hown heq
        · exact hown heq
      · refine iff_of_false (fun hall => ?_) fun hall => hspent hall.2.1
        push Not at hspent
        obtain ⟨hzero, msg, hmsg, hrouted⟩ := hspent
        have hscan := h.scan hlast
        generalize serveAll (AttemptDelivery sw.routingTable) st
          (inAgeOrder vc (sw.internalBuffer.ageBuffer.list vc)) = st' at hscan hzero hrouted
        obtain ⟨b, outs⟩ := st'
        subst hzero
        have hwaiting : sw.messagesWaiting vc ≠ 0 := by
          rw [ne_eq, sw.counted, ready_eq_zero]
          intro hnone
          rw [hnone] at hmsg
          cases hmsg
        obtain ⟨rest, hcircle⟩ := sw.exists_circle vc
        have hnegative : (sw.channel t vc).left < 0 := by
          unfold channel
          dsimp only
          rw [if_neg hwaiting, hcircle]
          exact hscan.overrun.2 msg hmsg hrouted
        have hend := (foldl_channel_balance sw (sw.channel t vc) vcs).2
        omega
    · refine iff_of_false (fun hall => ?_) fun hall => hlast hall.1
      obtain ⟨k, hk, htried, hmissed⟩ := h.passed_over hlast
      have hstated : (vc, Place.internal k) ∈ places (vcs.foldl sw.channel (sw.channel t vc)).attempts := by
        rw [hall.2]
        unfold candidates
        rw [tried_append, List.map_append, List.map_append, List.map_append]
        exact List.mem_append_left _ (List.mem_append_right _ (List.mem_append_left _ htried))
      obtain ⟨a, ha, hkey⟩ := List.mem_map.mp hstated
      have ha := (List.mem_filter.mp ha).1
      obtain ⟨hown, hplace⟩ := Prod.mk.inj hkey
      rcases mem_foldl_channel ha with ha | hmem
      · rcases mem_channel ha with ha | ⟨-, p, hport⟩
        · rcases hmissed a ha with ha | hne
          · exact hbefore a ha (by rw [hown]; exact List.mem_cons_self)
          · exact hne hplace
        · rw [hplace] at hport
          cases hport
      · exact hvc (hown ▸ hmem)

/-- A cycle of a switch follows the algorithm exactly if, as the algorithm goes on, a message
    of the internal buffer that is delivered is the last of its queue or uses the bandwidth
    up, and no first message of the starting port can be routed when no bandwidth is left. -/
theorem follows_iff (sw : NetSwitch numNodes numPorts) :
    sw.Follows ↔ sw.Undisturbed (List.finRange MAX_VC) (sw.crossbarBandwidth, sw.outputPorts) := by
  have htrack : sw.run.track = (List.finRange MAX_VC).foldl sw.channel
      ⟨sw.outputPorts, sw.crossbarBandwidth, []⟩ :=
    Drive.foldl_driveVC (List.nodup_finRange _) ⟨rfl, rfl, fun _ _ _ => rfl, fun _ _ => rfl⟩
  have hsync : Track.Sync ⟨sw.outputPorts, sw.crossbarBandwidth, []⟩
      (sw.crossbarBandwidth, sw.outputPorts) [] := ⟨rfl, rfl, rfl⟩
  have hexact := foldl_channel_iff sw (List.nodup_finRange MAX_VC) hsync
    fun _ ha => absurd ha List.not_mem_nil
  rw [← htrack, List.nil_append] at hexact
  rw [← hexact]
  have hbalance := (foldl_channel_balance sw ⟨sw.outputPorts, sw.crossbarBandwidth, []⟩
    (List.finRange MAX_VC)).1
  rw [← htrack] at hbalance
  unfold Track.balance at hbalance
  dsimp only at hbalance
  have hmoved : held sw.run.track.outs ≤ held sw.outputPorts + sw.crossbarBandwidth ↔
      0 ≤ sw.run.track.left := by omega
  rw [← hmoved, Drive.track_outs, Drive.track_attempts]
  unfold Follows drive stated
  dsimp only
  exact Iff.rfl

local instance neZero_one : NeZero 1 := ⟨one_ne_zero⟩

local instance neZero_two : NeZero 2 := ⟨two_ne_zero⟩

/-- A message of virtual channel 0 for node 0. -/
def plainMessage (serial : Nat) : MessageState 1 2 := ⟨serial, 0, 0, 0, 0, none, none, 0⟩

/-- A port that has room for eight messages of each virtual channel. -/
def plainPort (msl : Queues 1 2) : ChannelPort 1 2 where
  bufferCount := fun _ => 8
  buffersUsed := fun vc => (msl.list vc).length
  msl := msl

/-- A switch with bandwidth for two messages, three messages in its internal buffer and one in
    each input port. All of them can be routed to port 1. -/
def crowded : NetSwitch 1 2 where
  crossbarBandwidth := 2
  nextStartingPort := 0
  inputPorts := fun p => plainPort ((Queues.empty 1 2).insert (plainMessage (3 + p)))
  outputPorts := fun _ => plainPort (Queues.empty 1 2)
  internalBuffer :=
    { bufferCount := fun _ => 8
      buffersUsed := fun vc => if vc = 0 then 3 else 0
      ageBuffer := (((Queues.empty 1 2).insert (plainMessage 0)).insert (plainMessage 1)).insert
        (plainMessage 2)
      currPriority := 0
      currMessage := none }
  routingTable := fun _ => [(1, 0)]
  messagesWaiting := fun vc => if vc = 0 then 2 else 0
  counted := by decide +kernel

/-- The message behind the first one of the internal buffer is passed over though bandwidth
    remains, and both input ports deliver when no bandwidth remains. -/
theorem crowded_not_follows :
    crowded.run.attempts.map (fun a => (a.place, a.bandwidthRemaining)) =
        [(.internal 2, 2), (.internal 0, 1), (.port 0, 0), (.port 1, -1)] ∧
      held crowded.drive.outputPorts = 4 ∧ ¬ crowded.Follows := by
  have hattempts : crowded.run.attempts.map (fun a => (a.place, a.bandwidthRemaining)) =
      [(.internal 2, 2), (.internal 0, 1), (.port 0, 0), (.port 1, -1)] := by decide +kernel
  have hmoved : held crowded.drive.outputPorts = 4 := by decide +kernel
  have hbefore : held crowded.outputPorts = 0 := by decide +kernel
  refine ⟨hattempts, hmoved, fun h => ?_⟩
  have hbound := h.1
  rw [hmoved, hbefore] at hbound
  exact absurd hbound (by decide)

end NetSwitch

end nNetShim
