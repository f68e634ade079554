import Flexus.NetShim.NetContainer

/-!
# What is checked in a topology file

The reads from a file need a stream in which no earlier read failed, and a `TOP` statement needs
ports that exist; these are the conditions that are not checked.
-/

namespace nNetShim

open InputStream Runs

namespace NetContainer

variable (nc : NetContainer)

/-- A port that the parameters allow. -/
def InRange : PortId → Prop
  | .node n => 0 ≤ n ∧ n < nc.params .numNodes
  | .switch sw port => (0 ≤ sw ∧ sw < nc.params .numSwitches) ∧ 0 ≤ port ∧ port < nc.params .switchPorts

/-- A port that has no channel yet. -/
def Unconnected (p : PortId) : Prop := nc.output p = none ∧ nc.input p = none

/-- No port is at the same end of two channels. -/
def Unique (port : Int → Option PortId) : Prop :=
  ∀ p c c', port c = some p → port c' = some p → c = c'

/-- Each port is at the start of one channel at most and at the end of one. -/
def AtMostOne : Prop :=
  Unique (fun c => (nc.channels c).fromPort) ∧ Unique fun c => (nc.channels c).toPort

end NetContainer

/-- The condition of a step that has no check: a read follows no failed one, a word fits into
    its buffer, a number is followed by a character where one is read, the number of channels
    fits into its type, the ports of a `TOP` statement exist, and the arrays of a network with
    nodes or switches are allocated before it is validated. -/
def Event.Sound : Event → Prop
  | .word s => s.failbit = false ∧ s.getWord.1.length < 100
  | .int s => s.failbit = false
  | .character s => s.get ≠ none
  | .allocate nc => nc.params .numSwitches * nc.params .switchPorts * 2 ≤ Stream.INT_MAX
  | .attach nc source destination => nc.InRange source ∧ nc.InRange destination
  | .validate nc => nc.numChannels ≠ 0 ∨ nc.params .numNodes ≤ 0 ∧ nc.params .numSwitches ≤ 0

/-- A `TOP` statement connects two different ports that have no channels yet. -/
def Event.Free : Event → Prop
  | .attach nc source destination =>
    source ≠ destination ∧ nc.Unconnected source ∧ nc.Unconnected destination
  | _ => True

/-- A run has a fault exactly if an event is not sound. -/
abbrev Exactly {α : Type} (x : Parse α) (P : α → List Event → Prop) : Prop :=
  Traced.Meets Event.Sound (· = Stop.fault) x P

/-- No event connects a port twice. -/
abbrev Quiet (l : List Event) : Prop := ∀ e ∈ l, e.Free

theorem Quiet.append {l l' : List Event} (h : Quiet l) (h' : Quiet l') : Quiet (l ++ l') :=
  List.forall_mem_append.mpr ⟨h, h'⟩

section Readers

variable {α : Type} {P : α → List Event → Prop} {s : Stream}

theorem error_meets : Exactly (error : Parse α) P := Traced.Meets.stop nofun

/-- A read meets its condition or is a fault. -/
theorem read_meets {e : Event} {b : Prop} [Decidable b] {a : α} (hb : b ↔ e.Sound) (h : b → P a [e]) :
    Exactly (.record e (if b then pure a else fault)) P := by
  by_cases hsound : b
  · rw [if_pos hsound]
    exact .record (hb.mp hsound) (.pure (h hsound))
  · rw [if_neg hsound]
    exact .record_fault (mt hb.mpr hsound) rfl rfl

theorem readWord_meets (heof : s.ws.eofbit = false) :
    Exactly (readWord s.ws) fun r l => r.2.rest.length < s.rest.length ∧ Quiet l := by
  refine read_meets Iff.rfl fun hread => ⟨Stream.getWord_length_lt heof hread.1, ?_⟩
  exact List.forall_mem_singleton.mpr trivial

theorem readStringToken_meets :
    Exactly (readStringToken s) fun r l => r.2.rest.length < s.rest.length ∧ Quiet l := by
  refine .ite (fun _ => error_meets) fun heof => .ite (fun _ => error_meets) fun _ => ?_
  exact readWord_meets (Bool.eq_false_iff.mpr heof)

theorem readIntToken_meets :
    Exactly (readIntToken s) fun r l => r.2.rest.length ≤ s.rest.length ∧ Quiet l := by
  refine .ite (fun _ => error_meets) fun _ => .ite (fun _ => error_meets) fun _ => ?_
  refine read_meets Iff.rfl fun _ => ⟨Stream.getInt_length_le.trans Stream.ws_length_le, ?_⟩
  exact List.forall_mem_singleton.mpr trivial

theorem readColon_meets : Exactly (readColon s) fun r l => r.rest.length < s.rest.length ∧ Quiet l := by
  unfold readColon
  cases hget : s.get with
  | none => exact .record_fault (fun hsome => hsome hget) rfl rfl
  | some r =>
    obtain ⟨c, s'⟩ := r
    refine .record (by change s.get ≠ none; rw [hget]; exact Option.some_ne_none _) ?_
    refine .ite (fun _ => .pure ⟨Stream.get_length_lt hget, ?_⟩) fun _ => error_meets
    exact List.forall_mem_singleton.mpr trivial

theorem readTopologyDoubleToken_meets :
    Exactly (readTopologyDoubleToken s) fun r l => r.2.2.rest.length < s.rest.length ∧ Quiet l := by
  refine .bind readIntToken_meets fun r₁ l₁ h₁ => ?_
  refine .bind readColon_meets fun r₂ l₂ h₂ => ?_
  refine .bind readIntToken_meets fun r₃ l₃ h₃ => .pure ⟨?_, ?_⟩
  · exact (h₃.1.trans_lt h₂.1).trans_le h₁.1
  · exact h₁.2.append (h₂.2.append (h₃.2.append (List.forall_mem_nil _)))

theorem expect_meets {str : List Char} :
    Exactly (expect str s) fun r l => r.rest.length < s.rest.length ∧ Quiet l := by
  refine .bind readStringToken_meets fun r l h => ?_
  exact .ite (fun _ => .pure ⟨h.1, h.2.append (List.forall_mem_nil _)⟩) fun _ => error_meets

theorem readTopSrcDest_meets (nc : NetContainer) :
    Exactly (nc.readTopSrcDest s) fun r l => r.2.rest.length < s.rest.length ∧ Quiet l := by
  refine .bind readStringToken_meets fun r₁ l₁ h₁ => ?_
  refine .ite (fun _ => ?_) fun _ => .ite (fun _ => ?_) fun _ => error_meets
  · refine .bind readIntToken_meets fun r₂ l₂ h₂ => .ite (fun _ => error_meets) fun _ => ?_
    exact .pure ⟨h₂.1.trans_lt h₁.1, h₁.2.append (h₂.2.append (List.forall_mem_nil _))⟩
  · refine .bind readTopologyDoubleToken_meets fun r₂ l₂ h₂ => ?_
    exact .pure ⟨h₂.1.trans h₁.1, h₁.2.append (h₂.2.append (List.forall_mem_nil _))⟩

end Readers

/-! ## The state of a container -/

namespace NetContainer

/-- The channel pointers of the ports go with the ports of the channels in one direction. -/
structure Points (port : Int → Option PortId) (pointer : PortId → Option Int) : Prop where
  connected : ∀ p c, port c = some p → pointer p ≠ none
  attached : ∀ p c, pointer p = some c → port c = some p

theorem Points.update {port : Int → Option PortId} {pointer : PortId → Option Int} {m : Int} {a : PortId}
    (h : Points port pointer) (hm : port m = none) :
    Points (Function.update port m (some a)) (Function.update pointer a (some m)) where
  connected p c hc := by
    by_cases hp : p = a
    · rw [hp, Function.update_self]
      exact Option.some_ne_none m
    · rw [Function.update_of_ne hp]
      by_cases hcm : c = m
      · rw [hcm, Function.update_self] at hc
        exact absurd (Option.some.inj hc).symm hp
      · rw [Function.update_of_ne hcm] at hc
        exact h.connected p c hc
  attached p c hp := by
    by_cases hpa : p = a
    · rw [hpa, Function.update_self] at hp
      rw [hpa, ← Option.some.inj hp, Function.update_self]
    · rw [Function.update_of_ne hpa] at hp
      have hport := h.attached p c hp
      have hcm : c ≠ m := fun heq => by rw [heq, hm] at hport; cases hport
      rwa [Function.update_of_ne hcm]

/-- A port without a channel is at the end of none. -/
theorem Points.eq_none_iff {port : Int → Option PortId} {pointer : PortId → Option Int} {p : PortId}
    (h : Points port pointer) : pointer p = none ↔ ∀ c, port c ≠ some p := by
  constructor
  · exact fun hnone c hc => h.connected p c hc hnone
  · intro hport
    cases hpointer : pointer p with
    | none => rfl
    | some c => exact absurd (h.attached p c hpointer) (hport c)

/-- What holds of a container in a run. Before the allocation there are no channels and no
    routes; afterwards the arrays have the sizes of the parameters, and the channels from
    `maxChannelIndex` on are free. -/
structure Valid (nc : NetContainer) : Prop where
  before : nc.numChannels = 0 → nc.sizes = ⟨0, 0, 0, 0⟩ ∧ (∀ c, nc.channels c = ⟨none, none⟩) ∧
    ∀ sw node, nc.routingTable sw node = []
  after : nc.numChannels ≠ 0 → (0 < nc.numChannels ∧ 0 ≤ nc.maxChannelIndex) ∧
    nc.sizes = ⟨nc.params .numNodes, nc.params .numSwitches, nc.params .switchPorts, nc.numChannels⟩
  free : ∀ c, nc.maxChannelIndex ≤ c → nc.channels c = ⟨none, none⟩
  output : Points (fun c => (nc.channels c).fromPort) nc.output
  input : Points (fun c => (nc.channels c).toPort) nc.input
  routes : ∀ sw node, ∀ entry ∈ nc.routingTable sw node, 0 ≤ entry.1 ∧ entry.1 < nc.sizes.switchPorts

/-- What a part of a run does: the container stays valid, and its ports keep one channel exactly
    if no statement connects a port twice. -/
structure Kept (nc nc' : NetContainer) (l : List Event) : Prop where
  valid : nc'.Valid
  atMostOne : nc'.AtMostOne ↔ nc.AtMostOne ∧ Quiet l

variable {nc nc' nc'' : NetContainer} {l l' : List Event}

theorem Kept.refl (h : nc.Valid) (hl : Quiet l) : Kept nc nc l := ⟨h, (and_iff_left hl).symm⟩

theorem Kept.trans (h : Kept nc nc' l) (h' : Kept nc' nc'' l') : Kept nc nc'' (l ++ l') := by
  refine ⟨h'.valid, ?_⟩
  rw [h'.atMostOne, h.atMostOne, and_assoc]
  exact and_congr_right fun _ => List.forall_mem_append.symm

theorem Kept.after (h : Kept nc nc' l') (hl : Quiet l) : Kept nc nc' (l ++ l') := by
  refine ⟨h.valid, h.atMostOne.trans (and_congr_right fun _ => ?_)⟩
  exact (List.forall_mem_append.trans (and_iff_right hl)).symm

theorem Kept.before (h : Kept nc nc' l) (hl : Quiet l') : Kept nc nc' (l ++ l') :=
  h.trans (.refl h.valid hl)

/-- Nothing but the parameters changes before the allocation. -/
theorem Valid.setParam (h : nc.Valid) (hnone : nc.numChannels = 0) (p : Param) (value : Int) :
    ({ nc with params := Function.update nc.params p value } : NetContainer).Valid where
  before := h.before
  after hsome := absurd hnone hsome
  free := h.free
  output := h.output
  input := h.input
  routes := h.routes

theorem Valid.setOpenFiles (h : nc.Valid) (n : Nat) : ({ nc with openFiles := n } : NetContainer).Valid where
  before := h.before
  after := h.after
  free := h.free
  output := h.output
  input := h.input
  routes := h.routes

theorem new_valid : new.Valid where
  before _ := ⟨rfl, fun _ => rfl, fun _ _ => rfl⟩
  after h := absurd rfl h
  free _ _ := rfl
  output := ⟨nofun, nofun⟩
  input := ⟨nofun, nofun⟩
  routes := nofun

/-! ## Attaching channels -/

section Attach

variable {c : Int} {p source destination : PortId}

def plugFrom (nc : NetContainer) (c : Int) (p : PortId) : NetContainer :=
  { nc with
    channels := Function.update nc.channels c { nc.channels c with fromPort := some p }
    output := Function.update nc.output p (some c) }

def plugTo (nc : NetContainer) (c : Int) (p : PortId) : NetContainer :=
  { nc with
    channels := Function.update nc.channels c { nc.channels c with toPort := some p }
    input := Function.update nc.input p (some c) }

/-- A container after a pair of channels was attached between two ports. -/
def joined (nc : NetContainer) (a b : PortId) : NetContainer :=
  (((nc.plugFrom nc.maxChannelIndex a).plugTo (nc.maxChannelIndex + 1) a).plugTo
    nc.maxChannelIndex b).plugFrom (nc.maxChannelIndex + 1) b

theorem setFromPort_eq (h : (nc.channels c).fromPort = none) : nc.setFromPort c p = pure (nc.plugFrom c p) := by
  unfold setFromPort
  rw [h]
  rfl

theorem setToPort_eq (h : (nc.channels c).toPort = none) : nc.setToPort c p = pure (nc.plugTo c p) := by
  unfold setToPort
  rw [h]
  rfl

theorem access_eq {i size : Int} (h : 0 ≤ i ∧ i < size) : access i size = pure () := if_pos h

theorem access_eq_fault {i size : Int} (h : ¬ (0 ≤ i ∧ i < size)) : access i size = fault := if_neg h

/-- The sizes of the arrays and a channel that exists. -/
structure Allocated (nc : NetContainer) (c : Int) : Prop where
  sizes : nc.sizes = ⟨nc.params .numNodes, nc.params .numSwitches, nc.params .switchPorts, nc.numChannels⟩
  channel : 0 ≤ c ∧ c < nc.numChannels

variable {sw port node : Int} {isInput : Bool}

theorem attachChannel_eq (ha : nc.Allocated c) (h : nc.InRange (.switch sw port)) :
    nc.attachChannel c sw port isInput =
      if isInput then nc.setToPort c (.switch sw port) else nc.setFromPort c (.switch sw port) := by
  unfold attachChannel
  rw [ha.sizes, access_eq h.1, access_eq ha.channel, access_eq h.2]
  rfl

theorem attachChannel_eq_fault (ha : nc.Allocated c) (h : ¬ nc.InRange (.switch sw port)) :
    nc.attachChannel c sw port isInput = fault := by
  unfold attachChannel
  rw [ha.sizes, access_eq ha.channel]
  by_cases hsw : 0 ≤ sw ∧ sw < nc.params .numSwitches
  · have hport : ¬ (0 ≤ port ∧ port < nc.params .switchPorts) := fun hport => h ⟨hsw, hport⟩
    rw [access_eq hsw, access_eq_fault hport]
    rfl
  · rw [access_eq_fault hsw]
    rfl

theorem attachSwitchChannels_eq_fault {destination : Bool} (ha : nc.Allocated nc.maxChannelIndex)
    (h : ¬ nc.InRange (.switch sw port)) : nc.attachSwitchChannels sw port destination = fault := by
  unfold attachSwitchChannels
  rw [attachChannel_eq_fault ha h]
  rfl

/-- A switch at the end of the first channel and the start of the second one. -/
theorem attachSwitchChannels_true (ha : nc.Allocated nc.maxChannelIndex)
    (ha' : nc.Allocated (nc.maxChannelIndex + 1)) (h : nc.InRange (.switch sw port))
    (hto : (nc.channels nc.maxChannelIndex).toPort = none)
    (hfrom : (nc.channels (nc.maxChannelIndex + 1)).fromPort = none) :
    nc.attachSwitchChannels sw port true =
      pure ((nc.plugTo nc.maxChannelIndex (.switch sw port)).plugFrom (nc.maxChannelIndex + 1)
        (.switch sw port)) := by
  unfold attachSwitchChannels
  rw [attachChannel_eq ha h, if_pos rfl, setToPort_eq hto, Traced.pure_bind]
  have hafter : (nc.plugTo nc.maxChannelIndex (.switch sw port)).Allocated (nc.maxChannelIndex + 1) :=
    ⟨ha'.sizes, ha'.channel⟩
  refine (attachChannel_eq hafter h).trans (setFromPort_eq ?_)
  unfold plugTo
  dsimp only
  rw [Function.update_of_ne (by omega)]
  exact hfrom

/-- A switch at the start of the first channel and the end of the second one. -/
theorem attachSwitchChannels_false (ha : nc.Allocated nc.maxChannelIndex)
    (ha' : nc.Allocated (nc.maxChannelIndex + 1)) (h : nc.InRange (.switch sw port))
    (hfrom : (nc.channels nc.maxChannelIndex).fromPort = none)
    (hto : (nc.channels (nc.maxChannelIndex + 1)).toPort = none) :
    nc.attachSwitchChannels sw port false =
      pure ((nc.plugFrom nc.maxChannelIndex (.switch sw port)).plugTo (nc.maxChannelIndex + 1)
        (.switch sw port)) := by
  unfold attachSwitchChannels
  rw [attachChannel_eq ha h, if_neg Bool.false_ne_true, setFromPort_eq hfrom, Traced.pure_bind]
  have hafter : (nc.plugFrom nc.maxChannelIndex (.switch sw port)).Allocated (nc.maxChannelIndex + 1) :=
    ⟨ha'.sizes, ha'.channel⟩
  refine (attachChannel_eq hafter h).trans (setToPort_eq ?_)
  unfold plugFrom
  dsimp only
  rw [Function.update_of_ne (by omega)]
  exact hto

theorem attachNodeChannels_eq (ha : nc.Allocated nc.maxChannelIndex)
    (ha' : nc.Allocated (nc.maxChannelIndex + 1)) (h : nc.InRange (.node node))
    (hfrom : (nc.channels nc.maxChannelIndex).fromPort = none)
    (hto : (nc.channels (nc.maxChannelIndex + 1)).toPort = none) :
    nc.attachNodeChannels node =
      pure ((nc.plugFrom nc.maxChannelIndex (.node node)).plugTo (nc.maxChannelIndex + 1) (.node node)) := by
  unfold attachNodeChannels
  rw [ha.sizes, access_eq h, access_eq ha.channel, setFromPort_eq hfrom, Traced.pure_bind,
    Traced.pure_bind, Traced.pure_bind]
  change (access (nc.maxChannelIndex + 1) nc.sizes.numChannels >>= fun _ => _) = _
  rw [ha.sizes, access_eq ha'.channel, Traced.pure_bind]
  refine setToPort_eq ?_
  unfold plugFrom
  dsimp only
  rw [Function.update_of_ne (by omega)]
  exact hto

theorem attachNodeChannels_eq_fault (ha : nc.Allocated nc.maxChannelIndex) (h : ¬ nc.InRange (.node node)) :
    nc.attachNodeChannels node = fault := by
  unfold attachNodeChannels
  rw [ha.sizes, access_eq_fault h]
  rfl

/-- The two ports in the order in which their channels are attached: a node comes first. -/
def ends : PortId → PortId → PortId × PortId
  | .switch sw port, .node n => (.node n, .switch sw port)
  | a, b => (a, b)

/-- The second port, when the first one has its ends of the two channels. -/
theorem attachSecond {a : PortId} (h : nc.Valid) (ha : nc.Allocated nc.maxChannelIndex)
    (ha' : nc.Allocated (nc.maxChannelIndex + 1)) (hrange : nc.InRange (.switch sw port)) :
    ((nc.plugFrom nc.maxChannelIndex a).plugTo (nc.maxChannelIndex + 1) a).attachSwitchChannels sw port true =
      pure (nc.joined a (.switch sw port)) := by
  have hm := h.free nc.maxChannelIndex (le_refl _)
  have hm' := h.free (nc.maxChannelIndex + 1) (by omega)
  refine attachSwitchChannels_true ⟨ha.sizes, ha.channel⟩ ⟨ha'.sizes, ha'.channel⟩ hrange ?_ ?_
  · change (Function.update (Function.update nc.channels _ _) _ _ nc.maxChannelIndex).toPort = none
    rw [Function.update_of_ne (by omega), Function.update_self, hm]
  · change (Function.update (Function.update nc.channels _ _) _ _ (nc.maxChannelIndex + 1)).fromPort = none
    rw [Function.update_self]
    change (Function.update nc.channels _ _ (nc.maxChannelIndex + 1)).fromPort = none
    rw [Function.update_of_ne (by omega), hm']

theorem attachSecond_eq_fault {a : PortId} (ha : nc.Allocated nc.maxChannelIndex)
    (hrange : ¬ nc.InRange (.switch sw port)) :
    ((nc.plugFrom nc.maxChannelIndex a).plugTo (nc.maxChannelIndex + 1) a).attachSwitchChannels sw port true =
      fault :=
  attachSwitchChannels_eq_fault ⟨ha.sizes, ha.channel⟩ hrange

theorem attach_eq (h : nc.Valid) (ha : nc.Allocated nc.maxChannelIndex)
    (ha' : nc.Allocated (nc.maxChannelIndex + 1)) (hsource : nc.InRange source)
    (hdestination : nc.InRange destination) (hswitch : source.isSwitch ∨ destination.isSwitch) :
    nc.attach source destination =
      pure (nc.joined (ends source destination).1 (ends source destination).2) := by
  have hm := h.free nc.maxChannelIndex (le_refl _)
  have hm' := h.free (nc.maxChannelIndex + 1) (by omega)
  have hnode : ∀ node sw port, nc.InRange (.node node) → nc.InRange (.switch sw port) →
      nc.attach (.node node) (.switch sw port) = pure (nc.joined (.node node) (.switch sw port)) := by
    intro node sw port hnode hrange
    rw [attach]
    rw [attachNodeChannels_eq ha ha' hnode (by rw [hm]) (by rw [hm']), Traced.pure_bind,
      attachSecond h ha ha' hrange, Traced.pure_bind]
    have hdelay : (nc.joined (.node node) (.switch sw port)).setLocalDelayOnly sw port = pure () := by
      unfold setLocalDelayOnly
      change (access sw nc.sizes.numSwitches >>= fun _ => access port nc.sizes.switchPorts) = _
      rw [ha.sizes, access_eq hrange.1, access_eq hrange.2]
      rfl
    rw [hdelay]
    rfl
  cases source with
  | node n =>
    cases destination with
    | node n' => exact absurd hswitch (by simp [PortId.isSwitch])
    | switch sw port => exact hnode n sw port hsource hdestination
  | switch sw0 port0 =>
    cases destination with
    | node n => exact hnode n sw0 port0 hdestination hsource
    | switch sw1 port1 =>
      rw [attach]
      rw [attachSwitchChannels_false ha ha' hsource (by rw [hm]) (by rw [hm']), Traced.pure_bind]
      exact attachSecond h ha ha' hdestination

theorem attach_eq_fault (h : nc.Valid) (ha : nc.Allocated nc.maxChannelIndex)
    (ha' : nc.Allocated (nc.maxChannelIndex + 1)) (hrange : ¬ (nc.InRange source ∧ nc.InRange destination))
    (hswitch : source.isSwitch ∨ destination.isSwitch) : nc.attach source destination = fault := by
  have hm := h.free nc.maxChannelIndex (le_refl _)
  have hm' := h.free (nc.maxChannelIndex + 1) (by omega)
  have hnode : ∀ node sw port, ¬ (nc.InRange (.node node) ∧ nc.InRange (.switch sw port)) →
      nc.attach (.node node) (.switch sw port) = fault := by
    intro node sw port hrange
    rw [attach]
    by_cases hnode : nc.InRange (.node node)
    · have hsw : ¬ nc.InRange (.switch sw port) := fun hsw => hrange ⟨hnode, hsw⟩
      rw [attachNodeChannels_eq ha ha' hnode (by rw [hm]) (by rw [hm']), Traced.pure_bind,
        attachSecond_eq_fault ha hsw]
      rfl
    · rw [attachNodeChannels_eq_fault ha hnode]
      rfl
  cases source with
  | node n =>
    cases destination with
    | node n' => exact absurd hswitch (by simp [PortId.isSwitch])
    | switch sw port => exact hnode n sw port hrange
  | switch sw0 port0 =>
    cases destination with
    | node n => exact hnode n sw0 port0 fun hboth => hrange hboth.symm
    | switch sw1 port1 =>
      rw [attach]
      by_cases hsource : nc.InRange (.switch sw0 port0)
      · have hsw : ¬ nc.InRange (.switch sw1 port1) := fun hsw => hrange ⟨hsource, hsw⟩
        rw [attachSwitchChannels_false ha ha' hsource (by rw [hm]) (by rw [hm']), Traced.pure_bind]
        exact attachSecond_eq_fault ha hsw
      · rw [attachSwitchChannels_eq_fault ha hsource]
        rfl

end Attach

/-! ## One channel for each port -/

section Joined

variable {a b : PortId}

theorem unique_update {port : Int → Option PortId} {m : Int} (hm : port m = none) :
    Unique (Function.update port m (some a)) ↔ Unique port ∧ ∀ c, port c ≠ some a := by
  constructor
  · intro hunique
    refine ⟨fun p c c' hc hc' => ?_, fun c hc => ?_⟩
    · have hne : c ≠ m := fun heq => by rw [heq, hm] at hc; cases hc
      have hne' : c' ≠ m := fun heq => by rw [heq, hm] at hc'; cases hc'
      refine hunique p c c' ?_ ?_
      · rwa [Function.update_of_ne hne]
      · rwa [Function.update_of_ne hne']
    · have hne : c ≠ m := fun heq => by rw [heq, hm] at hc; cases hc
      refine hne (hunique a c m ?_ (Function.update_self ..))
      rwa [Function.update_of_ne hne]
  · rintro ⟨hunique, hnew⟩ p c c' hc hc'
    by_cases heq : c = m
    · by_cases heq' : c' = m
      · rw [heq, heq']
      · rw [heq, Function.update_self] at hc
        rw [Function.update_of_ne heq'] at hc'
        exact absurd (hc'.trans hc.symm) (hnew c')
    · rw [Function.update_of_ne heq] at hc
      by_cases heq' : c' = m
      · rw [heq', Function.update_self] at hc'
        exact absurd (hc.trans hc'.symm) (hnew c)
      · rw [Function.update_of_ne heq'] at hc'
        exact hunique p c c' hc hc'

/-- Two more channels. -/
theorem unique_update_two {port : Int → Option PortId} {m m' : Int} (hm : port m = none)
    (hm' : port m' = none) (hne : m' ≠ m) :
    Unique (Function.update (Function.update port m (some a)) m' (some b)) ↔
      Unique port ∧ a ≠ b ∧ (∀ c, port c ≠ some a) ∧ ∀ c, port c ≠ some b := by
  have hnext : Function.update port m (some a) m' = none := by
    rw [Function.update_of_ne hne, hm']
  rw [unique_update hnext, unique_update hm, and_assoc, and_left_comm (a := a ≠ b)]
  refine and_congr_right fun _ => and_congr_right fun _ => ?_
  constructor
  · intro hnew
    refine ⟨fun heq => hnew m (by rw [Function.update_self, heq]), fun c hc => hnew c ?_⟩
    have hcm : c ≠ m := fun heq => by rw [heq, hm] at hc; cases hc
    rwa [Function.update_of_ne hcm]
  · rintro ⟨hab, hb⟩ c hc
    by_cases hcm : c = m
    · rw [hcm, Function.update_self] at hc
      exact hab (Option.some.inj hc)
    · rw [Function.update_of_ne hcm] at hc
      exact hb c hc

theorem plugFrom_from (c : Int) : (fun x => ((nc.plugFrom c a).channels x).fromPort) =
    Function.update (fun x => (nc.channels x).fromPort) c (some a) := by
  funext x
  change (Function.update nc.channels c _ x).fromPort = _
  rw [Function.update_apply, Function.update_apply]
  split <;> rfl

theorem plugFrom_to (c : Int) : (fun x => ((nc.plugFrom c a).channels x).toPort) =
    fun x => (nc.channels x).toPort := by
  funext x
  change (Function.update nc.channels c _ x).toPort = _
  rw [Function.update_apply]
  split
  · next hx => rw [hx]
  · rfl

theorem plugTo_to (c : Int) : (fun x => ((nc.plugTo c a).channels x).toPort) =
    Function.update (fun x => (nc.channels x).toPort) c (some a) := by
  funext x
  change (Function.update nc.channels c _ x).toPort = _
  rw [Function.update_apply, Function.update_apply]
  split <;> rfl

theorem plugTo_from (c : Int) : (fun x => ((nc.plugTo c a).channels x).fromPort) =
    fun x => (nc.channels x).fromPort := by
  funext x
  change (Function.update nc.channels c _ x).fromPort = _
  rw [Function.update_apply]
  split
  · next hx => rw [hx]
  · rfl

/-- The starts of the channels. -/
theorem joined_from : (fun c => ((nc.joined a b).channels c).fromPort) =
    Function.update (Function.update (fun c => (nc.channels c).fromPort) nc.maxChannelIndex (some a))
      (nc.maxChannelIndex + 1) (some b) := by
  unfold joined
  rw [plugFrom_from, plugTo_from, plugTo_from, plugFrom_from]

/-- The ends of the channels. -/
theorem joined_to : (fun c => ((nc.joined a b).channels c).toPort) =
    Function.update (Function.update (fun c => (nc.channels c).toPort) (nc.maxChannelIndex + 1) (some a))
      nc.maxChannelIndex (some b) := by
  unfold joined
  rw [plugFrom_to, plugTo_to, plugTo_to, plugFrom_to]

/-- The container after a `TOP` statement. -/
def afterTop (nc : NetContainer) (a b : PortId) : NetContainer :=
  { nc.joined a b with maxChannelIndex := nc.maxChannelIndex + 2 }

theorem Valid.afterTop (h : nc.Valid) (halloc : nc.numChannels ≠ 0) : (nc.afterTop a b).Valid where
  before hnone := absurd hnone halloc
  after _ := by
    have hafter := h.after halloc
    refine ⟨⟨hafter.1.1, ?_⟩, hafter.2⟩
    change 0 ≤ nc.maxChannelIndex + 2
    omega
  free c hc := by
    change nc.maxChannelIndex + 2 ≤ c at hc
    have hold := h.free c (by omega)
    have hfrom : ((nc.joined a b).channels c).fromPort = _ := congrFun joined_from c
    have hto : ((nc.joined a b).channels c).toPort = _ := congrFun joined_to c
    rw [Function.update_of_ne (by omega), Function.update_of_ne (by omega), hold] at hfrom hto
    exact Channel.ext hfrom hto
  output := by
    have hm' : Function.update (fun c => (nc.channels c).fromPort) nc.maxChannelIndex (some a)
        (nc.maxChannelIndex + 1) = none := by
      rw [Function.update_of_ne (by omega), h.free _ (by omega)]
    have hpoints := (h.output.update (a := a) (by rw [h.free _ (le_refl _)])).update (a := b) hm'
    rw [← joined_from] at hpoints
    exact hpoints
  input := by
    have hm : Function.update (fun c => (nc.channels c).toPort) (nc.maxChannelIndex + 1) (some a)
        nc.maxChannelIndex = none := by
      rw [Function.update_of_ne (by omega), h.free _ (le_refl _)]
    have hpoints := (h.input.update (a := a) (by rw [h.free (nc.maxChannelIndex + 1) (by omega)])).update
      (a := b) hm
    rw [← joined_to] at hpoints
    exact hpoints
  routes := h.routes

theorem atMostOne_afterTop (h : nc.Valid) : (nc.afterTop a b).AtMostOne ↔
    nc.AtMostOne ∧ a ≠ b ∧ nc.Unconnected a ∧ nc.Unconnected b := by
  have hm := h.free nc.maxChannelIndex (le_refl _)
  have hm' := h.free (nc.maxChannelIndex + 1) (by omega)
  change Unique (fun c => ((nc.joined a b).channels c).fromPort) ∧
    Unique (fun c => ((nc.joined a b).channels c).toPort) ↔ _
  rw [joined_from, joined_to, unique_update_two (by rw [hm]) (by rw [hm']) (by omega),
    unique_update_two (by rw [hm']) (by rw [hm]) (by omega)]
  unfold Unconnected AtMostOne
  rw [h.output.eq_none_iff, h.output.eq_none_iff, h.input.eq_none_iff, h.input.eq_none_iff]
  tauto

end Joined

end NetContainer

end nNetShim
