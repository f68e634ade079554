import Flexus.NetShim.Topology

/-!
# Which texts build a network

Each statement of a file keeps the container valid, so the only faults of a run are the events
that do not meet their condition. From the statements this goes on to files, which can include
other files.
-/

namespace nNetShim

open InputStream Runs

namespace NetContainer

variable {nc : NetContainer} {s : Stream}

/-! ## The `TOP` statement -/

theorem allocated (h : nc.Valid) (hroom : ¬ nc.numChannels - 1 ≤ nc.maxChannelIndex)
    (halloc : nc.numChannels ≠ 0) :
    nc.Allocated nc.maxChannelIndex ∧ nc.Allocated (nc.maxChannelIndex + 1) := by
  obtain ⟨⟨hpos, hmax⟩, hsizes⟩ := h.after halloc
  exact ⟨⟨hsizes, by omega⟩, ⟨hsizes, by omega⟩⟩

/-- A statement connects a port twice if it names the ports in the one or the other order. -/
theorem atMostOne_ends (h : nc.Valid) (source destination : PortId) :
    (nc.afterTop (ends source destination).1 (ends source destination).2).AtMostOne ↔
      nc.AtMostOne ∧ (Event.attach nc source destination).Free := by
  rw [atMostOne_afterTop h]
  unfold Event.Free
  refine and_congr_right fun _ => ?_
  cases source with
  | node n => exact Iff.rfl
  | switch sw port =>
    cases destination with
    | node n => exact ⟨fun hfree => ⟨hfree.1.symm, hfree.2.symm⟩, fun hfree => ⟨hfree.1.symm, hfree.2.symm⟩⟩
    | switch sw' port' => exact Iff.rfl

theorem attach_meets (h : nc.Valid) (hroom : ¬ nc.numChannels - 1 ≤ nc.maxChannelIndex)
    (halloc : nc.numChannels ≠ 0) {source destination : PortId}
    (hswitch : source.isSwitch ∨ destination.isSwitch) :
    Exactly (.record (.attach nc source destination) (nc.attach source destination)) fun nc' l =>
      Kept nc { nc' with maxChannelIndex := nc'.maxChannelIndex + 2 } l := by
  obtain ⟨ha, ha'⟩ := allocated h hroom halloc
  by_cases hrange : nc.InRange source ∧ nc.InRange destination
  · rw [attach_eq h ha ha' hrange.1 hrange.2 hswitch]
    refine .record hrange (.pure ⟨h.afterTop halloc, ?_⟩)
    refine (atMostOne_ends h source destination).trans (and_congr_right fun _ => ?_)
    exact List.forall_mem_singleton.symm
  · rw [attach_eq_fault h ha ha' hrange hswitch]
    exact .record_fault hrange rfl rfl

theorem handleTopology_meets (h : nc.Valid) (halloc : nc.numChannels ≠ 0) :
    Exactly (nc.handleTopology s) fun r l => Kept nc r.1 l ∧ r.2.rest.length ≤ s.rest.length := by
  refine .bind (readTopSrcDest_meets nc) fun r₁ l₁ h₁ => ?_
  refine .bind expect_meets fun r₂ l₂ h₂ => ?_
  refine .bind (readTopSrcDest_meets nc) fun r₃ l₃ h₃ => ?_
  refine .ite (fun _ => error_meets) fun hswitch => .ite (fun _ => error_meets) fun hroom => ?_
  have hswitch : r₁.1.isSwitch ∨ r₃.1.isSwitch := by
    by_contra hnone
    exact hswitch (not_or.mp hnone)
  refine .bind (attach_meets h hroom halloc hswitch) fun nc' l₄ h₄ => .pure ⟨?_, ?_⟩
  · exact ((((h₄.before (List.forall_mem_nil _)).after h₃.2).after h₂.2).after h₁.2)
  · exact (((h₃.1.trans h₂.1).trans h₁.1)).le

/-! ## The `ROUTE` statement -/

/-- The ranges that are checked for a route. -/
structure Routable (nc : NetContainer) (sw node : Int) : Prop where
  valid : nc.Valid
  allocated : nc.numChannels ≠ 0
  switch : 0 ≤ sw ∧ sw < nc.params .numSwitches
  node : 0 ≤ node ∧ node < nc.params .numNodes

variable {sw node port vc : Int}

theorem addRoutingEntry_meets (h : nc.Routable sw node) (hport : 0 ≤ port ∧ port < nc.params .switchPorts) :
    Exactly (nc.addRoutingEntry sw node port vc) fun nc' l =>
      Kept nc nc' l ∧ nc'.Routable sw node ∧ nc'.params = nc.params := by
  obtain ⟨-, hsizes⟩ := h.valid.after h.allocated
  have hsame : ∀ l, Quiet l → Kept nc nc l ∧ nc.Routable sw node ∧ nc.params = nc.params :=
    fun l hl => ⟨.refl h.valid hl, h, rfl⟩
  have hsw : access sw nc.sizes.numSwitches = pure () := access_eq (by rw [hsizes]; exact h.switch)
  have hnode : access node nc.sizes.numNodes = pure () := access_eq (by rw [hsizes]; exact h.node)
  unfold addRoutingEntry
  rw [hsw, hnode, Traced.pure_bind, Traced.pure_bind]
  refine .ite (fun _ => .pure (hsame _ (List.forall_mem_nil _))) fun _ => ?_
  refine .ite (fun _ => ?_) fun _ => error_meets
  have hvalid : ({ nc with
      routingTable := Function.update nc.routingTable sw (Function.update (nc.routingTable sw) node
        (nc.routingTable sw node ++ [(port, vc)])) } : NetContainer).Valid := by
    refine ⟨fun hnone => absurd hnone h.allocated, h.valid.after, h.valid.free, h.valid.output,
      h.valid.input, fun sw' node' entry hentry => ?_⟩
    dsimp only at hentry ⊢
    by_cases hsw : sw' = sw
    · rw [hsw, Function.update_self] at hentry
      by_cases hnode : node' = node
      · rw [hnode, Function.update_self] at hentry
        rcases List.mem_append.mp hentry with hold | hnew
        · exact h.valid.routes sw node entry hold
        · rw [List.mem_singleton.mp hnew, hsizes]
          exact hport
      · rw [Function.update_of_ne hnode] at hentry
        exact h.valid.routes sw node' entry hentry
    · rw [Function.update_of_ne hsw] at hentry
      exact h.valid.routes sw' node' entry hentry
  refine .pure ⟨⟨hvalid, ?_⟩, ⟨hvalid, h.allocated, h.switch, h.node⟩, rfl⟩
  exact (and_iff_left (List.forall_mem_nil _)).symm

/-- The loop over the entries of a route reads something in each round. -/
theorem routeEntries_meets {fuel : Nat} (h : nc.Routable sw node) (hfuel : s.rest.length < fuel) :
    Exactly (routeEntries sw node fuel nc s) fun r l =>
      Kept nc r.1 l ∧ r.2.rest.length ≤ s.rest.length := by
  induction fuel generalizing nc s with
  | zero => exact absurd hfuel (Nat.not_lt_zero _)
  | succ fuel ih =>
    have hws := Stream.ws_length_le (s := s)
    refine .ite (fun _ => .pure ⟨.refl h.valid (List.forall_mem_nil _), hws⟩) fun _ => ?_
    refine .bind readTopologyDoubleToken_meets fun r₁ l₁ h₁ => ?_
    refine .ite (fun _ => error_meets) fun hport => .ite (fun _ => error_meets) fun _ => ?_
    refine .bind (addRoutingEntry_meets h (by omega)) fun nc' l₂ h₂ => ?_
    have hread := h₁.1
    refine (ih h₂.2.1 ((hread.trans_le hws).trans_le (Nat.le_of_lt_succ hfuel))).weaken fun r₃ l₃ h₃ => ⟨?_, ?_⟩
    · exact (h₂.1.trans h₃.1).after h₁.2
    · exact (h₃.2.trans hread.le).trans hws

theorem handleRoute_meets (h : nc.Valid) (halloc : nc.numChannels ≠ 0) :
    Exactly (nc.handleRoute s) fun r l => Kept nc r.1 l ∧ r.2.rest.length ≤ s.rest.length := by
  refine .bind expect_meets fun r₁ l₁ h₁ => .bind readIntToken_meets fun r₂ l₂ h₂ => ?_
  refine .ite (fun _ => error_meets) fun hsw => ?_
  refine .bind expect_meets fun r₃ l₃ h₃ => .bind readIntToken_meets fun r₄ l₄ h₄ => ?_
  refine .ite (fun _ => error_meets) fun hnode => ?_
  refine .bind expect_meets fun r₅ l₅ h₅ => ?_
  have hroutable : nc.Routable r₂.1 r₄.1 := ⟨h, halloc, by omega, by omega⟩
  refine .bind (routeEntries_meets hroutable (Nat.lt_succ_self _)) fun r₆ l₆ h₆ => ?_
  refine .bind expect_meets fun r₇ l₇ h₇ => .pure ⟨?_, ?_⟩
  · have hend : Quiet (l₇ ++ []) := h₇.2.append (List.forall_mem_nil _)
    exact (((((h₆.1.before hend).after h₅.2).after h₄.2).after h₃.2).after h₂.2).after h₁.2
  · have hstart := h₁.1
    have hswitch := h₂.1
    have hto := h₃.1
    have hdest := h₄.1
    have hopen := h₅.1
    have hentries := h₆.2
    have hclose := h₇.1
    dsimp only
    omega

/-! ## The order of the statements -/

theorem atMostOne_of_none (hnone : ∀ c, nc.channels c = ⟨none, none⟩) : nc.AtMostOne := by
  refine ⟨fun p c c' hc => ?_, fun p c c' hc => ?_⟩
  · dsimp only at hc
    rw [hnone c] at hc
    cases hc
  · dsimp only at hc
    rw [hnone c] at hc
    cases hc

/-- Checked parameters exceed their bounds. -/
theorem lt_of_validated (hnone : nc.numChannels = 0) (hvalid : nc.validateParameters = false)
    {p : Param} {bound : Int} (hp : (p, bound) ∈ checkedParams) : bound < nc.params p := by
  unfold validateParameters at hvalid
  rw [if_neg (by omega), List.any_eq_false] at hvalid
  have hcheck := hvalid _ hp
  simpa using hcheck

theorem allocateNetworkStructures_meets (h : nc.Valid) (hnone : nc.numChannels = 0)
    (hvalid : nc.validateParameters = false) :
    Exactly nc.allocateNetworkStructures fun nc' l => Kept nc nc' l ∧ nc'.numChannels ≠ 0 := by
  have hswitches : 0 < nc.params .numSwitches := lt_of_validated hnone hvalid (by decide)
  have hports : 1 < nc.params .switchPorts := lt_of_validated hnone hvalid (by decide)
  have hpos : 0 < nc.params .numSwitches * nc.params .switchPorts * 2 := by positivity
  refine .ite (fun _ => error_meets) fun _ => read_meets Iff.rfl fun _ => ⟨⟨?_, ?_⟩, hpos.ne'⟩
  · exact
      { before := fun hzero => absurd hzero hpos.ne'
        after := fun _ => ⟨⟨hpos, le_refl _⟩, rfl⟩
        free := fun _ _ => rfl
        output := ⟨nofun, nofun⟩
        input := ⟨nofun, nofun⟩
        routes := nofun }
  · refine iff_of_true (atMostOne_of_none fun _ => rfl) ⟨atMostOne_of_none (h.before hnone).2.1, ?_⟩
    exact List.forall_mem_singleton.mpr trivial

theorem checkOrder_meets (h : nc.Valid) (order : ValidationOrder) :
    Exactly (nc.checkOrder order) fun nc' l => Kept nc nc' l ∧
      (order = .VALIDATE_BEFORE → nc'.numChannels = 0) ∧ (order = .VALIDATE_AFTER → nc'.numChannels ≠ 0) := by
  have hrefl : Kept nc nc [] := .refl h (List.forall_mem_nil _)
  cases order with
  | VALIDATE_ANYTIME => exact .pure ⟨hrefl, nofun, nofun⟩
  | VALIDATE_BEFORE =>
    exact .ite (fun _ => error_meets) fun hnone => .pure ⟨hrefl, fun _ => not_not.mp hnone, nofun⟩
  | VALIDATE_AFTER =>
    refine .ite (fun hsome => .pure ⟨hrefl, nofun, fun _ => hsome⟩) fun hnone => ?_
    refine .ite (fun _ => error_meets) fun hvalid => ?_
    refine (allocateNetworkStructures_meets h (not_not.mp hnone) (Bool.eq_false_iff.mpr hvalid)).weaken ?_
    exact fun nc' l hkept => ⟨hkept.1, nofun, fun _ => hkept.2⟩

/-- A parameter comes before the allocation, a `TOP` or `ROUTE` statement after it. -/
theorem order_of_mem {t : TokenMap} (ht : t ∈ topTokens) :
    ((∃ p, t.func = .parameter p) → t.order = .VALIDATE_BEFORE) ∧
      (t.func = .topology ∨ t.func = .route → t.order = .VALIDATE_AFTER) := by
  fin_cases ht <;> simp

/-! ## Files -/

/-- What a file that is included does. -/
abbrev Builds (build : List Char → NetContainer → Parse NetContainer) : Prop :=
  ∀ filename nc, nc.Valid → Exactly (build filename nc) fun nc' l => Kept nc nc' l

variable {build : List Char → NetContainer → Parse NetContainer}

theorem handleInclude_meets (h : nc.Valid) (hbuild : Builds build) :
    Exactly (nc.handleInclude build s) fun r l => Kept nc r.1 l ∧ r.2.rest.length ≤ s.rest.length := by
  refine .bind readStringToken_meets fun r₁ l₁ h₁ => .bind (hbuild _ nc h) fun nc' l₂ h₂ => .pure ⟨?_, ?_⟩
  · exact (h₂.before (List.forall_mem_nil _)).after h₁.2
  · exact h₁.1.le

theorem handleParameter_meets (h : nc.Valid) (hnone : nc.numChannels = 0) (p : Param) :
    Exactly (nc.handleParameter p s) fun r l => Kept nc r.1 l ∧ r.2.rest.length ≤ s.rest.length := by
  refine .bind readIntToken_meets fun r₁ l₁ h₁ => .pure ⟨⟨h.setParam hnone p r₁.1, ?_⟩, h₁.1⟩
  exact (and_iff_left (h₁.2.append (List.forall_mem_nil _))).symm

/-- A round of the loop over a file reads something or reaches the end. -/
theorem readFirstToken_meets (h : nc.Valid) (hbuild : Builds build) :
    Exactly (nc.readFirstToken build s) fun r l => Kept nc r.1 l ∧
      (r.2.eofbit = true ∨ r.2.rest.length < s.rest.length) := by
  refine .ite (fun heof => .pure ⟨.refl h (List.forall_mem_nil _), .inl heof⟩) fun heof => ?_
  refine .bind (readWord_meets (Bool.eq_false_iff.mpr heof)) fun r₁ l₁ h₁ => ?_
  refine .ite (fun _ => .pure ⟨.refl h (h₁.2.append (List.forall_mem_nil _)), .inr ?_⟩) fun _ => ?_
  · exact Stream.ignore_length_le.trans_lt h₁.1
  · cases hfind : topTokens.find? fun t => strcasecmp t.token r₁.1 with
    | none => exact error_meets
    | some t =>
      obtain ⟨hparameter, hafter⟩ := order_of_mem (List.mem_of_find?_eq_some hfind)
      refine .bind (checkOrder_meets h t.order) fun nc' l₂ h₂ => ?_
      have hdone : ∀ r : NetContainer × Stream, ∀ l, Kept nc' r.1 l ∧ r.2.rest.length ≤ r₁.2.rest.length →
          Kept nc r.1 (l₁ ++ (l₂ ++ l)) ∧ (r.2.eofbit = true ∨ r.2.rest.length < s.rest.length) :=
        fun r l hr => ⟨(h₂.1.trans hr.1).after h₁.2, .inr (hr.2.trans_lt h₁.1)⟩
      cases hfunc : t.func with
      | includeFile => exact (handleInclude_meets h₂.1.valid hbuild).weaken hdone
      | parameter p =>
        exact (handleParameter_meets h₂.1.valid (h₂.2.1 (hparameter ⟨p, hfunc⟩)) p).weaken hdone
      | topology =>
        exact (handleTopology_meets h₂.1.valid (h₂.2.2 (hafter (.inl hfunc)))).weaken hdone
      | route => exact (handleRoute_meets h₂.1.valid (h₂.2.2 (hafter (.inr hfunc)))).weaken hdone

theorem readFile_meets {fuel : Nat} (h : nc.Valid) (hbuild : Builds build)
    (hfuel : s.eofbit = true ∧ 1 ≤ fuel ∨ s.rest.length + 2 ≤ fuel) :
    Exactly (readFile build fuel nc s) fun nc' l => Kept nc nc' l := by
  induction fuel generalizing nc s with
  | zero => omega
  | succ fuel ih =>
    refine .ite (fun _ => .pure (.refl h (List.forall_mem_nil _))) fun heof => ?_
    refine .bind (readFirstToken_meets h hbuild) fun r l₁ h₁ => ?_
    have hrest : s.rest.length + 2 ≤ fuel + 1 := by
      rcases hfuel with hfuel | hfuel
      · exact absurd hfuel.1 heof
      · exact hfuel
    have hnext : r.2.eofbit = true ∧ 1 ≤ fuel ∨ r.2.rest.length + 2 ≤ fuel := by
      rcases h₁.2 with hend | hread
      · exact .inl ⟨hend, by omega⟩
      · exact .inr (by omega)
    exact (ih h₁.1.valid hnext).weaken fun nc' l₂ h₂ => h₁.1.trans h₂

/-- The validation of a network needs arrays, unless there is nothing in it. -/
theorem validateNetwork_meets (h : nc.Valid) : Exactly nc.validateNetwork fun nc' l => Kept nc nc' l := by
  by_cases hsound : (Event.validate nc).Sound
  · refine .record hsound ?_
    have hnodes : accessUpTo (nc.params .numNodes) nc.sizes.numNodes = pure () := by
      apply if_pos
      by_cases hnone : nc.numChannels = 0
      · exact .inl (hsound.resolve_left (not_not_intro hnone)).1
      · rw [(h.after hnone).2]
        exact .inr (le_refl _)
    have hswitches : accessUpTo (nc.params .numSwitches) nc.sizes.numSwitches = pure () := by
      apply if_pos
      by_cases hnone : nc.numChannels = 0
      · exact .inl (hsound.resolve_left (not_not_intro hnone)).2
      · rw [(h.after hnone).2]
        exact .inr (le_refl _)
    have hroutes : nc.accessRoutes = pure () := if_pos fun sw _ node _ => h.routes sw node
    rw [hnodes, hswitches, hroutes, Traced.pure_bind, Traced.pure_bind, Traced.pure_bind]
    refine .ite (fun _ => error_meets) fun _ => .pure (.refl h ?_)
    exact List.forall_mem_singleton.mpr trivial
  · refine .record_fault hsound ?_ rfl
    obtain ⟨hnone, hsome⟩ := not_or.mp hsound
    rw [(h.before (not_not.mp hnone)).1]
    by_cases hnodes : nc.params .numNodes ≤ 0
    · have hswitches : ¬ (nc.params .numSwitches ≤ 0 ∨ nc.params .numSwitches ≤ 0) :=
        fun hle => hsome ⟨hnodes, hle.elim id id⟩
      have hfirst : accessUpTo (nc.params .numNodes) 0 = pure () := if_pos (.inl hnodes)
      have hsecond : accessUpTo (nc.params .numSwitches) 0 = fault := if_neg hswitches
      rw [hfirst, hsecond]
      rfl
    · have hfirst : accessUpTo (nc.params .numNodes) 0 = fault := if_neg fun hle => hnodes (hle.elim id id)
      rw [hfirst]
      rfl

theorem buildNetwork_meets (files : Files) (limit : Nat) : Builds (buildNetwork files limit) := by
  induction limit with
  | zero => exact fun _ _ _ => error_meets
  | succ limit ih =>
    intro filename nc h
    unfold buildNetwork
    cases hfile : files filename with
    | none => exact error_meets
    | some text =>
      refine .bind (readFile_meets (h.setOpenFiles _) ih (.inr (le_refl _))) fun nc' l₁ h₁ => ?_
      have hclosed := h₁.valid.setOpenFiles (nc'.openFiles - 1)
      refine .ite (fun _ => ?_) fun _ => .pure ?_
      · refine (validateNetwork_meets hclosed).weaken fun nc'' l₂ h₂ => ⟨h₂.valid, ?_⟩
        exact (Kept.trans ⟨hclosed, h₁.atMostOne⟩ h₂).atMostOne
      · exact Kept.before ⟨hclosed, h₁.atMostOne⟩ (List.forall_mem_nil _)

/-- A text is validated: it builds a network or reports an error, no access is out of bounds,
    and a network that is built has at most one channel for each port and direction. -/
def Validated (files : Files) (limit : Nat) (filename : List Char) : Prop :=
  (buildNetwork files limit filename new).result ≠ .error .fault ∧
    ∀ nc, (buildNetwork files limit filename new).result = .ok nc → nc.AtMostOne

/-- The parameters of a network with two nodes and a switch with two ports. -/
def smallParameters : String :=
  "ChannelLatency 1 ChannelLatencyData 1 ChannelLatencyControl 1 LocalChannelLatencyDivider 1 " ++
    "NumNodes 2 NumSwitches 1 SwitchInputBuffers 1 SwitchOutputBuffers 1 " ++
    "SwitchInternalBuffersPerVC 1 SwitchBandwidth 1 SwitchPorts 2\n"

/-- A text with a negative node number. -/
def negativeNode : List Char := (smallParameters ++ "Top Node -1 -> Switch 0:0\n").toList

/-- A text that connects both nodes to the same port. -/
def sharedPort : List Char :=
  (smallParameters ++ "Top Node 0 -> Switch 0:0\nTop Node 1 -> Switch 0:0\n" ++
    "Route Switch 0 -> 0 \x7b 0:0 \x7d\nRoute Switch 0 -> 1 \x7b 0:0 \x7d\n").toList

end NetContainer

end nNetShim
