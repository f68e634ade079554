import Flexus.Core.Waiters

/-!
# Page walks and data accesses share the miss registers

A page walk makes a register without waiters, and makes none when the address has one.
As long as the two never meet at an address, every request finds its way back.
-/

namespace nuArchARM

open Runs LSQ

variable {cfg : CoreConfig} {c c' : Core} {a : PhysicalMemoryAddress} {aPC : VirtualMemoryAddress}
  {event : Core.Event} {e : LSQEntry}

/-- Two requests in flight that their replies tell apart. -/
structure Distinct (x y : MemOp) : Prop where
  paddr : x.thePAddr = y.thePAddr → x.theOperation ≠ .kStorePrefetch →
    y.theOperation ≠ .kStorePrefetch →
    x.theOperation ≠ .kPageWalkRequest ∧ y.theOperation ≠ .kPageWalkRequest
  vaddr : x.theOperation = .kPageWalkRequest → y.theOperation = .kPageWalkRequest →
    x.theVAddr ≠ y.theVAddr

theorem Distinct.symm {x y : MemOp} (h : Distinct x y) : Distinct y x where
  paddr := fun heq hy hx => (h.paddr heq.symm hx hy).symm
  vaddr := fun hy hx heq => h.vaddr hx hy heq.symm

/-- The register a page walk makes. -/
def walkRegister (a : PhysicalMemoryAddress) : MSHR :=
  ⟨a, .kPageWalkRequest, .kDoubleWord, [], [], []⟩

/-- Every page walk in flight has its register and its translation, every register has its
    request in flight, and only page walks have registers that nothing waits in. -/
structure Routed (w : Wires) : Prop where
  walks : ∀ op ∈ w.theMemoryPorts, op.theOperation = .kPageWalkRequest →
    op.theSize = .kDoubleWord ∧ walkRegister op.thePAddr ∈ w.theMSHRs ∧
      ∃ n, (op.theVAddr, n) ∈ w.thePageWalkRequests
  distinct : w.theMemoryPorts.Pairwise Distinct
  asked : ∀ walk ∈ w.thePageWalkRequests, ∃ op ∈ w.theMemoryPorts,
    op.theOperation = .kPageWalkRequest ∧ op.theVAddr = walk.1
  table : (w.thePageWalkRequests.map Prod.fst).Nodup
  busy : ∀ m ∈ w.theMSHRs, m.theOperation = .kPageWalkRequest ∨ m.theWaitingLSQs ≠ []
  own : ∀ m ∈ w.theMSHRs, m.theOperation ≠ .kStorePrefetch ∧ ∃ op ∈ w.theMemoryPorts,
    op.theOperation = m.theOperation ∧ op.thePAddr = m.thePaddr ∧ op.theSize = m.theSize

/-- Page walks and data accesses do not meet: no request for its address is in flight when a
    page walk is sent, nor a page walk for its virtual address; no page walk to its address
    when an access looks for a register; and none at all when the registers are cleaned. -/
def Apart (cfg : CoreConfig) (c : Core) : Core.Event → Prop
  | .issueMMU vaddr paddr _ =>
    (∀ op ∈ c.theMemoryPorts, op.theOperation ≠ .kStorePrefetch → op.thePAddr ≠ paddr) ∧
      ∀ walk ∈ c.thePageWalkRequests, walk.1 ≠ vaddr
  | .commit => c.theAbortSpeculation = true →
    ∀ op ∈ c.theMemoryPorts, op.theOperation ≠ .kPageWalkRequest
  | .resynchronize _ => ∀ op ∈ c.theMemoryPorts, op.theOperation ≠ .kPageWalkRequest
  | event => ∀ a, c.scans cfg event = some a → ∀ op ∈ c.theMemoryPorts,
    op.theOperation = .kPageWalkRequest → op.thePAddr ≠ a

namespace Routed

variable {w w' : Wires}

theorem loosen (h : Routed w) (hloosens : Loosens w w') : Routed w' where
  walks := by
    intro op hop hwalk
    rw [hloosens.ports] at hop
    obtain ⟨hsize, hm, n, hn⟩ := h.walks op hop hwalk
    exact ⟨hsize, hloosens.sheds.idle _ hm rfl, n, hloosens.walks ▸ hn⟩
  distinct := hloosens.ports ▸ h.distinct
  asked := by
    rw [hloosens.walks, hloosens.ports]
    exact h.asked
  table := hloosens.walks ▸ h.table
  busy := by
    intro m' hm'
    obtain ⟨m, hm, -, hop, -, hsame⟩ := hloosens.sheds.origin m' hm'
    by_cases hempty : m'.theWaitingLSQs = []
    · rw [hsame hempty]
      exact h.busy m hm
    · exact .inr hempty
  own := by
    intro m' hm'
    obtain ⟨m, hm, hkey, hop, hsize, -⟩ := hloosens.sheds.origin m' hm'
    rw [hkey, hop, hsize, hloosens.ports]
    exact h.own m hm

/-- No page walk is in flight, so that none is lost. -/
theorem clean (h : Routed c.wires) (hcleans : Cleans c c')
    (hnone : ∀ op ∈ c.theMemoryPorts, op.theOperation ≠ .kPageWalkRequest) : Routed c'.wires := by
  have hports : c'.wires.theMemoryPorts = c.theMemoryPorts := hcleans.ports
  refine ⟨?_, hports ▸ h.distinct, ?_, ?_, ?_, ?_⟩
  · intro op hop hwalk
    exact absurd hwalk (hnone op (hports ▸ hop))
  · intro walk hwalk
    have hold : walk ∈ c.thePageWalkRequests := hcleans.walks ▸ hwalk
    obtain ⟨op, hop, hkind, -⟩ := h.asked walk hold
    exact absurd hkind (hnone op hop)
  · have hwalks : c'.wires.thePageWalkRequests = c.thePageWalkRequests := hcleans.walks
    exact hwalks ▸ h.table
  · intro m' hm'
    exact .inr (hcleans.mshrs m' hm').1
  · intro m' hm'
    obtain ⟨-, m, hm, hkey, hop, hsize⟩ := hcleans.mshrs m' hm'
    rw [hkey, hop, hsize, hports]
    exact h.own m hm

theorem issue (h : Routed w) (hissues : Issues a w w')
    (hnone : ∀ op ∈ w.theMemoryPorts, op.theOperation = .kPageWalkRequest → op.thePAddr ≠ a) :
    Routed w' := by
  have hmore : ∀ op ∈ w.theMemoryPorts, op ∈ w'.theMemoryPorts := by
    intro op hop
    rcases hissues.ports with hsame | ⟨new, -, -, hnew⟩
    · exact hsame ▸ hop
    · rw [hnew]
      exact List.mem_append_left _ hop
  refine ⟨?_, ?_, ?_, hissues.walks ▸ h.table, ?_, ?_⟩
  · intro op hop hwalk
    have hold : op ∈ w.theMemoryPorts := by
      rcases hissues.ports with hsame | ⟨new, -, hkind, hnew⟩
      · exact hsame ▸ hop
      · rw [hnew] at hop
        rcases List.mem_append.mp hop with hop | hop
        · exact hop
        · rw [List.mem_singleton.mp hop] at hwalk
          exact absurd hwalk hkind
    obtain ⟨hsize, hm, n, hn⟩ := h.walks op hold hwalk
    exact ⟨hsize, hissues.idle _ hm rfl, n, hissues.walks ▸ hn⟩
  · rcases hissues.ports with hsame | ⟨new, hpaddr, hkind, hnew⟩
    · exact hsame ▸ h.distinct
    · rw [hnew, List.pairwise_append]
      refine ⟨h.distinct, List.pairwise_singleton _ _, ?_⟩
      intro x hx y hy
      rw [List.mem_singleton.mp hy]
      refine ⟨fun heq _ _ => ⟨fun hwalk => hnone x hx hwalk (heq.trans hpaddr), hkind⟩, ?_⟩
      exact fun _ hwalk => absurd hwalk hkind
  · intro walk hwalk
    obtain ⟨op, hop, hkind⟩ := h.asked walk (hissues.walks ▸ hwalk)
    exact ⟨op, hmore op hop, hkind⟩
  · intro m' hm'
    rcases hissues.origin m' hm' with ⟨m, hm, -, hop, -, hsame⟩ | ⟨hwaits, -⟩
    · by_cases hempty : m'.theWaitingLSQs = []
      · rw [hsame hempty]
        exact h.busy m hm
      · exact .inr hempty
    · exact .inr hwaits
  · intro m' hm'
    rcases hissues.origin m' hm' with ⟨m, hm, hkey, hop, hsize, -⟩ | ⟨-, hkey, -, hkind, op, hop, hown⟩
    · obtain ⟨hkind, op, hmem, hown⟩ := h.own m hm
      rw [hkey, hop, hsize]
      exact ⟨hkind, op, hmore op hmem, hown⟩
    · rw [hkey]
      exact ⟨hkind, op, hop, hown⟩

/-- A page walk to an address that has no request in flight makes its register. -/
theorem walk (h : Routed c.wires) {vaddr : VirtualMemoryAddress} {n : Nat}
    (hfree : ∀ op ∈ c.theMemoryPorts, op.theOperation ≠ .kStorePrefetch → op.thePAddr ≠ a)
    (hnew : ∀ walk ∈ c.thePageWalkRequests, walk.1 ≠ vaddr) :
    Routed (c.issueMMU vaddr a n).wires ∧
      (c.issueMMU vaddr a n).thePageWalkRequests = c.thePageWalkRequests ++ [(vaddr, n)] := by
  have hnokey : findMSHR c.theMSHRs a = none := by
    refine Keyed.lookup_eq_none.mpr fun hmem => ?_
    obtain ⟨m, hm, hkey⟩ := List.mem_map.mp hmem
    obtain ⟨hkind, op, hop, hsame, hpaddr, -⟩ := h.own m hm
    exact hfree op hop (hsame ▸ hkind) (hpaddr.trans hkey)
  have hms : (c.issueMMU vaddr a n).wires.theMSHRs = c.theMSHRs ++ [walkRegister a] := by
    change (if (findMSHR c.theMSHRs a).isSome then c.theMSHRs else c.theMSHRs ++ [walkRegister a]) = _
    rw [hnokey]
    rfl
  have htable : (c.issueMMU vaddr a n).thePageWalkRequests = c.thePageWalkRequests ++ [(vaddr, n)] := by
    change Keyed.erase Prod.fst vaddr c.thePageWalkRequests ++ [(vaddr, n)] = _
    congr 1
    refine List.filter_eq_self.mpr fun walk hwalk => ?_
    simpa using hnew walk hwalk
  obtain ⟨new, hop⟩ : ∃ new : MemOp, new = ⟨.kPageWalkRequest, a, vaddr, .kDoubleWord⟩ := ⟨_, rfl⟩
  have hports : (c.issueMMU vaddr a n).wires.theMemoryPorts = c.theMemoryPorts ++ [new] := by
    rw [hop]
    rfl
  have hwalks : (c.issueMMU vaddr a n).wires.thePageWalkRequests =
      c.thePageWalkRequests ++ [(vaddr, n)] := htable
  refine ⟨⟨?_, ?_, ?_, ?_, ?_, ?_⟩, htable⟩
  · rw [hports, hms, hwalks]
    intro op hmem hwalk
    rcases List.mem_append.mp hmem with hmem | hmem
    · obtain ⟨hsize, hm, k, hk⟩ := h.walks op hmem hwalk
      exact ⟨hsize, List.mem_append_left _ hm, k, List.mem_append_left _ hk⟩
    · rw [List.mem_singleton.mp hmem, hop]
      exact ⟨rfl, List.mem_append_right _ (List.mem_singleton.mpr rfl), n,
        List.mem_append_right _ (List.mem_singleton.mpr rfl)⟩
  · rw [hports, List.pairwise_append]
    refine ⟨h.distinct, List.pairwise_singleton _ _, ?_⟩
    intro x hx y hy
    rw [List.mem_singleton.mp hy, hop]
    refine ⟨fun heq hkind _ => absurd heq (hfree x hx hkind), fun hwalk _ heq => ?_⟩
    obtain ⟨-, -, k, hk⟩ := h.walks x hx hwalk
    exact hnew _ hk heq
  · rw [hports, hwalks]
    intro walk hwalk
    rcases List.mem_append.mp hwalk with hwalk | hwalk
    · obtain ⟨op, hmem, hkind⟩ := h.asked walk hwalk
      exact ⟨op, List.mem_append_left _ hmem, hkind⟩
    · rw [List.mem_singleton.mp hwalk]
      refine ⟨new, List.mem_append_right _ (List.mem_singleton.mpr rfl), ?_⟩
      rw [hop]
      exact ⟨rfl, rfl⟩
  · rw [hwalks]
    refine Keyed.nodup_append_singleton h.table fun hmem => ?_
    obtain ⟨walk, hwalk, heq⟩ := List.mem_map.mp hmem
    exact hnew walk hwalk heq
  · rw [hms]
    intro m hm
    rcases List.mem_append.mp hm with hm | hm
    · exact h.busy m hm
    · rw [List.mem_singleton.mp hm]
      exact .inl rfl
  · rw [hms, hports]
    intro m hm
    rcases List.mem_append.mp hm with hm | hm
    · obtain ⟨hkind, op, hmem, hown⟩ := h.own m hm
      exact ⟨hkind, op, List.mem_append_left _ hmem, hown⟩
    · rw [List.mem_singleton.mp hm]
      refine ⟨by simp [walkRegister], new, List.mem_append_right _ (List.mem_singleton.mpr rfl), ?_⟩
      rw [hop]
      exact ⟨rfl, rfl, rfl⟩

end Routed

/-! ## Replies -/

/-- A request and the others, where any two are related. -/
theorem related_of_eraseIdx {α : Type*} {R : α → α → Prop} (hsymm : ∀ x y, R x y → R y x)
    {l : List α} (h : l.Pairwise R) {k : Nat} {x : α} (hx : l[k]? = some x) :
    ∀ y ∈ l.eraseIdx k, R x y := by
  induction l generalizing k with
  | nil => cases hx
  | cons z l ih =>
    obtain ⟨hhead, htail⟩ := List.pairwise_cons.mp h
    cases k with
    | zero =>
      obtain rfl := Option.some.inj hx
      exact hhead
    | succ k =>
      rw [List.getElem?_cons_succ] at hx
      intro y hy
      rw [List.eraseIdx_cons_succ] at hy
      rcases List.mem_cons.mp hy with rfl | hy
      · exact hsymm _ _ (hhead x (List.mem_of_getElem? hx))
      · exact ih htail hx y hy

/-- What is still in flight after a reply. -/
theorem mem_eraseIdx_of_ne {l : List MemOp} {k : Nat} {x y : MemOp} (hx : l[k]? = some x)
    (hy : y ∈ l) (hne : y ≠ x) : y ∈ l.eraseIdx k := by
  induction l generalizing k with
  | nil => cases hy
  | cons z l ih =>
    cases k with
    | zero =>
      obtain rfl := Option.some.inj hx
      rcases List.mem_cons.mp hy with rfl | hy
      · exact absurd rfl hne
      · exact hy
    | succ k =>
      rw [List.getElem?_cons_succ] at hx
      rw [List.eraseIdx_cons_succ]
      rcases List.mem_cons.mp hy with rfl | hy
      · exact List.mem_cons_self
      · exact List.mem_cons_of_mem _ (ih hx hy)

/-- A reply satisfies a register of its own request. -/
theorem satisfies_reply {op : eRequest} (hkind : op ≠ .kStorePrefetch) :
    satisfies cfg op.reply op = true := by
  cases op with
  | kStorePrefetch => exact absurd rfl hkind
  | kLoad | kPageWalkRequest | kStore | kAtomicPreload => rfl
  | kRMW | kCAS => simp [satisfies, eRequest.reply]

/-- The reply to a page walk finds the register of the walk. -/
theorem Routed.find_walk (h : Routed c.wires) (hlinked : c.wires.Linked) {op : MemOp}
    (hop : op ∈ c.theMemoryPorts) (hwalk : op.theOperation = .kPageWalkRequest) :
    findMSHR c.theMSHRs op.thePAddr = some (walkRegister op.thePAddr) ∧
      op.theSize = .kDoubleWord := by
  obtain ⟨hsize, hm, -⟩ := h.walks op hop hwalk
  exact ⟨Keyed.lookup_of_mem hlinked.keys hm, hsize⟩

/-- A reply to a data access does not find the register of a page walk. -/
theorem Routed.data_register (h : Routed c.wires) {k : Nat} {op : MemOp}
    (hop : c.theMemoryPorts[k]? = some op) (hkind : op.theOperation ≠ .kStorePrefetch)
    (hdata : op.theOperation ≠ .kPageWalkRequest) {m : MSHR} (hm : m ∈ c.theMSHRs)
    (hkey : m.thePaddr = op.thePAddr) : m.theOperation ≠ .kPageWalkRequest := by
  intro hwalk
  obtain ⟨-, x, hx, hsame, hpaddr, -⟩ := h.own m hm
  have hxwalk : x.theOperation = .kPageWalkRequest := hsame.trans hwalk
  have hne : x ≠ op := by
    rintro rfl
    exact hdata hxwalk
  have hrelated := related_of_eraseIdx (fun _ _ hd => Distinct.symm hd) h.distinct hop x
    (mem_eraseIdx_of_ne hop hx hne)
  have hxkind : x.theOperation ≠ .kStorePrefetch := by
    rw [hxwalk]
    decide
  exact (hrelated.paddr (hpaddr.trans hkey).symm hkind hxkind).2 hxwalk

/-- No translation that is waited for is lost. -/
def Retains (w w' : Wires) : Prop :=
  ∀ walk ∈ w.thePageWalkRequests, walk ∈ w'.thePageWalkRequests ∨ walk.2 ∈ w'.theReadyTranslations

theorem Retains.of_eq {w w' : Wires} (h : w'.thePageWalkRequests = w.thePageWalkRequests) :
    Retains w w' := fun _ hwalk => .inl (h ▸ hwalk)

/-- A reply that no register waits for is dropped. -/
theorem Routed.drop (h : Routed c.wires) (hlinked : c.wires.Linked) {k : Nat} {op : MemOp}
    (hop : c.theMemoryPorts[k]? = some op)
    (hno : op.theOperation = .kStorePrefetch ∨
      ∀ mshr, findMSHR c.theMSHRs op.thePAddr = some mshr →
        ¬ (satisfies cfg op.theOperation.reply mshr.theOperation ∧ mshr.theSize = op.theSize)) :
    Routed { c.wires with theMemoryPorts := c.theMemoryPorts.eraseIdx k } := by
  have hmem : op ∈ c.theMemoryPorts := List.mem_of_getElem? hop
  have hsub : (c.theMemoryPorts.eraseIdx k).Sublist c.theMemoryPorts := List.eraseIdx_sublist _ _
  have hdata : op.theOperation ≠ .kPageWalkRequest := by
    intro hwalk
    obtain ⟨hfind, hsize⟩ := h.find_walk hlinked hmem hwalk
    rcases hno with hpf | hno
    · rw [hpf] at hwalk
      cases hwalk
    · refine hno _ hfind ⟨?_, hsize.symm⟩
      rw [hwalk]
      exact satisfies_reply (by decide)
  refine ⟨?_, h.distinct.sublist hsub, ?_, h.table, h.busy, ?_⟩
  · intro x hx hwalk
    exact h.walks x (hsub.subset hx) hwalk
  · intro walk hwalk
    obtain ⟨x, hx, hkind, hvaddr⟩ := h.asked walk hwalk
    refine ⟨x, mem_eraseIdx_of_ne hop hx ?_, hkind, hvaddr⟩
    rintro rfl
    exact hdata hkind
  · intro m hm
    obtain ⟨hkind, x, hx, hsame, hpaddr, hsize⟩ := h.own m hm
    refine ⟨hkind, x, mem_eraseIdx_of_ne hop hx ?_, hsame, hpaddr, hsize⟩
    rintro rfl
    rcases hno with hpf | hno
    · exact hkind (hsame ▸ hpf)
    · have hfind : findMSHR c.theMSHRs x.thePAddr = some m :=
        hpaddr ▸ Keyed.lookup_of_mem hlinked.keys hm
      refine hno m hfind ⟨?_, hsize.symm⟩
      rw [hsame]
      exact satisfies_reply hkind

/-- A reply releases the register of its own request. -/
theorem Routed.serve (h : Routed c.wires) (hlinked : c.wires.Linked) {k : Nat} {op : MemOp}
    (hop : c.theMemoryPorts[k]? = some op) (hkind : op.theOperation ≠ .kStorePrefetch) {mshr : MSHR}
    (hfind : findMSHR c.theMSHRs op.thePAddr = some mshr)
    (hserved : Served op mshr { c.wires with theMemoryPorts := c.theMemoryPorts.eraseIdx k } c'.wires) :
    Routed c'.wires ∧ Retains c.wires c'.wires := by
  have hmem : op ∈ c.theMemoryPorts := List.mem_of_getElem? hop
  obtain ⟨hm, hkey⟩ := Keyed.mem_of_lookup hfind
  have hsub : (c.theMemoryPorts.eraseIdx k).Sublist c.theMemoryPorts := List.eraseIdx_sublist _ _
  have hports : c'.wires.theMemoryPorts = c.theMemoryPorts.eraseIdx k := hserved.ports
  have hms : c'.wires.theMSHRs = Keyed.erase MSHR.thePaddr op.thePAddr c.theMSHRs := hserved.mshrs
  have hothers : ∀ x ∈ c.theMemoryPorts, x.thePAddr ≠ op.thePAddr → x ∈ c'.wires.theMemoryPorts := by
    intro x hx hne
    rw [hports]
    refine mem_eraseIdx_of_ne hop hx ?_
    rintro rfl
    exact hne rfl
  -- the page walks that stay are to other addresses
  have hapart : ∀ x ∈ c'.wires.theMemoryPorts, x.theOperation = .kPageWalkRequest →
      x.thePAddr ≠ op.thePAddr ∧
        (op.theOperation = .kPageWalkRequest → x.theVAddr ≠ op.theVAddr) := by
    intro x hx hwalk
    rw [hports] at hx
    have hrelated := related_of_eraseIdx (fun _ _ hd => Distinct.symm hd) h.distinct hop x hx
    refine ⟨fun heq => ?_, fun hopwalk heq => hrelated.vaddr hopwalk hwalk heq.symm⟩
    exact (hrelated.paddr heq.symm hkind (by rw [hwalk]; decide)).2 hwalk
  have hregisters : ∀ x ∈ c'.wires.theMemoryPorts, x.theOperation = .kPageWalkRequest →
      x.theSize = .kDoubleWord ∧ walkRegister x.thePAddr ∈ c'.wires.theMSHRs := by
    intro x hx hwalk
    obtain ⟨hsize, hreg, -⟩ := h.walks x (hsub.subset (hports ▸ hx)) hwalk
    refine ⟨hsize, ?_⟩
    rw [hms]
    exact List.mem_filter.mpr ⟨hreg, by simpa [walkRegister] using (hapart x hx hwalk).1⟩
  have hbusy : ∀ m ∈ c'.wires.theMSHRs, m.theOperation = .kPageWalkRequest ∨ m.theWaitingLSQs ≠ [] := by
    intro m hm'
    rw [hms] at hm'
    exact h.busy m (List.mem_of_mem_filter hm')
  have hown : ∀ m ∈ c'.wires.theMSHRs, m.theOperation ≠ .kStorePrefetch ∧
      ∃ op ∈ c'.wires.theMemoryPorts,
        op.theOperation = m.theOperation ∧ op.thePAddr = m.thePaddr ∧ op.theSize = m.theSize := by
    intro m hm'
    rw [hms] at hm'
    obtain ⟨hm', hne⟩ := List.mem_filter.mp hm'
    have hne : m.thePaddr ≠ op.thePAddr := by simpa using hne
    obtain ⟨hpf, x, hx, hsame, hpaddr, hsize⟩ := h.own m hm'
    exact ⟨hpf, x, hothers x hx (hpaddr.trans_ne hne), hsame, hpaddr, hsize⟩
  have hdistinct : c'.wires.theMemoryPorts.Pairwise Distinct := hports ▸ h.distinct.sublist hsub
  by_cases hwalk : op.theOperation = .kPageWalkRequest
  · obtain ⟨hown', -⟩ := h.find_walk hlinked hmem hwalk
    obtain rfl := Option.some.inj (hfind.symm.trans hown')
    have hregister : (walkRegister op.thePAddr).theOperation = .kPageWalkRequest := rfl
    have htable := hserved.walks
    rw [if_pos hregister] at htable
    obtain ⟨walk, hlookup, hwalks, hready⟩ := htable
    have hwalks : c'.wires.thePageWalkRequests =
        Keyed.erase Prod.fst op.theVAddr c.thePageWalkRequests := hwalks
    refine ⟨⟨?_, hdistinct, ?_, ?_, hbusy, hown⟩, ?_⟩
    · intro x hx hxwalk
      obtain ⟨-, -, n, hn⟩ := h.walks x (hsub.subset (hports ▸ hx)) hxwalk
      refine ⟨(hregisters x hx hxwalk).1, (hregisters x hx hxwalk).2, n, ?_⟩
      rw [hwalks]
      exact List.mem_filter.mpr ⟨hn, by simpa using (hapart x hx hxwalk).2 hwalk⟩
    · intro y hy
      rw [hwalks] at hy
      obtain ⟨hy, hne⟩ := List.mem_filter.mp hy
      have hne : y.1 ≠ op.theVAddr := by simpa using hne
      obtain ⟨x, hx, hxwalk, hvaddr⟩ := h.asked y hy
      refine ⟨x, ?_, hxwalk, hvaddr⟩
      rw [hports]
      refine mem_eraseIdx_of_ne hop hx ?_
      rintro rfl
      exact hne hvaddr.symm
    · rw [hwalks]
      exact Keyed.nodup_erase h.table
    · intro y hy
      by_cases hsame : y.1 = op.theVAddr
      · have hy' : Keyed.lookup Prod.fst c.thePageWalkRequests op.theVAddr = some y :=
          hsame ▸ Keyed.lookup_of_mem h.table hy
        have hlookup' : Keyed.lookup Prod.fst c.thePageWalkRequests op.theVAddr = some walk := hlookup
        rw [Option.some.inj (hy'.symm.trans hlookup')]
        refine .inr ?_
        rw [hready]
        exact List.mem_append_right _ (List.mem_singleton.mpr rfl)
      · refine .inl ?_
        rw [hwalks]
        exact List.mem_filter.mpr ⟨hy, by simpa using hsame⟩
  · have hdata := h.data_register hop hkind hwalk hm hkey
    have htable := hserved.walks
    rw [if_neg hdata] at htable
    have hwalks : c'.wires.thePageWalkRequests = c.thePageWalkRequests := htable.1
    refine ⟨⟨?_, hdistinct, ?_, hwalks ▸ h.table, hbusy, hown⟩, .of_eq hwalks⟩
    · intro x hx hxwalk
      obtain ⟨-, -, n, hn⟩ := h.walks x (hsub.subset (hports ▸ hx)) hxwalk
      exact ⟨(hregisters x hx hxwalk).1, (hregisters x hx hxwalk).2, n, hwalks ▸ hn⟩
    · intro y hy
      rw [hwalks] at hy
      obtain ⟨x, hx, hxwalk, hvaddr⟩ := h.asked y hy
      refine ⟨x, ?_, hxwalk, hvaddr⟩
      rw [hports]
      refine mem_eraseIdx_of_ne hop hx ?_
      rintro rfl
      exact hwalk hxwalk

theorem Routed.step (h : Routed c.wires) (hlinked : c.wires.Linked) (hapart : Apart cfg c event)
    (hrewires : Rewires cfg c c' event) : Routed c'.wires ∧ Retains c.wires c'.wires := by
  have hissue : (∀ a, c.scans cfg event = some a → ∀ op ∈ c.theMemoryPorts,
      op.theOperation = .kPageWalkRequest → op.thePAddr ≠ a) →
      (c'.wires = c.wires ∨ ∃ a, c.scans cfg event = some a ∧ Issues a c.wires c'.wires) →
      Routed c'.wires ∧ Retains c.wires c'.wires := by
    rintro hnone (hsame | ⟨a, hscans, hissues⟩)
    · rw [hsame]
      exact ⟨h, .of_eq rfl⟩
    · exact ⟨h.issue hissues (hnone a hscans), .of_eq hissues.walks⟩
  have hloosen : Loosens c.wires c'.wires → Routed c'.wires ∧ Retains c.wires c'.wires :=
    fun hloosens => ⟨h.loosen hloosens, .of_eq hloosens.walks⟩
  have hclean : Cleans c c' → (∀ op ∈ c.theMemoryPorts, op.theOperation ≠ .kPageWalkRequest) →
      Routed c'.wires ∧ Retains c.wires c'.wires :=
    fun hcleans hnone => ⟨h.clean hcleans hnone, .of_eq hcleans.walks⟩
  cases event with
  | commit =>
    rcases hrewires with ⟨-, hloosens⟩ | ⟨habort, hcleans⟩
    · exact hloosen hloosens
    · exact hclean hcleans (hapart habort)
  | resynchronize pc => exact hclean hrewires hapart
  | issue insn => exact hissue hapart hrewires
  | issueStorePrefetch insn => exact hissue hapart hrewires
  | issueMMU vaddr paddr n =>
    obtain ⟨hrouted, htable⟩ := h.walk (n := n) hapart.1 hapart.2
    rw [show c' = c.issueMMU vaddr paddr n from hrewires]
    refine ⟨hrouted, fun walk hwalk => .inl ?_⟩
    have hmem : walk ∈ (c.issueMMU vaddr paddr n).thePageWalkRequests := by
      rw [htable]
      exact List.mem_append_left _ hwalk
    exact hmem
  | reply k value =>
    rcases hrewires with ⟨-, hsame⟩ | ⟨op, hop, ⟨hno, hsame⟩ | ⟨hkind, mshr, hfind, -, hserved⟩⟩
    · rw [hsame]
      exact ⟨h, .of_eq rfl⟩
    · rw [hsame]
      exact ⟨h.drop hlinked hop hno, .of_eq rfl⟩
    · exact h.serve hlinked hop hkind hfind hserved
  | dispatch | execute | reissue | squash | retire | resolveCheckpoint | violate | requestPort
  | issueStore | snoop | redirectFetch | redirect => exact hloosen hrewires

/-- An access that is apart from the page walks finds waiters in its register. -/
theorem Routed.not_idle (h : Routed c.wires) (hapart : Apart cfg c event)
    (hscans : c.scans cfg event = some a) : ¬ Idle c.theMSHRs a := by
  rintro ⟨m, hfind, hempty⟩
  obtain ⟨hm, hkey⟩ := Keyed.mem_of_lookup hfind
  have hwalk : m.theOperation = .kPageWalkRequest :=
    (h.busy m hm).resolve_right fun hwaits => hwaits hempty
  obtain ⟨-, op, hop, hsame, hpaddr, -⟩ := h.own m hm
  have hnone : ∀ op ∈ c.theMemoryPorts, op.theOperation = .kPageWalkRequest → op.thePAddr ≠ a := by
    cases event with
    | issue insn => exact hapart a hscans
    | issueStorePrefetch insn => exact hapart a hscans
    | dispatch | execute | reissue | squash | retire | commit | resolveCheckpoint | violate
    | requestPort | issueStore | issueMMU | reply | snoop | redirectFetch | redirect
    | resynchronize => cases hscans
  exact hnone op hop (hsame.trans hwalk) (hpaddr.trans hkey)

/-- The register of a page walk is only found by the walk's own reply. -/
theorem Routed.not_misdirected (h : Routed c.wires) {k : Nat} : ¬ Misdirected cfg c k := by
  rintro ⟨op, hop, hkind, ⟨m, hfind, hwalk, -, -⟩, hnone⟩
  obtain ⟨hm, hkey⟩ := Keyed.mem_of_lookup hfind
  by_cases hopwalk : op.theOperation = .kPageWalkRequest
  · obtain ⟨-, -, n, hn⟩ := h.walks op (List.mem_of_getElem? hop) hopwalk
    exact Keyed.lookup_eq_none.mp hnone (List.mem_map.mpr ⟨_, hn, rfl⟩)
  · exact h.data_register hop hkind hopwalk hm hkey hwalk

/-! ## Runs -/

/-- The states of the runs in which page walks and data accesses do not meet. -/
abbrev Core.ReachableApart (cfg : CoreConfig) (aPC : VirtualMemoryAddress) : Core → Prop :=
  Reaches (Core.step cfg) (Apart cfg) (Core.start aPC)

theorem Core.ReachableApart.reachable (h : Core.ReachableApart cfg aPC c) :
    Core.Reachable cfg aPC c := h.weaken fun _ _ _ => trivial

theorem Core.ReachableApart.routed (h : Core.ReachableApart cfg aPC c) : Routed c.wires := by
  refine Reaches.invariant_given (I := fun c => Steady cfg c ∧ c.wires.Linked)
    (J := fun c => Routed c.wires) ?_ ?_ ?_ h
  · intro s hs
    have hreachable : Core.Reachable cfg aPC s := Reaches.weaken (fun _ _ _ => trivial) hs
    exact ⟨hreachable.steady, hreachable.linked⟩
  · exact ⟨by simp [Core.wires, Core.start], List.Pairwise.nil, by simp [Core.wires, Core.start],
      List.nodup_nil, by simp [Core.wires, Core.start], by simp [Core.wires, Core.start]⟩
  · rintro s e s' ⟨hsteady, hlinked⟩ hrouted hapart hok
    exact (hrouted.step hlinked hapart ((step_rewires hsteady hlinked).1 s' hok)).1

/-- The reply to a page walk is taken by its translation. -/
theorem Routed.walk_completes (h : Routed c.wires) (hlinked : c.wires.Linked) {k n : Nat} {op : MemOp}
    (hop : c.theMemoryPorts[k]? = some op) (hwalk : op.theOperation = .kPageWalkRequest)
    (hn : (op.theVAddr, n) ∈ c.thePageWalkRequests) {value : bits} :
    ∃ c', Core.step cfg c (.reply k value) = .ok c' ∧ n ∈ c'.theReadyTranslations := by
  obtain ⟨hfind, hsize⟩ := h.find_walk hlinked (List.mem_of_getElem? hop) hwalk
  have hlookup : Keyed.lookup Prod.fst c.thePageWalkRequests op.theVAddr = some (op.theVAddr, n) :=
    Keyed.lookup_of_mem h.table hn
  have hsat : satisfies cfg op.theOperation.reply (walkRegister op.thePAddr).theOperation ∧
      (walkRegister op.thePAddr).theSize = op.theSize := by
    rw [hwalk]
    exact ⟨rfl, hsize.symm⟩
  refine ⟨{ c with
    theMemoryPorts := c.theMemoryPorts.eraseIdx k
    theMSHRs := Keyed.erase MSHR.thePaddr op.thePAddr c.theMSHRs
    thePageWalkRequests := Keyed.erase Prod.fst op.theVAddr c.thePageWalkRequests
    theReadyTranslations := c.theReadyTranslations ++ [n] }, ?_, ?_⟩
  · change c.processReply cfg k value = _
    rw [Core.processReply, hop]
    dsimp only
    rw [hwalk]
    change Core.complete cfg { c with theMemoryPorts := c.theMemoryPorts.eraseIdx k } op value = _
    rw [Core.complete, hfind]
    dsimp only
    rw [if_pos hsat, Core.completePageWalk, hlookup]
    rfl
  · exact List.mem_append_right _ (List.mem_singleton.mpr rfl)

/-- The reply to an access is taken by what waits in the register of its address. -/
theorem Routed.access_completes (hsteady : Steady cfg c) (hlinked : c.wires.Linked) {k : Nat}
    {op : MemOp} {m : MSHR} (hop : c.theMemoryPorts[k]? = some op)
    (hfind : findMSHR c.theMSHRs op.thePAddr = some m) (hkind : m.theOperation ≠ .kStorePrefetch)
    (hsame : op.theOperation = m.theOperation) (hsize : op.theSize = m.theSize)
    (he : e ∈ c.theMemQueue) (hlink : e.link = some op.thePAddr) {value : bits}
    (hok : Core.step cfg c (.reply k value) = .ok c') :
    ∀ e' ∈ c'.theMemQueue, e'.theSequenceNum = e.theSequenceNum → e'.link = none := by
  have hrewires := (step_rewires hsteady hlinked).1 c' hok
  have hsat : satisfies cfg op.theOperation.reply m.theOperation ∧ m.theSize = op.theSize := by
    rw [hsame]
    exact ⟨satisfies_reply hkind, hsize.symm⟩
  rcases hrewires with ⟨hnone, -⟩ | ⟨x, hx, hcases⟩
  · rw [hop] at hnone
    cases hnone
  · obtain rfl : op = x := Option.some.inj (hop.symm.trans hx)
    rcases hcases with ⟨hpf | hno, -⟩ | ⟨-, mshr, -, -, hserved⟩
    · exact absurd (hsame ▸ hpf) hkind
    · exact absurd hsat (hno m hfind)
    · intro e' he' hseq
      have ht' : e'.tie ∈ c'.wires.ties := List.mem_map_of_mem he'
      obtain ⟨t, ht, hts, htp⟩ := hserved.origin e'.tie ht'
      have hown : t = e.tie :=
        hlinked.eq_of_seq ht (List.mem_map_of_mem he) (hts.symm.trans hseq)
      have hpaddr : e.tie.paddr = op.thePAddr :=
        ((hlinked.waits e.tie (List.mem_map_of_mem he) _ hlink).1).symm
      cases hlink' : e'.link with
      | none => rfl
      | some b =>
        obtain ⟨hb, x, hx, hkey, -⟩ := hserved.linked.waits e'.tie ht' b hlink'
        rw [hserved.mshrs] at hx
        have hne : x.thePaddr ≠ op.thePAddr := by simpa using (List.mem_filter.mp hx).2
        refine absurd ?_ hne
        rw [hkey, hb, htp, hown, hpaddr]

/-- In every run in which page walks and data accesses do not meet, each translation that
    is waited for has its page walk in flight, whose reply makes it ready, and no step
    loses one. Each linked entry waits in the register of its address, whose request is in
    flight and whose reply unlinks it. No access finds a register that nothing waits in. -/
theorem requests_reach_waiters (h : Core.ReachableApart cfg aPC c) :
    (∀ walk ∈ c.thePageWalkRequests, ∃ (k : Nat) (op : MemOp), c.theMemoryPorts[k]? = some op ∧
      op.theOperation = .kPageWalkRequest ∧ op.theVAddr = walk.1 ∧
      ∀ value, ∃ c', Core.step cfg c (.reply k value) = .ok c' ∧ walk.2 ∈ c'.theReadyTranslations) ∧
    (∀ e ∈ c.theMemQueue, ∀ a, e.link = some a → ∃ m, findMSHR c.theMSHRs a = some m ∧
      e.theSequenceNum ∈ m.theWaitingLSQs ∧ ∃ (k : Nat) (op : MemOp),
        c.theMemoryPorts[k]? = some op ∧ op.thePAddr = a ∧ op.theOperation = m.theOperation ∧
        ∀ value c', Core.step cfg c (.reply k value) = .ok c' →
          ∀ e' ∈ c'.theMemQueue, e'.theSequenceNum = e.theSequenceNum → e'.link = none) ∧
    (∀ event c', Apart cfg c event → Core.step cfg c event = .ok c' →
      ∀ walk ∈ c.thePageWalkRequests,
        walk ∈ c'.thePageWalkRequests ∨ walk.2 ∈ c'.theReadyTranslations) ∧
    ∀ event f, Apart cfg c event → Core.step cfg c event = .error f →
      f ≠ .emptyMSHR ∧ f ≠ .noPageWalk := by
  have hrouted := h.routed
  have hlinked := h.reachable.linked
  have hsteady := h.reachable.steady
  refine ⟨?_, ?_, ?_, ?_⟩
  · intro walk hwalk
    obtain ⟨op, hmem, hkind, hvaddr⟩ := hrouted.asked walk hwalk
    obtain ⟨k, hop⟩ := List.mem_iff_getElem?.mp hmem
    refine ⟨k, op, hop, hkind, hvaddr, fun value => ?_⟩
    have hn : (op.theVAddr, walk.2) ∈ c.thePageWalkRequests := by
      rw [hvaddr]
      exact hwalk
    exact hrouted.walk_completes hlinked hop hkind hn
  · intro e he a hlink
    obtain ⟨-, m, hm, hkey, hw⟩ := hlinked.waits e.tie (List.mem_map_of_mem he) a hlink
    have hfind : findMSHR c.theMSHRs a = some m := hkey ▸ Keyed.lookup_of_mem hlinked.keys hm
    obtain ⟨hkind, op, hmem, hsame, hpaddr, hsize⟩ := hrouted.own m hm
    obtain ⟨k, hop⟩ := List.mem_iff_getElem?.mp hmem
    obtain rfl : op.thePAddr = a := hpaddr.trans hkey
    refine ⟨m, hfind, hw, k, op, hop, rfl, hsame, fun value c' hok => ?_⟩
    exact Routed.access_completes hsteady hlinked hop hfind hkind hsame hsize he hlink hok
  · intro event c' hapart hok
    exact (hrouted.step hlinked hapart ((step_rewires hsteady hlinked).1 c' hok)).2
  · intro event f hapart hfault
    have htame : ¬ Astray f := by
      rcases (step_rewires hsteady hlinked).2 f hfault with
        htame | ⟨rfl, -⟩ | ⟨-, a, hscans, m, hfind, hempty⟩ | ⟨-, k, value, rfl, hmis⟩
      · exact htame.2
      · decide
      · exact absurd ⟨m, hfind, hempty⟩ (hrouted.not_idle hapart hscans)
      · exact absurd hmis hrouted.not_misdirected
    rw [Astray, not_or] at htame
    exact htame

/-- No page walk is in flight, and a page walk that is sent meets no request. -/
def soleWalk (c : Core) : Core.Event → Bool
  | .issueMMU vaddr paddr _ => c.theMemoryPorts.all (fun op => op.thePAddr != paddr) &&
      c.thePageWalkRequests.all (fun walk => walk.1 != vaddr)
  | _ => c.theMemoryPorts.all (fun op => op.theOperation != .kPageWalkRequest)

theorem apart_of_soleWalk (h : soleWalk c event = true) : Apart cfg c event := by
  cases event with
  | issueMMU vaddr paddr n =>
    simp only [soleWalk, Bool.and_eq_true, List.all_eq_true, bne_iff_ne] at h
    exact ⟨fun op hop _ => h.1 op hop, h.2⟩
  | commit =>
    intro _ op hop
    exact bne_iff_ne.mp (List.all_eq_true.mp h op hop)
  | resynchronize pc =>
    intro op hop
    exact bne_iff_ne.mp (List.all_eq_true.mp h op hop)
  | _ =>
    intro a _ op hop hwalk
    exact absurd hwalk (bne_iff_ne.mp (List.all_eq_true.mp h op hop))

/-- A load and a page walk are in flight to different addresses. -/
theorem requests_reach_waiters_walk : ∃ c, Core.ReachableApart speculativeSC 0#64 c ∧
    c.thePageWalkRequests = [(0x4000#64, 7)] ∧ c.theMemQueue.map LSQEntry.link = [some 0x80#64] ∧
    ∃ k, ∀ value, ∃ c', Core.step speculativeSC c (.reply k value) = .ok c' ∧
      7 ∈ c'.theReadyTranslations := by
  have hrun : (runWhile (Core.step speculativeSC) soleWalk (Core.start 0#64)
      [.dispatch 0#64 .keep true (some (.load .kDoubleWord)), .execute 1 (loadFrom 0x80#64),
        .requestPort 1, .issue 1, .issueMMU 0x4000#64 0x200#64 7]).any
      (fun c => c.thePageWalkRequests == [(0x4000#64, 7)] &&
        c.theMemQueue.map LSQEntry.link == [some 0x80#64]) = true := by
    decide +kernel
  obtain ⟨c, hc, hend⟩ : ∃ c, Core.ReachableApart speculativeSC 0#64 c ∧ _ :=
    exists_reaches (fun _ _ => apart_of_soleWalk) hrun
  simp only [Bool.and_eq_true, beq_iff_eq] at hend
  obtain ⟨hwalks, hlinks⟩ := hend
  have hmem : (0x4000#64, 7) ∈ c.thePageWalkRequests := by
    rw [hwalks]
    exact List.mem_singleton.mpr rfl
  obtain ⟨k, -, -, -, -, hready⟩ := (requests_reach_waiters hc).1 _ hmem
  exact ⟨c, hc, hwalks, hlinks, k, hready⟩

/-- A load is in flight when a page walk to the same address is sent. The reply of the walk
    goes to the load, that of the load is dropped, and the translation waits for ever. The
    other way round, the load finds the register of the walk without a waiter. -/
theorem page_walk_lost :
    (∃ c, Core.Reachable speculativeSC 0#64 c ∧ c.theMemoryPorts = [] ∧
      c.thePageWalkRequests = [(0x4000#64, 7)] ∧ 7 ∉ c.theReadyTranslations) ∧
    ∃ c, Core.Reachable speculativeSC 0#64 c ∧
      Core.step speculativeSC c (.issue 1) = .error .emptyMSHR := by
  have hlost : (runWhile (Core.step speculativeSC) (fun _ _ => true) (Core.start 0#64)
      [.dispatch 0#64 .keep true (some (.load .kDoubleWord)), .execute 1 (loadFrom 0x80#64),
        .requestPort 1, .issue 1, .issueMMU 0x4000#64 0x80#64 7, .reply 1 5#128,
        .reply 0 5#128]).any
      (fun c => c.theMemoryPorts == [] && c.thePageWalkRequests == [(0x4000#64, 7)] &&
        c.theReadyTranslations == []) = true := by
    decide +kernel
  have hempty : (runWhile (Core.step speculativeSC) (fun _ _ => true) (Core.start 0#64)
      [.dispatch 0#64 .keep true (some (.load .kDoubleWord)), .execute 1 (loadFrom 0x80#64),
        .requestPort 1, .issueMMU 0x4000#64 0x80#64 7]).any
      (fun c => decide (Core.step speculativeSC c (.issue 1) = .error .emptyMSHR)) = true := by
    decide +kernel
  obtain ⟨c, hc, hend⟩ : ∃ c, Core.Reachable speculativeSC 0#64 c ∧ _ :=
    exists_reaches (fun _ _ _ => trivial) hlost
  simp only [Bool.and_eq_true, beq_iff_eq] at hend
  obtain ⟨⟨hports, hwalks⟩, hready⟩ := hend
  obtain ⟨c', hc', hend'⟩ : ∃ c, Core.Reachable speculativeSC 0#64 c ∧ _ :=
    exists_reaches (fun _ _ _ => trivial) hempty
  refine ⟨⟨c, hc, hports, hwalks, ?_⟩, c', hc', of_decide_eq_true hend'⟩
  rw [hready]
  exact List.not_mem_nil

end nuArchARM
