import Flexus.FastCMPCache.Accesses

/-!
# Where the data of a reply comes from

The shared cache keeps count of the requests that go to memory.
-/

namespace nFastCMPCache

open nCMPCache (MemoryMessageType)
open nFastCache
open CoherenceState_t

/-! ## The statistics -/

/-- The counters of the requests by where they are satisfied. -/
structure RequestStats where
  theReadsOnChip : Nat
  theReadsOffChip : Nat
  theFetchesOnChip : Nat
  theFetchesOffChip : Nat
  theWritesOnChip : Nat
  theWritesOffChip : Nat
  theUpgradesOnChip : Nat
  Misses_Offchip_Read : Nat
  Misses_Offchip_Fetch : Nat
  Misses_Offchip_Write : Nat
  Misses_Offchip_NAStore : Nat
  deriving DecidableEq, Repr

namespace RequestStats

def zero : RequestStats := ⟨0, 0, 0, 0, 0, 0, 0, 0, 0, 0, 0⟩

/-- A request that memory is asked for. -/
def countOffChip (type : MemoryMessageType) (st : RequestStats) : RequestStats :=
  match type with
  | .ReadReq => { st with
    theReadsOffChip := st.theReadsOffChip + 1
    Misses_Offchip_Read := st.Misses_Offchip_Read + 1 }
  | .FetchReq => { st with
    theFetchesOffChip := st.theFetchesOffChip + 1
    Misses_Offchip_Fetch := st.Misses_Offchip_Fetch + 1 }
  | .WriteReq => { st with
    theWritesOffChip := st.theWritesOffChip + 1
    Misses_Offchip_Write := st.Misses_Offchip_Write + 1 }
  | .NonAllocatingStoreReq => { st with Misses_Offchip_NAStore := st.Misses_Offchip_NAStore + 1 }
  | _ => st

def countOnChip (type : MemoryMessageType) (st : RequestStats) : RequestStats :=
  match type with
  | .ReadReq => { st with theReadsOnChip := st.theReadsOnChip + 1 }
  | .FetchReq => { st with theFetchesOnChip := st.theFetchesOnChip + 1 }
  | .WriteReq => { st with theWritesOnChip := st.theWritesOnChip + 1 }
  | .UpgradeReq => { st with theUpgradesOnChip := st.theUpgradesOnChip + 1 }
  | _ => st

def count (type : MemoryMessageType) (accessed_memory : Bool) (st : RequestStats) : RequestStats :=
  if accessed_memory then st.countOffChip type else st.countOnChip type

end RequestStats

/-- The reply to a request, and what the cache did for it. -/
structure Service where
  reply : MemoryMessageType
  snoop_success : Bool
  accessed_memory : Bool
  deriving DecidableEq, Repr

section Requests

variable {n : Nat} {D : AbstractDirectory n} {size : Nat} {A : AbstractCache size} {Above : Type}
  (cfg : Config) (ports : SnoopPorts Above)

/-- Serve a request and count it. -/
def serveRequest (anIndex : Fin n) (type : MemoryMessageType) (address : Nat)
    (s : Node D A Above) (stats : RequestStats) :
    Option (Service × Node D A Above × RequestStats) := do
  let addr := blockOf size address
  let (dir, sharers, state, dir_entry, extra_actions) := D.lookup anIndex addr type s.theDirectory
  let (cache, lookup) := A.lookup s.theCache addr
  let s := { s with theDirectory := dir, theCache := cache }
  let action ← SingleCMPProtocol.getAction type (A.getState s.theCache lookup) state
  let (result, snoop_success, s) ←
    snoopSharers cfg ports action anIndex address addr sharers dir_entry s
  let accessed_memory := !snoop_success && action.forward_request
  let s := if accessed_memory then { s with requests := s.requests ++ [(type, address)] } else s
  let s ← runActions cfg ports extra_actions s
  let dir ← D.respond anIndex type result.our_response dir_entry addr s.theDirectory
  let s := { s with theDirectory := dir }
  let nstate := if result.use_ns1 then action.next_state.2 else action.next_state.1
  let s ← updateCache action nstate lookup s
  if isClassified type accessed_memory snoop_success then
    some (⟨result.our_response, snoop_success, accessed_memory⟩, s, stats.count type accessed_memory)
  else none

variable {anIndex i : Fin n} {type : MemoryMessageType} {address addr : Nat} {s s' : Node D A Above}

/-- Counting does not change how a request is served. -/
theorem processRequest_eq_serve (stats : RequestStats) :
    processRequest cfg ports anIndex type address s =
      (serveRequest cfg ports anIndex type address s stats).map fun r => (r.1.reply, r.2.1) := by
  unfold processRequest serveRequest
  simp only [Option.bind_eq_bind, Option.map_bind, Function.comp_def]
  refine congrArg (Option.bind _) (funext fun action => ?_)
  refine congrArg (Option.bind _) (funext fun found => ?_)
  refine congrArg (Option.bind _) (funext fun s₁ => ?_)
  refine congrArg (Option.bind _) (funext fun dir => ?_)
  refine congrArg (Option.bind _) (funext fun s₂ => ?_)
  split <;> rfl

/-! ## What the snoops leave alone -/

/-- The array and the messages to memory are as they were. -/
structure Untouched (s s' : Node D A Above) : Prop where
  cache : s'.theCache = s.theCache
  requests : s'.requests = s.requests

theorem Untouched.refl (s : Node D A Above) : Untouched s s := ⟨rfl, rfl⟩

theorem Untouched.trans {s₁ : Node D A Above} (h : Untouched s s₁) (h' : Untouched s₁ s') :
    Untouched s s' :=
  ⟨h'.cache.trans h.cache, h'.requests.trans h.requests⟩

theorem sendSnoop_untouched {port : SnoopPort} {answer : MemoryMessageType}
    (hok : sendSnoop ports port type address s = some (answer, s')) : Untouched s s' := by
  unfold sendSnoop at hok
  obtain ⟨sent, -, hok⟩ := Option.bind_eq_some_iff.mp hok
  cases hok
  exact ⟨rfl, rfl⟩

theorem foldlM_untouched {β : Type} {f : Node D A Above → β → Option (Node D A Above)}
    (hf : ∀ s b s', f s b = some s' → Untouched s s') {l : List β} (hok : l.foldlM f s = some s') :
    Untouched s s' := by
  induction l generalizing s with
  | nil =>
    cases hok
    exact .refl _
  | cons b l ih =>
    rw [List.foldlM_cons] at hok
    obtain ⟨s₁, hone, hrest⟩ := Option.bind_eq_some_iff.mp hok
    exact (hf _ _ _ hone).trans (ih hrest)

theorem runActions_untouched {extra : List (D.Directory → Nat × SharingVector n)}
    (hok : runActions cfg ports extra s = some s') : Untouched s s' := by
  refine foldlM_untouched (fun s _ s' hone => ?_) hok
  refine foldlM_untouched (fun s _ s' hone => ?_) hone
  obtain ⟨sent, hsent, hmap⟩ := Option.map_eq_some_iff.mp hone
  rw [← hmap]
  exact sendSnoop_untouched ports hsent

theorem sendSnoops_untouched {action : PrimaryAction} {multicast : Bool} {entry : D.Entry}
    {js : List (Fin n)} {result after : SnoopResult}
    (hok : sendSnoops cfg ports action i address addr multicast entry js result s = some (after, s')) :
    Untouched s s' := by
  induction js generalizing result s with
  | nil =>
    cases hok
    exact .refl _
  | cons j js ih =>
    unfold sendSnoops at hok
    split at hok
    · exact ih hok
    · obtain ⟨⟨answer, s₁⟩, hsend, hok⟩ := Option.bind_eq_some_iff.mp hok
      obtain ⟨response, -, hok⟩ := Option.bind_eq_some_iff.mp hok
      obtain ⟨dir, -, hok⟩ := Option.bind_eq_some_iff.mp hok
      have hfirst := sendSnoop_untouched ports hsend
      dsimp only at hok
      split at hok
      · cases hok
        exact ⟨hfirst.cache, hfirst.requests⟩
      · have hrest := ih hok
        exact ⟨hrest.cache.trans hfirst.cache, hrest.requests.trans hfirst.requests⟩

theorem snoopSharers_untouched {action : PrimaryAction} {sharers : SharingVector n} {entry : D.Entry}
    {result : SnoopResult} {success : Bool}
    (hok : snoopSharers cfg ports action i address addr sharers entry s = some (result, success, s')) :
    Untouched s s' := by
  unfold snoopSharers at hok
  dsimp only at hok
  split at hok
  · cases hok
    exact .refl _
  · obtain ⟨⟨after, s₁⟩, hsend, hok⟩ := Option.bind_eq_some_iff.mp hok
    cases hok
    exact sendSnoops_untouched cfg ports hsend

theorem updateCache_requests {action : PrimaryAction} {nstate : CoherenceState_t}
    {lookup : A.LookupResult} (hok : updateCache action nstate lookup s = some s') :
    ∃ later, s'.requests = s.requests ++ later := by
  unfold updateCache at hok
  dsimp only at hok
  split at hok
  · cases hok
    exact ⟨_, rfl⟩
  · split_ifs at hok
    · cases hok
      exact ⟨[], (List.append_nil _).symm⟩
    · cases hok
      exact ⟨[], (List.append_nil _).symm⟩
    · cases hok
      exact ⟨[], (List.append_nil _).symm⟩

/-- A request that is served has a row of the protocol and is snooped for as the row says.
    Memory is asked if no snoop was answered with success and the row forwards the request. -/
theorem serveRequest_some {r : Service} {stats stats' : RequestStats}
    (hok : serveRequest cfg ports i type address s stats = some (r, s', stats')) :
    ∃ (action : PrimaryAction) (result : SnoopResult) (looked s₁ : Node D A Above),
      SingleCMPProtocol.getAction type (A.stateOf s.theCache (blockOf size address))
        (D.lookup i (blockOf size address) type s.theDirectory).2.2.1 = some action ∧
      looked.above = s.above ∧
      snoopSharers cfg ports action i address (blockOf size address)
        (D.lookup i (blockOf size address) type s.theDirectory).2.1
        (D.lookup i (blockOf size address) type s.theDirectory).2.2.2.1 looked =
          some (result, r.snoop_success, s₁) ∧
      r.accessed_memory = (!r.snoop_success && action.forward_request) ∧
      stats' = stats.count type r.accessed_memory ∧
      (r.accessed_memory = true →
        ∃ later, s'.requests = s.requests ++ (type, address) :: later) := by
  unfold serveRequest at hok
  dsimp only at hok
  obtain ⟨action, haction, hok⟩ := Option.bind_eq_some_iff.mp hok
  obtain ⟨⟨result, success, s₁⟩, hsnoop, hok⟩ := Option.bind_eq_some_iff.mp hok
  obtain ⟨s₂, hextra, hok⟩ := Option.bind_eq_some_iff.mp hok
  obtain ⟨dir, -, hok⟩ := Option.bind_eq_some_iff.mp hok
  obtain ⟨s₃, hupdate, hok⟩ := Option.bind_eq_some_iff.mp hok
  split at hok
  · cases hok
    refine ⟨action, result, _, s₁, ?_, ?_, hsnoop, rfl, rfl, fun hmemory => ?_⟩
    · rw [← haction, lookup_state, blockOf_blockOf]
    · rfl
    · dsimp only at hmemory hextra
      rw [if_pos hmemory] at hextra
      obtain ⟨later, hlater⟩ := updateCache_requests hupdate
      refine ⟨later, ?_⟩
      rw [hlater]
      have hactions := (runActions_untouched cfg ports hextra).requests
      have hsnoops := (snoopSharers_untouched cfg ports hsnoop).requests
      simp only [hactions, hsnoops, List.append_assoc, List.singleton_append]
  · cases hok

end Requests

/-! ## The answers to the snoops -/

section Snooping

variable {n size : Nat} {A₁ A₂ : AbstractCache size} {D : AbstractDirectory n} (cfg : Config)
  (pcfg : PrivateConfig) {type : MemoryMessageType} {address : Nat} {i j : Fin n}
  {s s' : System A₁ A₂ D}

/-- The answers with which a snoop of a type ends. -/
def terminals (type : MemoryMessageType) : MemoryMessageType × MemoryMessageType :=
  if type = .ReturnReq then (.ReturnReply, .ReturnReplyDirty) else (.InvalidateAck, .InvUpdateAck)

/-- An answer of a private cache to a snoop, or that of several together. -/
def Answers (type answer : MemoryMessageType) : Prop :=
  answer = NoRequest ∨ answer = (terminals type).1 ∨ answer = (terminals type).2 ∨
    answer = (snooped type kInvalid).1

instance {answer : MemoryMessageType} : Decidable (Answers type answer) := by
  unfold Answers
  infer_instance

/-- Two answers together end the snoops when one of them does. -/
theorem combine_ends {a b c : MemoryMessageType} (htype : IsSnoop type) (ha : Answers type a)
    (hb : Answers type b) (hc : combineSnoopResponse a b = some c) :
    Answers type c ∧ ((c = (terminals type).1 ∨ c = (terminals type).2) ↔
      (a = (terminals type).1 ∨ a = (terminals type).2) ∨
        b = (terminals type).1 ∨ b = (terminals type).2) := by
  rcases htype with rfl | rfl <;> rcases ha with rfl | rfl | rfl | rfl <;>
    rcases hb with rfl | rfl | rfl | rfl <;> cases hc <;> decide

/-- A private cache ends the snoops when it has the block. -/
theorem snoopIn_ends {c c' : A₁.Cache} {answer : MemoryMessageType} (htype : IsSnoop type)
    (hok : snoopIn pcfg type address c = some (answer, c')) :
    Answers type answer ∧ ((answer = (terminals type).1 ∨ answer = (terminals type).2) ↔
      A₁.stateOf c (blockOf size address) ≠ kInvalid) := by
  by_cases hmesi : IsMESI (A₁.stateOf c (blockOf size address))
  · obtain ⟨c₁, hspec, -⟩ := snoopIn_spec pcfg htype hmesi
    rw [hspec] at hok
    cases hok
    revert hmesi
    rcases htype with rfl | rfl <;> cases A₁.stateOf c (blockOf size address) <;>
      simp [IsMESI, snooped, Answers, terminals]
  · unfold snoopIn at hok
    dsimp only at hok
    rw [lookup_state, blockOf_blockOf] at hok
    unfold IsMESI at hmesi
    have hstate : A₁.stateOf c (blockOf size address) = kOwned ∨
        A₁.stateOf c (blockOf size address) = kMigratory := by
      by_contra hneither
      push Not at hneither
      exact hmesi hneither
    rcases hstate with hstate | hstate <;> rw [hstate] at hok <;>
      rcases htype with rfl | rfl <;> cases hok

/-- A snoop of a cache tells whether the cache has the block, and leaves the others alone. -/
theorem sendSnoop_ends {answer : MemoryMessageType} (htype : IsSnoop type)
    (hok : sendSnoop (snoopPorts cfg pcfg) (snoopPort cfg j) type address s = some (answer, s')) :
    (∀ k, k ≠ j → s'.above k = s.above k) ∧ Answers type answer ∧
      ((answer = (terminals type).1 ∨ answer = (terminals type).2) ↔
        A₁.stateOf (s.above j) (blockOf size address) ≠ kInvalid) := by
  unfold sendSnoop snoopPorts at hok
  rw [cacheAt_snoopPort] at hok
  obtain ⟨⟨sent, above⟩, hsent, hok⟩ := Option.bind_eq_some_iff.mp hok
  obtain ⟨⟨answer', c⟩, hsnoop, hput⟩ := Option.bind_eq_some_iff.mp hsent
  cases hput
  cases hok
  exact ⟨fun k hk => Function.update_of_ne hk _ _, snoopIn_ends pcfg htype hsnoop⟩

/-- The snoops end with success when one of the caches that may be asked has the block. -/
theorem sendSnoops_ends {action : PrimaryAction} {multicast : Bool} {entry : D.Entry}
    {js : List (Fin n)} {result after : SnoopResult} (htype : IsSnoop action.snoop_type)
    (hterminal : action.terminal_response = terminals action.snoop_type) (hnodup : js.Nodup)
    (hresult : Answers action.snoop_type result.response)
    (hok : sendSnoops cfg (snoopPorts cfg pcfg) action i address (blockOf size address) multicast
      entry js result s = some (after, s')) :
    action.isTerminal after.response = true ↔ action.isTerminal result.response = true ∨
      ∃ j ∈ js, j ≠ i ∧ A₁.stateOf (s.above j) (blockOf size address) ≠ kInvalid := by
  have hends : ∀ answer, action.isTerminal answer = true ↔
      answer = (terminals action.snoop_type).1 ∨ answer = (terminals action.snoop_type).2 := by
    intro answer
    simp [PrimaryAction.isTerminal, hterminal]
  induction js generalizing result s with
  | nil =>
    cases hok
    simp
  | cons j js ih =>
    obtain ⟨hj, hnodup⟩ := List.nodup_cons.mp hnodup
    unfold sendSnoops at hok
    split at hok
    · next hji =>
      refine (ih hnodup hresult hok).trans ?_
      simp [hji]
    · next hji =>
      obtain ⟨⟨answer, s₁⟩, hsend, hok⟩ := Option.bind_eq_some_iff.mp hok
      obtain ⟨response, hcombine, hok⟩ := Option.bind_eq_some_iff.mp hok
      obtain ⟨dir, -, hok⟩ := Option.bind_eq_some_iff.mp hok
      obtain ⟨hothers, hanswer, hholds⟩ := sendSnoop_ends cfg pcfg htype hsend
      obtain ⟨hresponse, hboth⟩ := combine_ends htype hresult hanswer hcombine
      rw [hholds, ← hends, ← hends] at hboth
      have hlater :
          (∃ k ∈ js, k ≠ i ∧ A₁.stateOf (s₁.above k) (blockOf size address) ≠ kInvalid) ↔
          ∃ k ∈ js, k ≠ i ∧ A₁.stateOf (s.above k) (blockOf size address) ≠ kInvalid := by
        refine exists_congr fun k => and_congr_right fun hk => ?_
        rw [hothers k fun heq => hj (heq ▸ hk)]
      dsimp only at hok
      split at hok
      · next hstop =>
        cases hok
        rw [Bool.and_eq_true] at hstop
        have hfound := hboth.mp hstop.2
        simp only [hstop.2, List.mem_cons, exists_eq_or_imp, true_iff]
        exact hfound.imp id fun hheld => .inl ⟨hji, hheld⟩
      · refine (ih hnodup hresponse hok).trans ?_
        dsimp only
        rw [hboth, hlater]
        simp only [List.mem_cons, exists_eq_or_imp, hji, ne_eq, not_false_eq_true, true_and, or_assoc]

/-! ## The source of a reply -/

/-- The requests for a block. -/
def IsDataRequest (type : MemoryMessageType) : Prop :=
  type = .ReadReq ∨ type = .FetchReq ∨ type = .WriteReq

/-- The caches that the directory takes for sharers of a block. -/
def believed (i : Fin n) (type : MemoryMessageType) (address : Nat) (s : System A₁ A₂ D) :
    SharingVector n :=
  (D.lookup i (blockOf size address) type s.theDirectory).2.1

/-- The array has the block, or the directory knows of no sharer, or one of the other
    sharers that it knows of has the block. -/
def Supplied (i : Fin n) (type : MemoryMessageType) (address : Nat) (s : System A₁ A₂ D) : Prop :=
  A₂.stateOf s.theCache (blockOf size address) ≠ kInvalid ∨
    (D.lookup i (blockOf size address) type s.theDirectory).2.2.1 = .ZeroSharers ∨
    ∃ j, (believed i type address s).isSharer j = true ∧ j ≠ i ∧
      A₁.stateOf (s.above j) (blockOf size address) ≠ kInvalid

/-- The data of a reply comes from a valid block in the array, from a snooped sharer that has
    the block, or from memory, and then the request is counted as one off the chip. -/
def HasSource (i : Fin n) (type : MemoryMessageType) (address : Nat) (s s' : System A₁ A₂ D)
    (r : Service) (stats stats' : RequestStats) : Prop :=
  A₂.stateOf s.theCache (blockOf size address) ≠ kInvalid ∨
    (r.snoop_success = true ∧ ∃ j, (believed i type address s).isSharer j = true ∧ j ≠ i ∧
      A₁.stateOf (s.above j) (blockOf size address) ≠ kInvalid) ∨
    (r.accessed_memory = true ∧ stats' = stats.countOffChip type ∧
      ∃ later, s'.requests = s.requests ++ (type, address) :: later)

/-- A request for a block that is not in the array goes to memory without a snoop if no
    cache shares the block, and never goes there if some cache does. -/
theorem invalid_row {action : PrimaryAction} {d : SharingState} (htype : IsDataRequest type)
    (haction : SingleCMPProtocol.getAction type kInvalid d = some action) :
    (d = .ZeroSharers ∧ action.snoop_type = NoRequest ∧ action.forward_request = true) ∨
      (d ≠ .ZeroSharers ∧ IsSnoop action.snoop_type ∧
        action.terminal_response = terminals action.snoop_type ∧ action.forward_request = false) := by
  rcases htype with rfl | rfl | rfl <;> cases d <;> cases haction <;>
    simp [IsSnoop, terminals]

/-- The snoops of a request succeed when one of the other sharers has the block. -/
theorem snoopSharers_success {action : PrimaryAction} {sharers : SharingVector n} {entry : D.Entry}
    {result : SnoopResult} {success : Bool} (htype : IsSnoop action.snoop_type)
    (hterminal : action.terminal_response = terminals action.snoop_type)
    (hok : snoopSharers cfg (snoopPorts cfg pcfg) action i address (blockOf size address) sharers
      entry s = some (result, success, s')) :
    success = true ↔ ∃ j, sharers.isSharer j = true ∧ j ≠ i ∧
      A₁.stateOf (s.above j) (blockOf size address) ≠ kInvalid := by
  have hsnoop : action.snoop_type ≠ NoRequest := by
    rcases htype with htype | htype <;> rw [htype] <;> decide
  unfold snoopSharers at hok
  dsimp only at hok
  rw [if_neg hsnoop] at hok
  obtain ⟨⟨after, s₁⟩, hsend, hok⟩ := Option.bind_eq_some_iff.mp hok
  cases hok
  have hstart : action.isTerminal NoRequest = false := by
    rcases htype with htype | htype <;> simp [PrimaryAction.isTerminal, hterminal, terminals, htype]
  rw [sendSnoops_ends cfg pcfg htype hterminal SharingVector.nodup_toList (.inl rfl) hsend]
  simp only [hstart, Bool.false_eq_true, false_or, SharingVector.mem_toList]

/-- What a request for a block gets is settled by the state that it finds. -/
theorem hasSource_iff {r : Service} {stats stats' : RequestStats} (htype : IsDataRequest type)
    (hok : serveRequest cfg (snoopPorts cfg pcfg) i type address s stats = some (r, s', stats')) :
    HasSource i type address s s' r stats stats' ↔ Supplied i type address s := by
  obtain ⟨action, result, s₀, s₁, haction, habove, hsnoop, hmemory, hstats, hrequests⟩ :=
    serveRequest_some cfg (snoopPorts cfg pcfg) hok
  unfold HasSource Supplied
  by_cases hstate : A₂.stateOf s.theCache (blockOf size address) = kInvalid
  · refine or_congr_right ?_
    rw [hstate] at haction
    obtain ⟨hzero, hnone, hforward⟩ | ⟨hsome, hkind, hterminal, hforward⟩ :=
      invalid_row htype haction
    · have hquiet : r.snoop_success = false := by
        unfold snoopSharers at hsnoop
        dsimp only at hsnoop
        rw [if_pos hnone] at hsnoop
        simp only [Option.some.injEq, Prod.mk.injEq] at hsnoop
        exact hsnoop.2.1.symm
      have hasked : r.accessed_memory = true := by rw [hmemory, hquiet, hforward]; rfl
      rw [hasked] at hstats
      exact iff_of_true (.inr ⟨hasked, hstats, hrequests hasked⟩) (.inl hzero)
    · have hunasked : r.accessed_memory = false := by rw [hmemory, hforward, Bool.and_false]
      have hsuccess := snoopSharers_success cfg pcfg hkind hterminal hsnoop
      rw [habove] at hsuccess
      constructor
      · rintro (⟨-, hheld⟩ | ⟨hasked, -⟩)
        · exact .inr hheld
        · rw [hunasked] at hasked
          cases hasked
      · rintro (hzero | hheld)
        · exact absurd hzero hsome
        · exact .inl ⟨hsuccess.mpr hheld, hheld⟩
  · exact iff_of_true (.inl hstate) (.inl hstate)

end Snooping

section Systems

variable {n size : Nat} {A₁ A₂ : AbstractCache size} (cfg : Config) (pcfg : PrivateConfig)
  {type : MemoryMessageType} {address : Nat} {i : Fin n}

/-- With clean evictions the directory is never wrong, so there is always a source for a cache
    that does not have the block. -/
theorem SystemCoherent.supplied {s : System A₁ A₂ (InfiniteDirectory n)} (h : SystemCoherent s)
    (hmiss : stateAt s i (blockOf size address) = kInvalid) : Supplied i type address s := by
  have hcoherent := h (blockOf size address)
  by_cases hzero : (InfiniteDirectory.findOrCreateEntry (blockOf size address) s.theDirectory).theState =
      .ZeroSharers
  · exact .inr (.inl hzero)
  · rw [hcoherent.consistent, SharingVector.state_eq_zero] at hzero
    push Not at hzero
    obtain ⟨j, hj⟩ := hzero
    rw [ne_eq, Bool.not_eq_false] at hj
    have hheld := hcoherent.isSharer_iff.mp hj
    refine .inr (.inr ⟨j, hj, fun heq => ?_, hheld⟩)
    rw [heq] at hheld
    exact hheld hmiss

/-- The data of a reply has a source exactly when the block is in the array, the directory
    knows of no sharer, or another sharer that it knows of still has the block. When the
    private caches tell of the clean blocks they evict, every run keeps to that. -/
theorem data_source_iff (A₁ A₂ : AbstractCache size) (i : Fin n) (address : Nat)
    (htype : IsDataRequest type) :
    (∀ (D : AbstractDirectory n) (s s' : System A₁ A₂ D) r stats stats',
      serveRequest cfg (snoopPorts cfg pcfg) i type address s stats = some (r, s', stats') →
        (HasSource i type address s s' r stats stats' ↔ Supplied i type address s)) ∧
    (pcfg.CleanEvictions = true → ∀ requests (s : System A₁ A₂ (InfiniteDirectory n)),
      run cfg pcfg requests (System.start A₁ A₂) = some s →
        stateAt s i (blockOf size address) = kInvalid →
        Supplied i type address (s.putCache i (A₁.lookup (s.above i) (blockOf size address)).1)) := by
  refine ⟨fun D s s' r stats stats' hok => hasSource_iff cfg pcfg htype hok, ?_⟩
  intro hclean requests s hrun hmiss
  obtain ⟨s₁, hrun₁, hcoherent⟩ := run_coherent cfg pcfg hclean requests
    (start_coherent : SystemCoherent (System.start A₁ A₂ : System A₁ A₂ (InfiniteDirectory n)))
  rw [hrun] at hrun₁
  cases hrun₁
  have hsame : ∀ j b, stateAt (s.putCache i (A₁.lookup (s.above i) (blockOf size address)).1) j b =
      stateAt s j b := by
    intro j b
    by_cases hj : j = i
    · rw [hj]
      simp only [stateAt, System.putCache, Function.update_self, A₁.stateOf_lookup]
    · simp only [stateAt, System.putCache, Function.update_of_ne hj]
  refine SystemCoherent.supplied (fun b => ?_) ((hsame i _).trans hmiss)
  have hb := hcoherent b
  simp only [← hsame] at hb
  exact hb

end Systems

/-- One index for each core. -/
def perCore : Config := { SeparateID := false, AlwaysMulticast := false }

/-- Private caches that tell of the clean blocks they evict, or do not. -/
def evictions (clean : Bool) : PrivateConfig :=
  { CleanEvictions := clean, UsingTraces := false, SnoopLRU := false }

/-- What two private caches make of some loads of theirs. -/
def loads (clean : Bool) (A : AbstractCache size) (addresses : List (Fin 2 × Nat)) :
    Option (System A A (InfiniteDirectory 2)) :=
  run perCore (evictions clean) (addresses.map fun p => (p.1, .LoadReq, p.2)) (System.start A A)

/-- The state in which the request of the first cache for a block reaches the shared cache. -/
def asks {A : AbstractCache size} (address : Nat) (s : System A A (InfiniteDirectory 2)) :
    System A A (InfiniteDirectory 2) :=
  s.putCache 0 (A.lookup (s.above 0) (blockOf size address)).1

/-- Two caches share a block, and the first one displaces it and reads it again. -/
theorem data_source_iff_shared : ∃ s,
    loads true smallArray [(0, 0), (1, 0), (0, 512), (0, 1024)] = some s ∧
    Supplied 0 .ReadReq 0 (asks 0 s) ∧
    ∃ r s' stats', serveRequest perCore (snoopPorts perCore (evictions true)) 0 .ReadReq 0
        (asks 0 s) .zero = some (r, s', stats') ∧
      HasSource 0 .ReadReq 0 (asks 0 s) s' r .zero stats' := by
  have hrun : ((loads true smallArray [(0, 0), (1, 0), (0, 512), (0, 1024)]).any fun s =>
      stateAt s 0 0 == kInvalid && (serveRequest perCore (snoopPorts perCore (evictions true))
        0 .ReadReq 0 (asks 0 s) .zero).isSome) = true := by
    decide +kernel
  obtain ⟨s, hs, hend⟩ := (Option.any_eq_true _ _).mp hrun
  rw [Bool.and_eq_true, beq_iff_eq] at hend
  obtain ⟨⟨r, s', stats'⟩, hserve⟩ := Option.isSome_iff_exists.mp hend.2
  have hexact := data_source_iff perCore (evictions true) smallArray smallArray (0 : Fin 2) 0 (.inl rfl)
  have hsupplied := hexact.2 rfl _ s hs hend.1
  exact ⟨s, hs, hsupplied, r, s', stats', hserve, (hexact.1 _ _ _ _ _ _ hserve).mpr hsupplied⟩

/-- One block of 64 bytes. -/
def oneBlock : AbstractCache 64 :=
  StdCache.array { theNumSets := 1, theAssoc := 1, theBlockSize := 64, assoc_pos := Nat.one_pos }

/-- A cache reads a block, drops it without a word for another one, which displaces it in the
    array as well, and reads it again. The directory takes the cache itself for the only
    sharer, so nobody is snooped and memory is not asked. -/
theorem reply_without_source : ∃ s s' r stats', loads false oneBlock [(0, 0), (0, 64)] = some s ∧
    serveRequest perCore (snoopPorts perCore (evictions false)) 0 .ReadReq 0 (asks 0 s) .zero =
      some (r, s', stats') ∧
    r.reply = .MissReply ∧ ¬HasSource 0 .ReadReq 0 (asks 0 s) s' r .zero stats' := by
  have hrun : ((loads false oneBlock [(0, 0), (0, 64)]).any fun s =>
      oneBlock.stateOf (asks 0 s).theCache 0 == kInvalid &&
        (serveRequest perCore (snoopPorts perCore (evictions false)) 0 .ReadReq 0 (asks 0 s) .zero).any
          fun r => r.1 == ⟨.MissReply, false, false⟩) = true := by
    decide +kernel
  obtain ⟨s, hs, hend⟩ := (Option.any_eq_true _ _).mp hrun
  rw [Bool.and_eq_true, beq_iff_eq] at hend
  obtain ⟨⟨r, s', stats'⟩, hserve, hr⟩ := (Option.any_eq_true _ _).mp hend.2
  rw [beq_iff_eq] at hr
  have hr : r = ⟨.MissReply, false, false⟩ := hr
  refine ⟨s, s', r, stats', hs, hserve, by rw [hr], ?_⟩
  rintro (hstate | ⟨hsuccess, -⟩ | ⟨hmemory, -⟩)
  · exact hstate hend.1
  · rw [hr] at hsuccess
    cases hsuccess
  · rw [hr] at hmemory
    cases hmemory

end nFastCMPCache
