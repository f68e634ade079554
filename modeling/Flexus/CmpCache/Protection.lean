import Flexus.CmpCache.DataAcks

/-!
# Directory entries of active requests

A request that is active holds its directory entry: the entry is protected, so that no other
block takes its way, until the request is complete.
-/

namespace nCMPCache

open Runs

namespace StdDirectory

variable {cfg : CMPCacheInfo} {d d' : StdDirectory} {a x : MemoryAddress} {block : DirBlock}

/-- A directory that was loaded: no block has two ways, apart from unused ways with the tag
    of block zero, and nothing is protected. -/
structure Loaded (cfg : CMPCacheInfo) (d : StdDirectory) : Prop where
  placed : d.WellPlaced cfg
  free : ∀ i w, (d.theSets i w).isProtected = false

theorem loaded_create (cfg : CMPCacheInfo) : Loaded cfg (create cfg) := ⟨wellPlaced_create cfg, fun _ _ => rfl⟩

/-- A protected entry stays where it is when another block is given a way. -/
theorem lookup_allocate_of_protected {dir : SimpleDirectoryState}
    {victim : Option (MemoryAddress × SimpleDirectoryState)} (hfresh : d.lookup cfg a = none)
    (haligned : cfg.blockAddress a = a) (hallocate : d.allocate cfg a dir = some (d', victim))
    (hblock : d.lookup cfg x = some block) (hprotected : block.isProtected = true) :
    d'.lookup cfg x = some block := by
  obtain ⟨w, hw, hd', _⟩ := allocate_spec hfresh haligned hallocate
  obtain ⟨v, hv, hvblock⟩ := lookup_eq_some hblock
  have hunprotected := (pickVictim_spec hw).2.1
  have hsets : ∀ j u, d'.theSets j u = if j = makeSet cfg a ∧ u = w then
      { d.theSets (makeSet cfg a) w with tag := a, state := dir } else d.theSets j u := by
    intro j u
    rw [hd']
    rfl
  have hne : cfg.blockAddress x ≠ a := by
    intro hxa
    rw [← lookup_blockAddress, hxa, hfresh] at hblock
    cases hblock
  have hkept : ¬ (makeSet cfg x = makeSet cfg a ∧ v = w) := by
    rintro ⟨hset, rfl⟩
    rw [hset] at hvblock
    rw [hvblock, hprotected] at hunprotected
    cases hunprotected
  have hway : d'.way cfg x = some v := by
    refine List.find?_range_eq_some.mpr ⟨?_, (List.find?_range_eq_some.mp hv).2.1, fun u hu => ?_⟩
    · rw [hsets, if_neg hkept]
      simpa using (way_spec hv).2
    · have hearlier := tag_ne_of_lt_way hv hu
      rw [hsets]
      split
      · simpa using hne.symm
      · simpa using hearlier
  rw [lookup, hway, Option.map_some, hsets, if_neg hkept, hvblock]

end StdDirectory

namespace Policy

variable {cfg : CMPCacheInfo} {s s' : Policy cfg} {p q : ProcessEntry} {x : MemoryAddress} {w : Causes}
  {f : Fault}

/-- The block has a directory entry that no other block can take. -/
def holdsEntry (s : Policy cfg) (x : MemoryAddress) : Prop :=
  ∃ block, s.theDirectory.lookup cfg x = some block ∧ block.isProtected = true

/-- An entry is held until the block is freed. -/
theorem Effect.holdsEntry (h : Effect w s s') (hheld : s.holdsEntry x)
    (hfrees : ∀ y, w.frees y → cfg.blockAddress x ≠ cfg.blockAddress y) : s'.holdsEntry x := by
  obtain ⟨block, hblock, hprotected⟩ := hheld
  have hprotect : ∀ {y val}, s'.theDirectory = s.theDirectory.setProtected cfg y val →
      (val = false → cfg.blockAddress x ≠ cfg.blockAddress y) → s'.holdsEntry x := by
    intro y val hdir hval
    unfold Policy.holdsEntry
    rw [hdir, StdDirectory.lookup_setProtected]
    split
    · next hxy =>
      rw [← StdDirectory.lookup_blockAddress, hxy, StdDirectory.lookup_blockAddress] at hblock
      refine ⟨{ block with isProtected := val }, by rw [hblock]; rfl, ?_⟩
      cases val with
      | true => rfl
      | false => exact absurd hxy (hval rfl)
    · exact ⟨block, hblock, hprotected⟩
  cases h with
  | copies hdir _ _ => exact ⟨block, hdir ▸ hblock, hprotected⟩
  | directory _ _ hmove =>
    cases hmove with
    | entry hentry _ =>
      obtain ⟨block', hblock', hsame⟩ := hentry.isProtected hblock
      exact ⟨block', hblock', hsame.trans hprotected⟩
    | protect hdir _ => exact hprotect hdir (by simp)
    | unprotect hfreed hdir _ => exact hprotect hdir fun _ => hfrees _ hfreed
    | claimed haligned hclaimed _ =>
      cases hclaimed with
      | kept hsame _ => exact ⟨block, hsame ▸ hblock, hprotected⟩
      | allocated hnone hallocate _ =>
        exact ⟨block, StdDirectory.lookup_allocate_of_protected hnone haligned hallocate hblock hprotected,
          hprotected⟩
    | buffer hdir _ _ _ => exact ⟨block, hdir ▸ hblock, hprotected⟩

theorem Effects.holdsEntry (h : Effects w s s') (hheld : s.holdsEntry x)
    (hfrees : ∀ y, w.frees y → cfg.blockAddress x ≠ cfg.blockAddress y) : s'.holdsEntry x := by
  induction h with
  | refl => exact hheld
  | tail _ hlast ih => exact hlast.holdsEntry ih hfrees

/-- The acknowledgements that look up the directory entry of their block. -/
def needsEntry : MemoryMessageType → Bool
  | .ReadAck | .ReadAckDirty | .FetchAck | .FetchAckDirty | .WriteAck | .UpgradeAck | .FwdNAck => true
  | _ => false

theorem makeRoom_ne_dirEntryNotFound {a : MemoryAddress} (h : s.makeRoom a = .error f) :
    f ≠ .dirEntryNotFound := by
  unfold makeRoom at h
  split at h
  · split at h
    · cases h
      simp
    · rcases bind_eq_error.mp h with hallocate | ⟨_, _, hpure⟩
      · simp [allocate_error hallocate]
      · cases hpure
  · cases h

theorem handleReadAck_found {block : DirBlock}
    (hblock : s.theDirectory.lookup cfg p.transport.msg.address = some block)
    (h : s.handleReadAck p = .error f) : f ≠ .dirEntryNotFound := by
  rcases bind_eq_error.mp h with hmatch | ⟨maf, _, h⟩
  · simp [matchingMAF_error hmatch]
  · obtain ⟨_, hs, _⟩ := returnReservation_spec s p maf
    dsimp only at h
    rw [hs, hblock] at h
    rcases bind_eq_error.mp h with hjoin | ⟨sharers, _, h⟩
    · simp [joinSharer_error hjoin]
    · split at h
      · rcases bind_eq_error.mp h with hkeep | ⟨_, _, hpure⟩
        · rcases bind_eq_error.mp hkeep with hroom | ⟨_, _, hpure⟩
          · exact makeRoom_ne_dirEntryNotFound hroom
          · cases hpure
        · cases hpure
      · cases h

theorem handleOwnershipAck_found {type : MemoryMessageType} {block : DirBlock}
    (hblock : s.theDirectory.lookup cfg p.transport.msg.address = some block)
    (h : handleOwnershipAck type s p = .error f) : f ≠ .dirEntryNotFound := by
  rcases bind_eq_error.mp h with hfirst | ⟨maf, _, h⟩
  · unfold firstMAF at hfirst
    split at hfirst
    · split at hfirst
      · cases hfirst
      · cases hfirst
        simp
    · cases hfirst
      simp
  · dsimp only at h
    rw [hblock] at h
    rcases bind_eq_error.mp h with hset | ⟨sharers, _, hpure⟩
    · simp [set_error hset]
    · cases hpure

theorem handleFwdNAck_found {block : DirBlock}
    (hblock : s.theDirectory.lookup cfg p.transport.msg.address = some block)
    (h : s.handleFwdNAck p = .error f) : f ≠ .dirEntryNotFound := by
  unfold handleFwdNAck at h
  rw [hblock] at h
  rcases bind_eq_error.mp h with hmatch | ⟨maf, _, h⟩
  · simp [matchingMAF_error hmatch]
  · rcases bind_eq_error.mp h with hrecover | ⟨s₁, _, h⟩
    · unfold recoverCopy at hrecover
      split at hrecover
      · split at hrecover
        · split at hrecover
          · cases hrecover
          · rcases bind_eq_error.mp hrecover with hallocate | ⟨_, _, hpure⟩
            · simp [allocate_error hallocate]
            · cases hpure
        · cases hrecover
      · cases hrecover
    · unfold retryForward at h
      dsimp only at h
      split at h
      · split at h
        · cases h
          simp
        · cases h
      · split at h
        · cases h
        · cases h

/-- An acknowledgement for a block with a directory entry finds it. -/
theorem handleReply_found {block : DirBlock}
    (hblock : s.theDirectory.lookup cfg p.transport.msg.address = some block)
    (hneeds : needsEntry p.transport.msg.type = true) : s.handleReply p ≠ .error .dirEntryNotFound := by
  intro h
  unfold needsEntry at hneeds
  unfold handleReply at h
  split at hneeds
  case h_1 | h_2 | h_3 | h_4 => next htype => exact handleReadAck_found hblock (by simpa only [htype] using h) rfl
  case h_5 | h_6 =>
    next htype =>
    rw [htype] at h
    exact handleOwnershipAck_found hblock h rfl
  case h_7 => next htype => exact handleFwdNAck_found hblock (by simpa only [htype] using h) rfl
  case h_8 => cases hneeds

end Policy

namespace Controller

variable {cfg : CMPCacheInfo} {c : Controller cfg} {s s' : Policy cfg} {p q : ProcessEntry} {reserve : Int}
  {e : Event} {k k' : Core cfg} {final : Option ProcessEntry} {i : Nat} {u : Ticket}

/-- The acknowledgement of the request has been handled; its ticket goes when the process
    is finalized. -/
def acknowledged (pending : Multiset ProcessEntry) (i : Nat) : Prop :=
  ∃ q ∈ pending, q.maf = some i ∧ q.action = .eRemoveAndWakeMAF

/-- An active request holds its directory entry, but for non-allocating stores and for
    writes whose acknowledgement has been handled. A process that completes a request has
    the address of a block. -/
structure EntriesHeld (k : Core cfg) : Prop where
  active : ∀ {i u}, k.policy.theMAF.ticket i = some u → u.state = .eWaitAck →
    u.type ≠ .NonAllocatingStoreReq →
    k.policy.holdsEntry u.address ∨ (u.type.isWriteType = true ∧ acknowledged k.pending i)
  completing : ∀ {q}, q ∈ k.pending → q.action = .eRemoveAndWakeMAF ∨ q.action = .eReplyAndRemoveMAF →
    cfg.blockAddress q.transport.msg.address = q.transport.msg.address

/-- A request does not complete another one. -/
theorem doRequest_action {hasMaf : Bool} (hreserved : 0 < p.cacheEBReserved)
    (hok : Policy.doRequest reserve s p hasMaf = .ok (s', q)) :
    q.action ≠ .eRemoveAndWakeMAF ∧ q.action ≠ .eReplyAndRemoveMAF := by
  have hstalled : ∀ {s₁ : Policy cfg} {a st}, s₁.stall p hasMaf a st = .ok (s', q) →
      q.action ≠ .eRemoveAndWakeMAF ∧ q.action ≠ .eReplyAndRemoveMAF := by
    intro s₁ a st hstall
    rw [(Policy.stall_spec hstall).2.1]
    simp
  cases hevict : p.transport.msg.type.isEvictType with
  | false =>
    cases Policy.doRequest_requested hevict hok with
    | redundant _ _ =>
      dsimp only
      split <;> simp
    | queued _ hstall => exact hstalled hstall
    | noEntry _ _ hstall => exact hstalled hstall
    | writtenBack _ _ _ hstall => exact hstalled hstall
    | served _ _ _ hserve =>
      obtain ⟨dir, hserved⟩ := Policy.served_serveRequest hserve
      rcases hserved.recorded with ⟨_, haction, _⟩ | ⟨_, haction | haction | haction, _⟩ <;>
        rw [haction] <;> simp
  | true =>
    rcases Policy.doRequest_evict hevict hok with ⟨_, _, hstall⟩ | ⟨_, hdo⟩
    · exact hstalled hstall
    · cases hwaits : s.evictWaits p with
      | true => exact hstalled (Policy.doEvict_waits hwaits hdo)
      | false =>
        rcases (Policy.doEvict_evicted hwaits hreserved hdo).action with
          ⟨haction | haction, _⟩ | ⟨haction | haction, _⟩ <;> rw [haction] <;> simp

/-- A process that completes a request answers a reply for its block. -/
theorem handle_completing (hfresh : Fresh p) (horderly : Orderly cfg s.theMAF.ticket)
    (hok : handle reserve s p = .ok (s', q))
    (haction : q.action = .eRemoveAndWakeMAF ∨ q.action = .eReplyAndRemoveMAF) :
    cfg.blockAddress q.transport.msg.address = q.transport.msg.address := by
  unfold handle at hok
  split at hok
  · next htype =>
    obtain ⟨⟨s₁, p₁⟩, hwake, hdrop⟩ := bind_eq_ok.mp hok
    have hreserved : 0 < (withEntryTransport s p).cacheEBReserved := by
      rw [withEntryTransport_same]
      exact (hfresh.reserved (.inl htype)).symm ▸ Int.one_pos
    have hnot := doRequest_action hreserved hwake
    rcases dropRedundant_spec hdrop with ⟨_, _, rfl⟩ | ⟨_, _, _, _, rfl⟩
    · exact absurd haction (by simp [hnot])
    · exact absurd haction (by simp)
  · next htype =>
    have hreserved : 0 < p.cacheEBReserved := (hfresh.reserved (.inr htype)).symm ▸ Int.one_pos
    have hnot := doRequest_action hreserved hok
    exact absurd haction (by simp [hnot])
  · obtain ⟨_, haddress, hanswers, _⟩ := Policy.handleReply_replied hok
    rw [haddress]
    cases hanswers with
    | removes _ _ hticket hat =>
      have hplaced := horderly.placed hticket
      rw [hat.1] at hplaced
      rw [hplaced, CMPCacheInfo.blockAddress_blockAddress]
    | wakes hother _ _ _ =>
      rw [hother] at haction
      simp at haction
    | nothing hother =>
      rcases hother with hother | hother | hother <;> rw [hother] at haction <;> simp at haction
  · rcases Policy.handleIdleWork_spec hok with ⟨_, _, ⟨hother, _⟩ | ⟨hother, _⟩⟩ | ⟨_, _, hother, _⟩ <;>
      rw [hother] at haction <;> simp at haction
  · cases hok

/-- The acknowledgement of a write leaves a process that completes it. -/
theorem handleOwnershipAck_spec {type : MemoryMessageType}
    (hok : Policy.handleOwnershipAck type s p = .ok (s', q)) :
    ∃ maf, s.firstMAF p.transport.msg.address type = .ok maf ∧ q.maf = some maf.stamp ∧
      q.action = .eRemoveAndWakeMAF := by
  obtain ⟨maf, hfirst, hok⟩ := bind_eq_ok.mp hok
  dsimp only at hok
  split at hok
  · cases hok
  · obtain ⟨sharers, _, hok⟩ := bind_eq_ok.mp hok
    obtain ⟨rfl, rfl⟩ := Prod.mk.inj (pure_eq_ok.mp hok)
    refine ⟨maf, hfirst, ?_, rfl⟩
    exact congrArg ProcessEntry.maf (Policy.returnReservation_spec _ p maf).2.2

/-- A handler frees the entry of an active request only when it has handled its
    acknowledgement. -/
theorem handle_frees (horderly : Orderly cfg s.theMAF.ticket) (hok : handle reserve s p = .ok (s', q))
    (hu : s.theMAF.ticket i = some u) (hactive : u.state = .eWaitAck) {y : MemoryAddress}
    (hfrees : (causes s p).frees y) (hsame : cfg.blockAddress u.address = cfg.blockAddress y) :
    u.type.isWriteType = true ∧ q.maf = some i ∧ q.action = .eRemoveAndWakeMAF := by
  unfold causes at hfrees
  split at hfrees
  case h_3 =>
    next htype =>
    obtain ⟨hack, rfl⟩ := hfrees
    have hboth : ∃ type maf, s.firstMAF p.transport.msg.address type = .ok maf ∧
        type.isWriteType = true ∧ q.maf = some maf.stamp ∧ q.action = .eRemoveAndWakeMAF := by
      unfold handle Policy.handleReply at hok
      rw [htype] at hok
      dsimp only at hok
      rcases hack with hack | hack
      · rw [hack] at hok
        obtain ⟨maf, hfirst, hq⟩ := handleOwnershipAck_spec hok
        exact ⟨_, maf, hfirst, rfl, hq⟩
      · rw [hack] at hok
        obtain ⟨maf, hfirst, hq⟩ := handleOwnershipAck_spec hok
        exact ⟨_, maf, hfirst, rfl, hq⟩
    obtain ⟨type, maf, hfirst, hwrite, hq⟩ := hboth
    obtain ⟨hticket, hat, hmaf⟩ := Policy.firstMAF_spec hfirst
    have hblock : u.address = p.transport.msg.address := by
      have hplaced := horderly.placed hticket
      rw [hat.1] at hplaced
      rwa [horderly.placed hu, hplaced, CMPCacheInfo.blockAddress_blockAddress,
        CMPCacheInfo.blockAddress_blockAddress, ← hplaced, ← horderly.placed hu] at hsame
    by_cases hi : i = maf.stamp
    · subst hi
      rw [hticket] at hu
      cases hu
      refine ⟨?_, hq⟩
      rw [show maf.ticket.type = maf.type from rfl, hmaf]
      exact hwrite
    · -- two active requests of one block are reads, and this one is a write
      have hreads := horderly.exclusive hu hticket hactive ⟨hat.1.trans hblock.symm, hat.2⟩ hi
      have hread : maf.type.isReadType = true := hreads.2
      rw [hmaf] at hread
      rw [Policy.isWriteType_of_isReadType hread] at hwrite
      cases hwrite
  all_goals exact hfrees.elim

/-- Completing a request takes its ticket out. -/
theorem ticket_of_finalizeMAF (haction : q.action = .eRemoveAndWakeMAF ∨ q.action = .eReplyAndRemoveMAF)
    (hmaf : q.maf = some i) (hok : finalizeMAF s q = .ok s') : s'.theMAF.ticket i = none := by
  have hremoves : ∃ x, mafOf s q = .ok x ∧
      s' = { s with theMAF := s.theMAF.remove x.stamp }.wakeMAFs q.transport.msg.address := by
    rcases haction with haction | haction <;>
    · simp only [finalizeMAF, haction] at hok
      obtain ⟨x, hof, hpure⟩ := bind_eq_ok.mp hok
      exact ⟨x, hof, (pure_eq_ok.mp hpure).symm⟩
  obtain ⟨x, hof, rfl⟩ := hremoves
  obtain ⟨hslot, _⟩ := Policy.mafOf_spec hof
  have hi : x.stamp = i := Option.some.inj (hslot.symm.trans hmaf)
  have hremoved : (s.theMAF.remove x.stamp).ticket i = none := by
    rw [MissAddressFile.ticket_remove, if_pos hi.symm]
  rcases Policy.wakeMAFs_spec { s with theMAF := s.theMAF.remove x.stamp } q.transport.msg.address with
    ⟨_, hsame⟩ | ⟨_, _, _, hwoken⟩
  · rw [hsame]
    exact hremoved
  · rw [hwoken]
    exact congrArg _ hremoved

theorem entriesHeld_handled {rest : List ProcessEntry} (hfresh : Fresh p)
    (horderly : Orderly cfg k.policy.theMAF.ticket) (hsound : k.policy.Sound) (hheld : EntriesHeld k)
    (hok : handle reserve k.policy p = .ok (s', q)) :
    EntriesHeld { k with policy := s', waiting := rest, pending := q.job ::ₘ k.pending } := by
  have heffects := handle_effects hfresh hsound horderly hok
  constructor
  · intro i u hu hactive hstore
    rcases handle_active hfresh hsound horderly hok hu hactive with hbefore | hentered
    · rcases hheld.active hbefore hactive hstore with hentry | ⟨hwrite, r, hr, hacked⟩
      · by_cases hfreed : ∃ y, (causes k.policy p).frees y ∧ cfg.blockAddress u.address = cfg.blockAddress y
        · obtain ⟨y, hfrees, hsame⟩ := hfreed
          obtain ⟨hwrite, hslot, haction⟩ := handle_frees horderly hok hbefore hactive hfrees hsame
          exact .inr ⟨hwrite, q.job, Multiset.mem_cons_self _ _, hslot, haction⟩
        · exact .inl (heffects.holdsEntry hentry fun y hfrees hsame => hfreed ⟨y, hfrees, hsame⟩)
      · exact .inr ⟨hwrite, r, Multiset.mem_cons_of_mem hr, hacked⟩
    · exact .inl (hentered.guarded hstore)
  · intro r hr haction
    rcases Multiset.mem_cons.mp hr with hjob | hr
    · subst hjob
      exact handle_completing (q := q) hfresh horderly hok haction
    · exact hheld.completing hr haction

theorem entriesHeld_finalized {rest : Multiset ProcessEntry} {snoops : List MemoryTransport}
    (horderly : Orderly cfg k.policy.theMAF.ticket) (hheld : EntriesHeld k) (hpending : k.pending = q ::ₘ rest)
    (hok : finalizeMAF k.policy q = .ok s') :
    EntriesHeld { k with policy := s', pending := rest, snoops := snoops } := by
  have hfinal := Policy.finalizeMAF_finalized hok
  have hmem : q ∈ k.pending := hpending ▸ Multiset.mem_cons_self q rest
  constructor
  · intro i u hu hactive hstore
    have hbefore := finalized_active hfinal hu hactive
    have hgone : q.action = .eRemoveAndWakeMAF ∨ q.action = .eReplyAndRemoveMAF → q.maf ≠ some i := by
      intro haction hslot
      rw [ticket_of_finalizeMAF haction hslot hok] at hu
      cases hu
    rcases hheld.active hbefore hactive hstore with hentry | ⟨hwrite, r, hr, hacked⟩
    · refine .inl (hfinal.effects.holdsEntry hentry ?_)
      rintro y ⟨rfl, j, hslot, haction, hothers⟩ hsame
      have haligned := hheld.completing hmem haction
      rw [haligned, horderly.placed hbefore, CMPCacheInfo.blockAddress_blockAddress,
        ← horderly.placed hbefore] at hsame
      by_cases hij : i = j
      · subst hij
        exact hgone haction hslot
      · exact hothers i u hij hbefore ⟨hsame, hactive⟩
    · rw [hpending] at hr
      rcases Multiset.mem_cons.mp hr with rfl | hr
      · exact absurd hacked.1 (hgone (.inl hacked.2))
      · exact .inr ⟨hwrite, r, hr, hacked⟩
  · intro r hr haction
    exact hheld.completing (hpending ▸ Multiset.mem_cons_of_mem hr) haction

theorem moves_entriesHeld (hfresh : ∀ p ∈ k.waiting, Fresh p) (horderly : Orderly cfg k.policy.theMAF.ticket)
    (hsound : k.policy.Sound) (hheld : EntriesHeld k) (hmoves : Moves reserve final k e k') :
    EntriesHeld k' := by
  cases hmoves with
  | idle => exact hheld
  | start hstarts =>
    have heffects : Policy.Effects { marks := fun _ => True, recalls := fun _ => True } k.policy _ :=
      hstarts.effects (fun _ _ => trivial) fun _ _ _ => trivial
    refine ⟨fun hu hactive hstore => ?_, hheld.completing⟩
    rcases hheld.active (starts_active hstarts hu hactive) hactive hstore with hentry | hwrite
    · exact .inl (heffects.holdsEntry hentry fun y hfrees => hfrees.elim)
    · exact .inr hwrite
  | handled hwaiting hhandle =>
    exact entriesHeld_handled (hfresh _ (hwaiting ▸ List.mem_cons_self)) horderly hsound hheld hhandle
  | evicted _ _ => exact ⟨hheld.active, hheld.completing⟩
  | finalized _ hpending hmaf => exact entriesHeld_finalized horderly hheld hpending hmaf
  | taken => exact ⟨hheld.active, hheld.completing⟩

/-- The controller with a directory and an array that were loaded. -/
def load (d : StdDirectory) (arr : StdArray cfg) : Controller cfg :=
  { create cfg with thePolicy := { Policy.create cfg with theDirectory := d, theCache := arr } }

theorem sound_load {d : StdDirectory} {arr : StdArray cfg} (hloaded : d.Loaded cfg)
    (hplain : ∀ x, (arr.state x).plain = true) : (load d arr).core.policy.Sound := by
  refine ⟨⟨fun _ => rfl, hplain, ?_⟩, ⟨hloaded.placed, ?_, fun _ => rfl⟩⟩
  · intro x entry hfind
    cases hfind
  · intro x entry hfind
    cases hfind

theorem entriesHeld_of_reaches {d : StdDirectory} {arr : StdArray cfg} (hloaded : d.Loaded cfg)
    (hplain : ∀ x, (arr.state x).plain = true) (hreach : Reaches step Anything (load d arr) c) :
    c.thePolicy.Sound ∧ EntriesHeld c.core := by
  have hall : Orderly cfg c.core.policy.theMAF.ticket ∧ c.core.policy.Sound ∧ EntriesHeld c.core := by
    refine invariant_of_reaches
      (I := fun k => Orderly cfg k.policy.theMAF.ticket ∧ k.policy.Sound ∧ EntriesHeld k) rfl ?_ ?_ hreach
    · refine ⟨orderly_of_reachable (c := create cfg) .start, sound_load hloaded hplain, ?_, ?_⟩
      · intro i u hu
        cases hu
      · intro q hq
        exact absurd hq (Multiset.notMem_zero q)
    · rintro reserve final k e k' hfresh ⟨horderly, hsound, hheld⟩ hmoves
      exact ⟨moves_orderly hfresh horderly hmoves, moves_sound hfresh horderly hsound hmoves,
        moves_entriesHeld hfresh horderly hsound hheld hmoves⟩
  exact hall.2

/-- In every state reached from an empty or a loaded directory: of the ways that have the
    tag of a block all but one are unused, and there are such ways for block zero only; no
    block is both in the directory and in its evict buffer; an active read, fetch, write or
    upgrade holds its directory entry, protected, until a write's or an upgrade's
    acknowledgement has been handled; and up to then every acknowledgement finds the
    entry. -/
theorem activeRequest_holds_entry {d : StdDirectory} {arr : StdArray cfg} (hloaded : d.Loaded cfg)
    (hplain : ∀ x, (arr.state x).plain = true) (hreach : Reaches step Anything (load d arr) c)
    (a : MemoryAddress) :
    (∀ v w, v < w → w < cfg.theDirAssociativity →
      (c.thePolicy.theDirectory.theSets (StdDirectory.makeSet cfg a) v).tag = cfg.blockAddress a →
      (c.thePolicy.theDirectory.theSets (StdDirectory.makeSet cfg a) w).tag = cfg.blockAddress a →
      cfg.blockAddress a = 0 ∧ (c.thePolicy.theDirectory.theSets (StdDirectory.makeSet cfg a) w).unused) ∧
    (c.thePolicy.theDirectory.lookup cfg a ≠ none →
      c.thePolicy.theDirEvictBuffer.find (cfg.blockAddress a) = none) ∧
    ∀ e ∈ c.thePolicy.theMAF.findAll a .eWaitAck, e.type ≠ .NonAllocatingStoreReq →
      (c.thePolicy.holdsEntry a ∨ (e.type.isWriteType = true ∧ acknowledged c.core.pending e.stamp)) ∧
      ∀ p, p.transport.msg.address = a → Policy.needsEntry p.transport.msg.type = true →
        ¬ acknowledged c.core.pending e.stamp → c.thePolicy.handleReply p ≠ .error .dirEntryNotFound := by
  obtain ⟨hsound, hheld⟩ := entriesHeld_of_reaches hloaded hplain hreach
  refine ⟨fun v w hvw hw hv htag => ?_, hsound.resident.apart, fun e he hstore => ?_⟩
  · have hsecond := hsound.resident.placed.unique _ v w hvw hw (hv.trans htag.symm)
    rw [htag] at hsecond
    exact hsecond
  · obtain ⟨hticket, hat⟩ := MissAddressFile.ticket_of_mem_findAll he
    have hactive := hheld.active hticket hat.2 hstore
    rw [show e.ticket.address = a from hat.1] at hactive
    refine ⟨hactive, fun p hp hneeds hnot => ?_⟩
    obtain ⟨block, hblock, _⟩ := hactive.resolve_right fun hwrite => hnot hwrite.2
    exact Policy.handleReply_found (hp ▸ hblock) hneeds

/-- A read that memory has not answered yet holds its entry. -/
theorem activeRequest_holds_entry_read :
    ∃ c : Controller (smallBank true), Reachable c ∧
      ∃ e ∈ c.thePolicy.theMAF.findAll 64 .eWaitAck, e.type = .ReadReq ∧ c.thePolicy.holdsEntry 64 := by
  obtain ⟨c, hreach, hread⟩ := exists_reachable (through (.request (message .ReadReq 64 0)))
    (fun c : Controller (smallBank true) =>
      (c.thePolicy.theMAF.findAll 64 .eWaitAck).any fun e => e.type == .ReadReq) (by decide +kernel)
  obtain ⟨e, he, htype⟩ := List.any_eq_true.mp hread
  have htype : e.type = .ReadReq := by simpa using htype
  have hplain : ∀ x, ((StdArray.create (smallBank true)).state x).plain = true :=
    (Policy.sound_create (smallBank true)).copies.plain
  have hall := activeRequest_holds_entry (StdDirectory.loaded_create _) hplain hreach 64
  have hentry := (hall.2.2 e he (by simp [htype])).1
  refine ⟨c, hreach, e, he, htype, hentry.resolve_right ?_⟩
  rintro ⟨hwrite, _⟩
  rw [htype] at hwrite
  cases hwrite

/-- Both ways of an empty directory have the tag of block zero, and once its acknowledgement
    has been handled an active write has an entry that is not protected. -/
theorem acknowledgedWrite_gives_up_entry :
    (∃ c : Controller (smallBank true), Reachable c ∧
      (∀ w < 2, (c.thePolicy.theDirectory.theSets (StdDirectory.makeSet (smallBank true) 0) w).tag =
        (smallBank true).blockAddress 0)) ∧
    ∃ c : Controller (smallBank true), Reachable c ∧
      ∃ e ∈ c.thePolicy.theMAF.findAll 64 .eWaitAck, e.type = .WriteReq ∧ ¬ c.thePolicy.holdsEntry 64 := by
  refine ⟨⟨create (smallBank true), .start, fun w _ => rfl⟩, ?_⟩
  obtain ⟨c, hreach, hboth⟩ := exists_reachable
    (through (.request (message .WriteReq 64 0)) ++ [.reply (message .WriteAck 64 0), .advanceMAF])
    (fun c : Controller (smallBank true) =>
      (c.thePolicy.theMAF.findAll 64 .eWaitAck).any (fun e => e.type == .WriteReq) &&
        (c.thePolicy.theDirectory.lookup (smallBank true) 64).all fun block => !block.isProtected)
    (by decide +kernel)
  obtain ⟨hwrite, hfree⟩ := Bool.and_eq_true_iff.mp hboth
  obtain ⟨e, he, htype⟩ := List.any_eq_true.mp hwrite
  refine ⟨c, hreach, e, he, by simpa using htype, ?_⟩
  rintro ⟨block, hblock, hprotected⟩
  rw [hblock] at hfree
  simp [hprotected] at hfree

end Controller

end nCMPCache
