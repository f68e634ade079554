import Flexus.CmpCache.Slots

/-!
# The blocks the directory calls back

The directory evict buffer sends the invalidates of its oldest block first, so that the blocks
with invalidates on their way are the oldest ones although a block may leave from anywhere.
That is why idle work need not look further than the newest block.
-/

namespace nCMPCache

open Runs Relation

/-- One for a block with invalidates on their way. -/
def DirEBEntry.sent (e : DirEBEntry) : Int := if e.invalidatesPending = 0 then 0 else 1

@[simp]
theorem DirEBEntry.sent_eq_zero {e : DirEBEntry} : e.sent = 0 ↔ e.invalidatesPending = 0 := by
  unfold sent
  split <;> simp_all

namespace DirEvictBuffer

variable {b b' : DirEvictBuffer} {a : MemoryAddress} {s : SimpleDirectoryState} {d : DirEBEntry}

/-- The counters are right, the blocks with invalidates on their way are the oldest ones, and
    the others are still shared. -/
structure InOrder (b : DirEvictBuffer) : Prop where
  size : b.theCurSize = b.entries.length
  pending : b.thePendingInvalidates = (b.entries.map DirEBEntry.sent).sum
  oldest : b.entries.Pairwise fun x y => x.invalidatesPending = 0 → y.invalidatesPending = 0
  shared : ∀ e ∈ b.entries, 0 ≤ e.invalidatesPending ∧
    (e.invalidatesPending = 0 → e.state.noSharers = false)

theorem inOrder_create (aSize : Nat) : (create aSize).InOrder where
  size := rfl
  pending := rfl
  oldest := List.Pairwise.nil
  shared := by simp [create]

theorem eq_of_find (hd : b.find a = some d) {e : DirEBEntry} (he : e ∈ b.entries) (ha : e.address = a) :
    e = d := by
  have hfind := Keyed.lookup_of_mem b.unique he
  rw [ha] at hfind
  exact Option.some.inj (hfind.symm.trans hd)

/-- A victim that is shared and new to the buffer is its newest block. -/
theorem InOrder.insert (h : b.InOrder) (hfresh : b.find a = none) (hshared : s.noSharers = false) :
    (b.insert a s).InOrder := by
  unfold DirEvictBuffer.insert
  rw [dif_neg (Keyed.lookup_eq_none.mp hfresh)]
  refine ⟨?_, ?_, ?_, ?_⟩
  · simp [h.size]
  · simp [h.pending, DirEBEntry.sent]
  · exact List.pairwise_append.mpr ⟨h.oldest, List.pairwise_singleton _ _, by simp⟩
  · simp only [List.mem_append, List.mem_singleton]
    rintro e (he | rfl)
    · exact h.shared e he
    · exact ⟨le_rfl, fun _ => hshared⟩

/-- A change of an entry that neither starts nor ends its invalidates. -/
theorem InOrder.modify {f : DirEBEntry → DirEBEntry} {hf : ∀ e, (f e).address = e.address}
    (h : b.InOrder) (hd : b.find a = some d) (hsent : (f d).sent = d.sent)
    (hshared : 0 ≤ (f d).invalidatesPending ∧
      ((f d).invalidatesPending = 0 → (f d).state.noSharers = false)) :
    (b.modify a f hf).InOrder := by
  have hzero : ∀ e ∈ b.entries, ((if e.address = a then f e else e).invalidatesPending = 0 ↔
      e.invalidatesPending = 0) := by
    intro e he
    split
    · next ha =>
      rw [eq_of_find hd he ha, ← DirEBEntry.sent_eq_zero, ← DirEBEntry.sent_eq_zero, hsent]
    · rfl
  refine ⟨?_, ?_, ?_, ?_⟩
  · simp [DirEvictBuffer.modify, Keyed.alter, h.size]
  · have hsum := Keyed.sum_alter (k := a) (f := f) (g := DirEBEntry.sent) b.unique
    rw [show Keyed.lookup DirEBEntry.address b.entries a = some d from hd] at hsum
    simp only [Option.map_some, Option.getD_some, hsent, sub_self, add_zero] at hsum
    exact h.pending.trans hsum.symm
  · refine List.pairwise_map.mpr (h.oldest.imp_of_mem fun {x y} hx hy hxy => ?_)
    rw [hzero x hx, hzero y hy]
    exact hxy
  · intro e he
    obtain ⟨x, hx, rfl⟩ := List.mem_map.mp he
    split
    · next ha =>
      rw [eq_of_find hd hx ha]
      exact hshared
    · exact h.shared x hx

/-- A block may leave from anywhere. -/
theorem InOrder.remove (h : b.InOrder) (hd : b.find a = some d) : (b.remove a).InOrder := by
  have hfound : Keyed.lookup DirEBEntry.address b.entries a = some d := hd
  refine ⟨?_, ?_, h.oldest.sublist List.filter_sublist,
    fun e he => h.shared e (List.mem_of_mem_filter he)⟩
  · have hsum := Keyed.sum_erase (k := a) (g := fun _ => 1) b.unique
    simp only [hfound, List.map_const', List.sum_replicate, Option.map_some, Option.getD_some,
      mul_one, nsmul_eq_mul] at hsum
    simp only [DirEvictBuffer.remove, h.size]
    omega
  · have hsum := Keyed.sum_erase (k := a) (g := DirEBEntry.sent) b.unique
    simp only [hfound, Option.map_some, Option.getD_some] at hsum
    simp only [DirEvictBuffer.remove, hd, Option.any_some, hsum, ← h.pending]
    unfold DirEBEntry.sent
    split <;> simp_all

theorem find_of_oldest (hd : b.oldestRequiringInvalidates = some d) :
    b.find d.address = some d ∧ d.invalidatesPending = 0 := by
  refine ⟨Keyed.lookup_of_mem b.unique (List.mem_of_find?_eq_some hd), ?_⟩
  simpa [DirEBEntry.invalidatesRequired] using List.find?_some hd

/-- The oldest block without invalidates on their way gets them: all its sharers are told. -/
theorem InOrder.recalled (h : b.InOrder) (hd : b.oldestRequiringInvalidates = some d) :
    (b.setInvalidatesPending d.address d.state.countSharers).InOrder := by
  obtain ⟨hfind, hready⟩ := find_of_oldest hd
  obtain ⟨_, older, newer, hentries, holder⟩ := List.find?_eq_some_iff_append.mp hd
  have hmem : d ∈ b.entries := by simp [hentries]
  have hsome : d.state.countSharers ≠ 0 := by
    simpa [SimpleDirectoryState.noSharers] using (h.shared d hmem).2 hready
  have hcount : 0 < (d.state.countSharers : Int) := by omega
  have hunique := b.unique
  have hsum := Keyed.sum_alter (k := d.address)
    (f := fun e => { e with invalidatesPending := (d.state.countSharers : Int) })
    (g := DirEBEntry.sent) b.unique
  have halter := Keyed.alter_append_cons
    (f := fun e => { e with invalidatesPending := (d.state.countSharers : Int) }) (hentries ▸ hunique)
  have hpair := h.oldest
  rw [hentries, List.pairwise_append, List.pairwise_cons] at hpair
  obtain ⟨hold, ⟨_, hnew⟩, _⟩ := hpair
  have hready' : ∀ e ∈ older, e.invalidatesPending ≠ 0 := by
    intro e he
    simpa [DirEBEntry.invalidatesRequired] using holder e he
  have hcopy : (b.setInvalidatesPending d.address d.state.countSharers).entries =
      older ++ { d with invalidatesPending := (d.state.countSharers : Int) } :: newer := by
    rw [← halter, ← hentries]
    rfl
  refine ⟨?_, ?_, ?_, ?_⟩
  · have hsize : (b.setInvalidatesPending d.address d.state.countSharers).theCurSize = b.theCurSize := rfl
    rw [hsize, h.size, hcopy, hentries, List.length_append, List.length_append, List.length_cons,
      List.length_cons]
  · rw [hcopy, ← halter, ← hentries, hsum, ← h.pending,
      show Keyed.lookup DirEBEntry.address b.entries d.address = some d from hfind]
    simp [DirEBEntry.sent, hready, hsome, setInvalidatesPending]
  · rw [hcopy, List.pairwise_append, List.pairwise_cons]
    refine ⟨hold, ⟨fun y _ hzero => absurd hzero hcount.ne', hnew⟩, fun x hx y _ hzero => ?_⟩
    exact absurd hzero (hready' x hx)
  · rw [hcopy]
    simp only [List.mem_append, List.mem_cons]
    rintro e (he | rfl | he)
    · exact h.shared e (by simp [hentries, he])
    · exact ⟨hcount.le, fun hzero => absurd hzero hcount.ne'⟩
    · exact h.shared e (by simp [hentries, he])

/-- In such a buffer the newest block tells whether any block waits to be called back. -/
theorem InOrder.idleWorkReady (h : b.InOrder) :
    b.idleWorkReady = true ↔ b.oldestRequiringInvalidates.isSome = true := by
  unfold DirEvictBuffer.idleWorkReady oldestRequiringInvalidates
  rw [List.find?_isSome]
  rcases List.eq_nil_or_concat b.entries with hnil | ⟨older, newest, hentries⟩
  · simp [hnil]
  · have hpair := h.oldest
    rw [List.concat_eq_append] at hentries
    rw [hentries, List.pairwise_append] at hpair
    simp only [hentries, List.getLast?_concat, Option.any_some, List.mem_append, List.mem_singleton]
    constructor
    · exact fun hready => ⟨newest, .inr rfl, hready⟩
    · rintro ⟨e, he | rfl, hready⟩
      · simp only [DirEBEntry.invalidatesRequired, beq_iff_eq] at hready ⊢
        exact hpair.2.2 e he newest (List.mem_singleton_self newest) hready
      · exact hready

theorem InOrder.count_sent (h : b.InOrder) :
    b.thePendingInvalidates = (b.entries.filter fun e => e.invalidatesPending != 0).length := by
  rw [h.pending]
  clear h
  induction b.entries with
  | nil => rfl
  | cons e l ih =>
    rw [List.map_cons, List.sum_cons, ih, List.filter_cons, DirEBEntry.sent]
    by_cases he : e.invalidatesPending = 0
    · simp [he]
    · simp [he, add_comm]

/-! ## What is done to the buffer -/

/-- An entry leaves whatever its sharers were set to before. -/
theorem remove_setState : (b.setState a s).remove a = b.remove a := by
  have hpending : ((b.setState a s).find a).any (fun e => e.invalidatesPending != 0) =
      (b.find a).any fun e => e.invalidatesPending != 0 := by
    rw [find_setState, if_pos rfl, Option.any_map]
  have hentries : Keyed.erase DirEBEntry.address a (b.setState a s).entries =
      Keyed.erase DirEBEntry.address a b.entries := Keyed.erase_alter fun _ => rfl
  unfold remove
  simp only [hpending, hentries]
  rfl

/-- The last invalidate takes the entry off the count of those under way, so that its removal
    does not have to. -/
theorem remove_completeInvalidate (hd : b.find a = some d) (hlast : d.invalidatesPending = 1) :
    (b.completeInvalidate a).remove a = b.remove a := by
  have hentries : Keyed.erase DirEBEntry.address a (b.completeInvalidate a).entries =
      Keyed.erase DirEBEntry.address a b.entries := Keyed.erase_alter fun _ => rfl
  have hpending : (b.completeInvalidate a).thePendingInvalidates = b.thePendingInvalidates - 1 := by
    simp [completeInvalidate, hd, hlast]
  unfold remove
  rw [find_completeInvalidate, if_pos rfl, hd]
  simp only [hentries, hpending, Option.map_some, Option.any_some, hlast]
  rfl

/-- One thing that the policy or the directory does to the buffer, with what holds then. -/
inductive Change (b : DirEvictBuffer) : DirEvictBuffer → Prop
  | victim {a : MemoryAddress} {s : SimpleDirectoryState} : b.find a = none → s.noSharers = false →
      Change b (b.insert a s)
  | recalled {d : DirEBEntry} : b.oldestRequiringInvalidates = some d →
      Change b (b.setInvalidatesPending d.address d.state.countSharers)
  | reserve {a : MemoryAddress} {d : DirEBEntry} {n : Int} : b.find a = some d →
      Change b (b.setCacheEBReserved a n)
  | left {a : MemoryAddress} {d : DirEBEntry} {s : SimpleDirectoryState} : b.find a = some d →
      (d.invalidatesPending = 0 → s.noSharers = false) → Change b (b.setState a s)
  | acknowledged {a : MemoryAddress} {d : DirEBEntry} : b.find a = some d → 1 < d.invalidatesPending →
      Change b (b.completeInvalidate a)
  | gone {a : MemoryAddress} {d : DirEBEntry} : b.find a = some d → Change b (b.remove a)

theorem InOrder.change (h : b.InOrder) (hchange : Change b b') : b'.InOrder := by
  cases hchange with
  | victim hfresh hshared => exact h.insert hfresh hshared
  | recalled hd => exact h.recalled hd
  | @reserve a d n hd => exact h.modify hd rfl (h.shared d (Keyed.mem_of_lookup hd).1)
  | @left a d s hd hshared =>
    exact h.modify hd rfl ⟨(h.shared _ (Keyed.mem_of_lookup hd).1).1, hshared⟩
  | @acknowledged a d hd hmore =>
    have hsent : ({ d with invalidatesPending := d.invalidatesPending - 1 } : DirEBEntry).sent = d.sent := by
      have hnow : d.invalidatesPending - 1 ≠ 0 := by omega
      have hbefore : d.invalidatesPending ≠ 0 := by omega
      simp only [DirEBEntry.sent, if_neg hnow, if_neg hbefore]
    have hmodified : (b.modify a (fun e => { e with invalidatesPending := e.invalidatesPending - 1 })
        fun _ => rfl).InOrder :=
      h.modify hd hsent ⟨by dsimp only; omega, fun hzero => by dsimp only at hzero; omega⟩
    have hkept : (b.completeInvalidate a).thePendingInvalidates = b.thePendingInvalidates := by
      have hnot : (d.invalidatesPending == 1) = false := by simpa using hmore.ne'
      simp [completeInvalidate, hd, hnot]
    exact ⟨hmodified.size, hkept.trans hmodified.pending, hmodified.oldest, hmodified.shared⟩
  | gone hd => exact h.remove hd

theorem InOrder.changes (h : b.InOrder) (hchanges : ReflTransGen Change b b') : b'.InOrder := by
  induction hchanges with
  | refl => exact h
  | tail _ hchange ih => exact ih.change hchange

end DirEvictBuffer

/-! ## What the handlers do to the buffer -/

namespace Policy

open DirEvictBuffer

variable {cfg : CMPCacheInfo} {s s' : Policy cfg} {p q : ProcessEntry} {hasMaf fwd active : Bool}
  {a : MemoryAddress} {reserve : Int} {type : MemoryMessageType}

/-- The buffer of the second state comes from that of the first by changes of the kinds that
    keep it in order. -/
def Recalls (s s' : Policy cfg) : Prop :=
  ReflTransGen Change s.theDirEvictBuffer s'.theDirEvictBuffer

theorem Recalls.of_eq (h : s'.theDirEvictBuffer = s.theDirEvictBuffer) : Recalls s s' := by
  rw [Recalls, h]

theorem Recalls.of_eq_right {s₁ : Policy cfg} (h : Recalls s s₁)
    (hsame : s'.theDirEvictBuffer = s₁.theDirEvictBuffer) : Recalls s s' := by
  rw [Recalls, hsame]
  exact h

theorem Recalls.trans {s₁ : Policy cfg} (h : Recalls s s₁) (h' : Recalls s₁ s') : Recalls s s' :=
  ReflTransGen.trans h h'

/-- The victim of the directory was in the directory, so it is new to the buffer. -/
theorem changes_insertVictim {d : StdDirectory} {dir : SimpleDirectoryState}
    {victim : Option (MemoryAddress × SimpleDirectoryState)} (hresident : Resident s)
    (haligned : cfg.blockAddress a = a) (hnone : s.theDirectory.lookup cfg a = none)
    (hallocate : s.theDirectory.allocate cfg a dir = some (d, victim)) :
    ReflTransGen Change s.theDirEvictBuffer (insertVictim s.theDirEvictBuffer victim) := by
  obtain ⟨w, hw, hd, _, rfl, _⟩ := StdDirectory.allocate_spec hnone haligned hallocate
  split
  · exact .refl
  · next hshared =>
    rw [Bool.not_eq_true] at hshared
    have hwas := (victim_left hresident.placed hw hshared haligned hnone hd).1
    have hfresh := hresident.apart hwas
    rw [hresident.placed.aligned] at hfresh
    exact .single (.victim hfresh hshared)

theorem find_insertVictim {b : DirEvictBuffer} {victim : Option (MemoryAddress × SimpleDirectoryState)}
    {e : DirEBEntry} (he : b.find a = some e) : (insertVictim b victim).find a = some e := by
  cases victim with
  | none => exact he
  | some v => rw [insertVictim, find_insert, he, Option.some_or]

theorem recalls_claimDirEntry (hresident : Resident s) (haligned : cfg.blockAddress a = a)
    (h : s.claimDirEntry type a = .ok s') : Recalls s s' := by
  unfold claimDirEntry at h
  split at h
  · next e he =>
    split at h
    · cases h
    · split at h
      · cases h
        exact .refl
      · next hlookup =>
        rw [Option.not_isSome_iff_eq_none] at hlookup
        split at h
        · cases h
        · next d victim hallocate =>
          cases h
          exact (changes_insertVictim hresident haligned hlookup hallocate).tail (.gone (find_insertVictim he))
  · split at h
    · cases h
      exact .refl
    · next hlookup =>
      rw [Bool.or_eq_true, not_or, Option.not_isSome_iff_eq_none] at hlookup
      split at h
      · cases h
      · next d victim hallocate =>
        cases h
        exact changes_insertVictim hresident haligned hlookup.1 hallocate

theorem Requested.recalls (hresident : Resident s) (haligned : cfg.blockAddress a = a)
    (h : Requested s p hasMaf a s' q) : Recalls s s' := by
  have hstalled : ∀ {s₁ : Policy cfg} {st}, s₁.stall p hasMaf a st = .ok (s', q) → Recalls s s₁ →
      Recalls s s' := by
    intro s₁ st hstall hbefore
    refine hbefore.of_eq_right ?_
    rw [(stall_spec hstall).1]
  cases h with
  | redundant _ _ => exact .of_eq rfl
  | queued _ hstall => exact hstalled hstall (.of_eq rfl)
  | noEntry _ _ hstall => exact hstalled hstall (.of_eq rfl)
  | writtenBack _ hclaim _ hstall => exact hstalled hstall (recalls_claimDirEntry hresident haligned hclaim)
  | @served w s₁ s₂ _ _ _ hclaim hcache hserve =>
    obtain ⟨dir, hserved⟩ := served_serveRequest hserve
    refine (recalls_claimDirEntry hresident haligned hclaim).of_eq_right ?_
    have hprotect : ∀ {s₀ : Policy cfg}, (s₀.protectEntry p.transport.msg.type a).theDirEvictBuffer =
        s₀.theDirEvictBuffer := by
      intro s₀
      unfold protectEntry
      split <;> rfl
    rw [hserved.dirEB, hprotect, claimCacheBlock_frame hcache]

theorem recalls_stealReservation : Recalls s (s.stealReservation p).1 := by
  unfold stealReservation
  split
  · next d hd =>
    split
    · exact .single (.reserve hd)
    · exact .refl
  · exact .refl

theorem recalls_writeEvictData {t : Policy cfg × ProcessEntry × Bool}
    (hok : writeEvictData reserve s p hasMaf fwd = .ok t) : Recalls s t.1 := by
  have hshare : ∀ {s₀ : Policy cfg} {p₀ : ProcessEntry},
      (s₀.shareTransport p₀ hasMaf).theDirEvictBuffer = s₀.theDirEvictBuffer := by
    intro s₀ p₀
    unfold shareTransport
    split <;> rfl
  have hsteal : Recalls s (s.stealReservation p).1 := recalls_stealReservation
  unfold writeEvictData at hok
  dsimp only at hok
  split at hok
  · split at hok
    · obtain ⟨s₁, hfill, hpure⟩ := bind_eq_ok.mp hok
      obtain rfl := pure_eq_ok.mp hpure
      refine hsteal.of_eq_right ?_
      rw [fillFromEvict_frame hfill]
    · split at hok
      · cases hok
        exact hsteal.of_eq_right hshare
      · cases hok
        exact hsteal
  · cases hok
    exact .of_eq rfl

/-- A core that gives up its copy is no sharer any more; the block goes when that was the last
    one and none is being told. -/
theorem recalls_finishEvict (hok : s.finishEvict p active fwd = .ok (s', q)) : Recalls s s' := by
  unfold finishEvict at hok
  dsimp only at hok
  split at hok
  · next d hd =>
    split at hok
    · cases hok
    · obtain ⟨sharers, _, hok⟩ := bind_eq_ok.mp hok
      split at hok
      · have hgone : Recalls s { s with theDirEvictBuffer :=
            (s.theDirEvictBuffer.setState p.transport.msg.address sharers).remove p.transport.msg.address } := by
          rw [remove_setState]
          exact .single (.gone hd)
        split at hok
        · split at hok
          · cases hok
          · cases hok
            exact hgone
        · cases hok
          exact hgone
      · next hstays =>
        cases hok
        refine .single (.left hd fun hzero => ?_)
        simpa [hzero] using hstays
  · split at hok
    · obtain ⟨sharers, _, hpure⟩ := bind_eq_ok.mp hok
      obtain ⟨rfl, rfl⟩ := Prod.mk.inj (pure_eq_ok.mp hpure)
      exact .refl
    · cases hok
      exact .refl

theorem recalls_doEvict (hok : doEvict reserve s p hasMaf = .ok (s', q)) : Recalls s s' := by
  unfold doEvict at hok
  split at hok
  · refine .of_eq ?_
    rw [(stall_spec hok).1]
  · split at hok
    · obtain ⟨t, hwrite, hfinish⟩ := bind_eq_ok.mp hok
      exact (recalls_writeEvictData hwrite).trans (recalls_finishEvict hfinish)
    · exact recalls_finishEvict hok

theorem recalls_doRequest (hresident : Resident s) (hok : doRequest reserve s p hasMaf = .ok (s', q)) :
    Recalls s s' := by
  cases hevict : p.transport.msg.type.isEvictType with
  | false => exact (doRequest_requested hevict hok).recalls hresident (cfg.blockAddress_blockAddress _)
  | true =>
    rcases doRequest_evict hevict hok with ⟨_, _, hstall⟩ | ⟨_, hdo⟩
    · refine .of_eq ?_
      rw [(stall_spec hstall).1]
    · exact recalls_doEvict hdo

/-- The acknowledgement of an invalidate answers one that is on its way. -/
def AnswersInvalidate (s : Policy cfg) (p : ProcessEntry) : Prop :=
  p.transport.msg.type = .InvalidateAck ∨ p.transport.msg.type = .InvUpdateAck →
    ∀ d, s.theDirEvictBuffer.find p.transport.msg.address = some d → 0 < d.invalidatesPending

theorem recalls_completeInvalidate {d : DirEBEntry} {sharers : SimpleDirectoryState} {n : Int}
    (hd : ∃ d', s.theDirEvictBuffer.find p.transport.msg.address = some d' ∧
      d'.invalidatesPending = d.invalidatesPending)
    (hsent : 0 < d.invalidatesPending)
    (hok : s.completeInvalidate p d sharers n = .ok (s', q)) : Recalls s s' := by
  obtain ⟨d', hd, hsame⟩ := hd
  have hset : (s.theDirEvictBuffer.setState p.transport.msg.address sharers).find p.transport.msg.address =
      some { d' with state := sharers } := by
    rw [find_setState, if_pos rfl, hd, Option.map_some]
  unfold completeInvalidate at hok
  dsimp only at hok
  split at hok
  · next hlast =>
    split at hok
    · cases hok
    · simp only [Except.ok.injEq] at hok
      have hs : _ = s' := congrArg Prod.fst hok
      rw [(wakeWaitEvict_spec _ _ _).1] at hs
      rw [← hs, Recalls]
      dsimp only
      rw [remove_completeInvalidate hset (by dsimp only; omega), remove_setState]
      exact .single (.gone hd)
  · next hmore =>
    cases hok
    have hmany : 1 < ({ d' with state := sharers } : DirEBEntry).invalidatesPending := by
      dsimp only
      omega
    refine (ReflTransGen.single (.left hd fun hzero => ?_)).tail (.acknowledged hset hmany)
    omega

theorem recalls_handleInvalidateAck
    (htype : p.transport.msg.type = .InvalidateAck ∨ p.transport.msg.type = .InvUpdateAck)
    (hanswers : s.AnswersInvalidate p) (hok : s.handleInvalidateAck p = .ok (s', q)) : Recalls s s' := by
  unfold handleInvalidateAck at hok
  dsimp only at hok
  split at hok
  · cases hok
  · next d hd =>
    have hsent := hanswers htype d hd
    obtain ⟨sharers, _, hok⟩ := bind_eq_ok.mp hok
    split at hok
    · obtain ⟨s₁, hkeep, hok⟩ := bind_eq_ok.mp hok
      have hbuffer : s₁.theDirEvictBuffer = s.theDirEvictBuffer := by rw [keepDirtyData_frame hkeep]
      have hreserve : Recalls s { s₁ with
          theDirEvictBuffer := s₁.theDirEvictBuffer.setCacheEBReserved p.transport.msg.address 0 } := by
        rw [Recalls, hbuffer]
        exact .single (.reserve hd)
      have hfind : (s₁.theDirEvictBuffer.setCacheEBReserved p.transport.msg.address 0).find
          p.transport.msg.address = some { d with cacheEBReserved := 0 } := by
        rw [find_setCacheEBReserved, if_pos rfl, hbuffer, hd, Option.map_some]
      refine hreserve.trans (recalls_completeInvalidate ?_ hsent hok)
      exact ⟨_, hfind, rfl⟩
    · exact recalls_completeInvalidate ⟨d, hd, rfl⟩ hsent hok

theorem returnReservation_same {maf : MAFEntry} :
    (s.returnReservation p maf).1.theDirEvictBuffer = s.theDirEvictBuffer := by
  unfold returnReservation
  split <;> rfl

theorem yieldCopy_same : (s.yieldCopy a).theDirEvictBuffer = s.theDirEvictBuffer := by
  rw [yieldCopy_frame]

/-- The other replies leave the buffer alone. -/
theorem handleReadAck_same (hok : s.handleReadAck p = .ok (s', q)) :
    s'.theDirEvictBuffer = s.theDirEvictBuffer := by
  obtain ⟨maf, _, hok⟩ := bind_eq_ok.mp hok
  dsimp only at hok
  split at hok
  · cases hok
  · obtain ⟨sharers, _, hok⟩ := bind_eq_ok.mp hok
    split at hok
    · obtain ⟨s₁, hkeep, hok⟩ := bind_eq_ok.mp hok
      obtain ⟨rfl, rfl⟩ := Prod.mk.inj (pure_eq_ok.mp hok)
      rw [keepAckData_frame hkeep]
      exact returnReservation_same
    · obtain ⟨rfl, rfl⟩ := Prod.mk.inj (pure_eq_ok.mp hok)
      exact returnReservation_same

theorem handleOwnershipAck_same (hok : handleOwnershipAck type s p = .ok (s', q)) :
    s'.theDirEvictBuffer = s.theDirEvictBuffer := by
  obtain ⟨maf, _, hok⟩ := bind_eq_ok.mp hok
  dsimp only at hok
  split at hok
  · cases hok
  · obtain ⟨sharers, _, hok⟩ := bind_eq_ok.mp hok
    obtain ⟨rfl, rfl⟩ := Prod.mk.inj (pure_eq_ok.mp hok)
    rw [returnReservation_same, yieldCopy_same]

theorem handleMemoryReply_same (hok : s.handleMemoryReply p = .ok (s', q)) :
    s'.theDirEvictBuffer = s.theDirEvictBuffer := by
  obtain ⟨maf, _, hok⟩ := bind_eq_ok.mp hok
  dsimp only at hok
  split at hok
  · obtain ⟨s₁, hkeep, hok⟩ := bind_eq_ok.mp hok
    obtain ⟨rfl, rfl⟩ := Prod.mk.inj (pure_eq_ok.mp hok)
    rw [keepMemoryData_frame hkeep]
    exact returnReservation_same
  · obtain ⟨rfl, rfl⟩ := Prod.mk.inj (pure_eq_ok.mp hok)
    exact returnReservation_same

theorem handleFwdNAck_same (hok : s.handleFwdNAck p = .ok (s', q)) :
    s'.theDirEvictBuffer = s.theDirEvictBuffer := by
  unfold handleFwdNAck at hok
  split at hok
  · cases hok
  · obtain ⟨maf, _, hok⟩ := bind_eq_ok.mp hok
    obtain ⟨s₁, hrecover, hok⟩ := bind_eq_ok.mp hok
    have hsame : s₁.theDirEvictBuffer = s.theDirEvictBuffer := by rw [recoverCopy_frame hrecover]
    unfold retryForward at hok
    dsimp only at hok
    split at hok
    · split at hok
      · cases hok
      · cases hok
        exact hsame
    · split at hok
      · cases hok
        exact hsame
      · cases hok
        exact hsame

theorem handleEvictAck_same (hok : s.handleEvictAck p = .ok (s', q)) :
    s'.theDirEvictBuffer = s.theDirEvictBuffer := by
  unfold handleEvictAck at hok
  dsimp only at hok
  split at hok
  · cases hok
  · split at hok
    · cases hok
    · have hs : _ = s' := congrArg Prod.fst (Except.ok.inj hok)
      rw [← hs, (wakeWaitEvict_spec _ _ _).1]

theorem recalls_handleReply (hanswers : s.AnswersInvalidate p) (hok : s.handleReply p = .ok (s', q)) :
    Recalls s s' := by
  unfold handleReply at hok
  split at hok
  · next htype => exact recalls_handleInvalidateAck (.inl htype) hanswers hok
  · next htype => exact recalls_handleInvalidateAck (.inr htype) hanswers hok
  case h_3 | h_4 | h_5 | h_6 => exact .of_eq (handleReadAck_same hok)
  case h_7 =>
    obtain ⟨maf, _, hok⟩ := bind_eq_ok.mp hok
    obtain ⟨rfl, rfl⟩ := Prod.mk.inj (pure_eq_ok.mp hok)
    exact .of_eq returnReservation_same
  case h_8 | h_9 => exact .of_eq (handleOwnershipAck_same hok)
  case h_10 =>
    obtain ⟨maf, _, hok⟩ := bind_eq_ok.mp hok
    obtain ⟨rfl, rfl⟩ := Prod.mk.inj (pure_eq_ok.mp hok)
    exact .of_eq rfl
  case h_11 | h_12 | h_13 => exact .of_eq (handleMemoryReply_same hok)
  case h_14 => exact .of_eq (handleFwdNAck_same hok)
  case h_15 => exact .of_eq (handleEvictAck_same hok)
  case h_16 => cases hok

/-- The oldest block without invalidates is called back, and a place is reserved for its data. -/
theorem recalls_getIdleWorkTransport : Recalls s s.getIdleWorkTransport.1 := by
  unfold getIdleWorkTransport
  split
  · exact .refl
  · next d hd =>
    have hfind : (s.theDirEvictBuffer.setInvalidatesPending d.address d.state.countSharers).find d.address =
        some { d with invalidatesPending := (d.state.countSharers : Int) } := by
      rw [find_setInvalidatesPending, if_pos rfl, (find_of_oldest hd).1, Option.map_some]
    exact (ReflTransGen.single (.recalled hd)).tail (.reserve hfind)

theorem getCacheEvictTransport_same {t : MemoryTransport} (hok : s.getCacheEvictTransport = .ok (s', t)) :
    s'.theDirEvictBuffer = s.theDirEvictBuffer := by
  obtain ⟨b, e, _, rfl, _⟩ := getCacheEvictTransport_spec hok
  rfl

end Policy

namespace Controller

open Policy

variable {cfg : CMPCacheInfo} {c c' : Controller cfg} {s s' : Policy cfg} {p q : ProcessEntry}
  {reserve : Int} {e : Event}

theorem dropRedundant_same (hok : dropRedundant s p = .ok (s', q)) :
    s'.theDirEvictBuffer = s.theDirEvictBuffer := by
  unfold dropRedundant at hok
  split at hok
  · obtain ⟨e, _, hpure⟩ := bind_eq_ok.mp hok
    obtain ⟨rfl, rfl⟩ := Prod.mk.inj (pure_eq_ok.mp hpure)
    rfl
  · obtain ⟨rfl, rfl⟩ := Prod.mk.inj (pure_eq_ok.mp hok)
    rfl

theorem handle_recalls (hresident : s.Resident) (hanswers : p.type = .eProcReply → s.AnswersInvalidate p)
    (hok : handle reserve s p = .ok (s', q)) : s.Recalls s' := by
  unfold handle at hok
  split at hok
  · obtain ⟨⟨s₁, p₁⟩, hwake, hdrop⟩ := bind_eq_ok.mp hok
    exact (recalls_doRequest hresident hwake).of_eq_right (dropRedundant_same hdrop)
  · exact recalls_doRequest hresident hok
  · next htype => exact recalls_handleReply (hanswers htype) hok
  · rcases handleIdleWork_spec hok with ⟨rfl, _⟩ | ⟨t, hevict, _⟩
    · exact .of_eq rfl
    · exact .of_eq (getCacheEvictTransport_same hevict)
  · cases hok

theorem Starts.recalls (h : Starts s e s' p) : s.Recalls s' := by
  cases h with
  | wakeMAF _ _ _ => exact .of_eq rfl
  | cacheEvict hevict _ => exact .of_eq (getCacheEvictTransport_same hevict)
  | dirEvict _ => exact recalls_getIdleWorkTransport
  | reply _ => exact .of_eq rfl
  | snoop _ => exact .of_eq rfl
  | request _ _ => exact .of_eq rfl
  | idleWork _ => exact recalls_getIdleWorkTransport

/-- The next reply to be handled answers an invalidate that is on its way, if it is the
    acknowledgement of one. -/
def AnswersInvalidates (c : Controller cfg) (e : Event) : Prop :=
  e = .advanceMAF → ∀ p ∈ c.theMAFPipeline.head?, p.type = .eProcReply → c.thePolicy.AnswersInvalidate p

theorem step_recalls (hsound : c.thePolicy.Sound) (hmeets : AnswersInvalidates c e) (hok : step c e = .ok c') :
    c.thePolicy.Recalls c'.thePolicy := by
  have hmoves := step_moves hok
  change c.core.policy.Recalls c'.core.policy
  generalize c'.core = k' at hmoves
  cases hmoves with
  | idle => exact .of_eq rfl
  | start hstarts => exact hstarts.recalls
  | @handled p q rest s hwaiting hhandle =>
    have hhead : p ∈ c.theMAFPipeline.head? := by
      rw [show c.theMAFPipeline = p :: rest from hwaiting]
      rfl
    exact handle_recalls hsound.resident (hmeets rfl p hhead) hhandle
  | evicted _ _ => exact .of_eq rfl
  | finalized _ _ hmaf => exact .of_eq (finalizeMAF_dirEB hmaf)
  | taken => exact .of_eq rfl

theorem inOrder_of_reachableWhile (hreach : ReachableWhile AnswersInvalidates c) :
    c.thePolicy.theDirEvictBuffer.InOrder := by
  refine Reaches.invariant_given (I := fun c => c.thePolicy.Sound)
    (J := fun c => c.thePolicy.theDirEvictBuffer.InOrder)
    (fun c hc => sound_of_reachable (reachable_of_reachableWhile hc)) ?_ ?_ hreach
  · exact DirEvictBuffer.inOrder_create _
  · exact fun c e c' hsound hbefore hmeets hok => hbefore.changes (step_recalls hsound hmeets hok)

/-- In every run in which the acknowledgements of invalidates answer invalidates, the
    directory evict buffer counts its entries and those with invalidates on their way, and
    its newest entry tells whether any entry waits to be called back. -/
theorem dirEvictBuffer_counts (hreach : ReachableWhile AnswersInvalidates c) :
    c.thePolicy.theDirEvictBuffer.theCurSize = c.thePolicy.theDirEvictBuffer.entries.length ∧
    c.thePolicy.theDirEvictBuffer.thePendingInvalidates =
      (c.thePolicy.theDirEvictBuffer.entries.filter fun e => e.invalidatesPending != 0).length ∧
    (c.thePolicy.theDirEvictBuffer.idleWorkReady = true ↔
      c.thePolicy.theDirEvictBuffer.oldestRequiringInvalidates.isSome = true) := by
  have horder := inOrder_of_reachableWhile hreach
  exact ⟨horder.size, horder.count_sent, horder.idleWorkReady⟩

/-- A test for the steps of such a run. -/
def answersInvalidates (c : Controller cfg) (e : Event) : Bool :=
  e != .advanceMAF || c.theMAFPipeline.head?.all fun p =>
    (c.thePolicy.theDirEvictBuffer.find p.transport.msg.address).all fun d =>
      p.type != .eProcReply ||
        !(p.transport.msg.type == .InvalidateAck || p.transport.msg.type == .InvUpdateAck) ||
        decide (0 < d.invalidatesPending)

theorem answersInvalidates_of_test (c : Controller cfg) (e : Event) (h : answersInvalidates c e = true) :
    AnswersInvalidates c e := by
  rintro rfl p hp htype hack d hd
  simp only [answersInvalidates, bne_self_eq_false, Bool.false_or, Option.mem_def.mp hp, Option.all_some, hd,
    htype] at h
  rcases hack with hack | hack <;> simpa [hack] using h

/-- The directory gives up a block, calls it back and waits for the answer while it gives up a
    second block. -/
theorem dirEvictBuffer_counts_recall :
    ∃ c : Controller (smallBank true), ReachableWhile AnswersInvalidates c ∧
      c.thePolicy.theDirEvictBuffer.thePendingInvalidates = 1 ∧
      c.thePolicy.theDirEvictBuffer.theCurSize = c.thePolicy.theDirEvictBuffer.entries.length ∧
      (c.thePolicy.theDirEvictBuffer.idleWorkReady = true ↔
        c.thePolicy.theDirEvictBuffer.oldestRequiringInvalidates.isSome = true) := by
  obtain ⟨c, hreach, hrun⟩ := exists_reachableWhile answersInvalidates answersInvalidates_of_test
    (readThrough 64 0 ++ readThrough 128 1 ++ readThrough 192 2 ++ [.idleWork, .advanceMAF])
    (fun c : Controller (smallBank true) => c.thePolicy.theDirEvictBuffer.thePendingInvalidates == 1)
    (by decide +kernel)
  have hcounts := dirEvictBuffer_counts hreach
  exact ⟨c, hreach, by simpa using hrun, hcounts.1, hcounts.2.2⟩

end Controller

end nCMPCache
