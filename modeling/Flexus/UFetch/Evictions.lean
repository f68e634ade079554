import Flexus.Lib.Outcomes
import Flexus.UFetch.Streams

/-!
# Evictions and fetches of the instruction cache

The fetch unit with a memory that answers every fetch once. A block that leaves the cache stays
in the evict set until its eviction is acknowledged.
-/

namespace nuFetch

open Runs
open nCMPCache (MemoryMessageType)

variable {c : FetchConfig}

/-- The addresses that messages fetch. -/
def fetchesOf (l : List MemoryTransport) : List Nat :=
  l.filterMap fun m => if m.msg.type = .FetchReq then some m.msg.address else none

/-- The address that a message fills. -/
def Event.fills : Event → Option Nat
  | .FetchMissIn t =>
    if t.msg.type ∈ [.FwdReply, .FwdReplyOwned, .MissReply, .FetchReply, .MissReplyWritable] then some t.msg.address
    else none
  | _ => none

/-- The fetch unit, and the fetches that memory has still to answer. -/
structure Exchange (c : FetchConfig) where
  unit : UFetch c
  fetching : List Nat

namespace Exchange

def start (theI : SimCache c) : Exchange c := ⟨.start theI, []⟩

def step (st : Exchange c) (e : Event) : Except FetchFault (Exchange c) :=
  (st.unit.step e).map fun (unit, out) =>
    ⟨unit, e.fills.elim st.fetching st.fetching.erase ++ fetchesOf out.misses⟩

variable (st : Exchange c)

/-- The fetches that are queued or have still to be answered. -/
def fetches : List Nat := fetchesOf st.unit.theMissQueue ++ st.fetching

/-- Memory fills what it was asked for, and no block has two fetches outstanding. -/
structure Meets (e : Event) : Prop where
  answers : ∀ a ∈ e.fills, a ∈ st.fetching
  single : (st.fetches.map c.keyOf).Nodup

/-- No block that is being evicted is in the cache or has a fetch that memory will answer, and no
    block that is fetched is in the cache. -/
structure Uncrossed : Prop where
  apart : ∀ k, st.unit.theI.has k = true → c.addrOf k ∉ st.unit.theEvictSet
  fetching : ∀ a ∈ st.fetching, c.blockAddr a ∉ st.unit.theEvictSet
  missing : ∀ a ∈ st.fetches, st.unit.theI.has (c.keyOf a) = false

end Exchange

/-! ## What evicts nothing -/

namespace UFetch

variable {s s' s'' : UFetch c}

/-- No block enters the cache or the evict set, and the blocks that are asked for are absent. -/
structure Keeps (s s' : UFetch c) : Prop where
  has : ∀ k, s'.theI.has k = true → s.theI.has k = true
  evicts : ∀ a ∈ s'.theEvictSet, a ∈ s.theEvictSet
  fetches : ∀ a ∈ fetchesOf s'.theMissQueue, a ∈ fetchesOf s.theMissQueue ∨ s'.theI.has (c.keyOf a) = false

theorem Keeps.refl (s : UFetch c) : Keeps s s := ⟨fun _ h => h, fun _ h => h, fun _ h => .inl h⟩

theorem Keeps.trans (h : Keeps s s') (h' : Keeps s' s'') : Keeps s s'' where
  has k hk := h.has k (h'.has k hk)
  evicts a ha := h.evicts a (h'.evicts a ha)
  fetches a ha := by
    obtain hqueued | hout := h'.fetches a ha
    · exact (h.fetches a hqueued).imp_right fun hout => Bool.eq_false_iff.mpr fun hin =>
        Bool.false_ne_true (hout.symm.trans (h'.has _ hin))
    · exact .inr hout

theorem keeps_queueSnoopMessage (aTransport : MemoryTransport) (aType : MemoryMessageType) (aContainsData : Bool) :
    Keeps s (s.queueSnoopMessage aTransport aType aContainsData) := by
  unfold queueSnoopMessage
  dsimp only
  split <;> exact { Keeps.refl s with }

theorem keeps_ackFill (s : UFetch c) (aTransport : MemoryTransport) :
    Yields (· ≠ .evictOutstanding) (s.ackFill aTransport) (Keeps s) :=
  .ite (fun _ => .ite (fun _ => .error nofun) fun _ => .ok (keeps_queueSnoopMessage ..)) fun _ => .ok (.refl s)

theorem keeps_answerForward (s : UFetch c) (aTransport : MemoryTransport) (had : Bool) (reply : MemoryMessageType) :
    Yields (· ≠ .evictOutstanding) (s.answerForward aTransport had reply) (Keeps s) :=
  .ite (fun _ => .error nofun) fun _ =>
    .ite (fun _ => .ok (keeps_queueSnoopMessage ..)) fun _ => .ok (keeps_queueSnoopMessage ..)

theorem keeps_inval (anAddress : Nat) : Keeps s (s.inval anAddress).2 :=
  { Keeps.refl s with
    has := fun _ hk => (Bool.and_eq_true_iff.mp (SimCache.has_inval.symm.trans hk)).1
    fetches := fun _ h => .inl h }

theorem OnlyFetches.keeps (h : OnlyFetches s s') : Keeps s s' where
  has k hk := by rwa [h.has] at hk
  evicts a ha := by rwa [h.evicts] at ha
  fetches a ha := by
    obtain ⟨l, hmisses, hl⟩ := h.misses
    rw [hmisses, fetchesOf, List.filterMap_append] at ha
    refine (List.mem_append.mp ha).imp_right fun hnew => ?_
    obtain ⟨m, hm, hsome⟩ := List.mem_filterMap.mp hnew
    rw [if_pos (hl m hm).1, Option.some.injEq] at hsome
    rw [h.has, ← hsome, (hl m hm).2]

end UFetch

namespace Exchange

open UFetch

variable {st st' : Exchange c} {unit : UFetch c}

theorem Uncrossed.keep (h : st.Uncrossed) (hkeep : Keeps st.unit unit) : Uncrossed ⟨unit, st.fetching⟩ where
  apart k hk hin := h.apart k (hkeep.has k hk) (hkeep.evicts _ hin)
  fetching a ha hin := h.fetching a ha (hkeep.evicts _ hin)
  missing a ha := by
    have hold : a ∈ st.fetches → unit.theI.has (c.keyOf a) = false := fun hmem =>
      Bool.eq_false_iff.mpr fun hin => Bool.false_ne_true ((h.missing a hmem).symm.trans (hkeep.has _ hin))
    obtain hqueued | hsent := List.mem_append.mp ha
    · exact (hkeep.fetches a hqueued).elim (fun hin => hold (List.mem_append_left _ hin)) id
    · exact hold (List.mem_append_right _ hsent)

/-! ## Sending -/

/-- A fetch is not sent while its block is being evicted. -/
theorem takeMisses_spec (theEvictSet : Finset Nat) (room : Nat) (queue : List MemoryTransport) :
    (takeMisses c theEvictSet room queue).1 ++ (takeMisses c theEvictSet room queue).2 = queue ∧
      ∀ a ∈ fetchesOf (takeMisses c theEvictSet room queue).1, c.blockAddr a ∉ theEvictSet := by
  fun_induction takeMisses c theEvictSet room queue with
  | case1 queue => exact ⟨rfl, nofun⟩
  | case2 room => exact ⟨rfl, nofun⟩
  | case3 room first queue hheld => exact ⟨rfl, nofun⟩
  | case4 room first queue hfree ih =>
    refine ⟨by rw [List.cons_append, ih.1], fun a ha => ?_⟩
    obtain ⟨m, hm, hsome⟩ := List.mem_filterMap.mp ha
    obtain rfl | hrest := List.mem_cons.mp hm
    · split at hsome
      · next hfetch =>
        cases hsome
        exact fun hin => hfree ⟨by rw [nCMPCache.MemoryMessage.isEvictType, hfetch]; rfl, hin⟩
      · cases hsome
    · exact ih.2 a (List.mem_filterMap.mpr ⟨m, hrest, hsome⟩)

theorem Uncrossed.send (h : st.Uncrossed) (missRoom snoopRoom replyRoom : Nat) :
    let sent := st.unit.sendMisses missRoom snoopRoom replyRoom
    Uncrossed ⟨sent.1, st.fetching ++ fetchesOf sent.2.misses⟩ := by
  obtain ⟨hsplit, hfree⟩ := takeMisses_spec (c := c) st.unit.theEvictSet missRoom st.unit.theMissQueue
  refine ⟨h.apart, fun a ha => (List.mem_append.mp ha).elim (h.fetching a) (hfree a), fun a ha => h.missing a ?_⟩
  rw [fetches, ← hsplit, fetchesOf, List.filterMap_append]
  simp only [fetches, sendMisses, fetchesOf, List.mem_append] at ha ⊢
  tauto

/-! ## Filling -/

theorem issueEvict_victim {s : UFetch c} {v : Option Nat} (hout : ∀ k ∈ v, c.addrOf k ∉ s.theEvictSet) :
    ∃ s', s.issueEvict ((v.map c.addrOf).getD 0) = .ok s' ∧ s'.theI = s.theI ∧
      fetchesOf s'.theMissQueue = fetchesOf s.theMissQueue ∧
      ∀ k, c.addrOf k ∈ s'.theEvictSet → c.addrOf k ∈ s.theEvictSet ∨ v = some k := by
  unfold issueEvict
  split
  · next hevicts =>
    cases v with
    | none => exact absurd rfl hevicts.2
    | some k =>
      rw [Option.map_some, Option.getD_some, if_neg (hout k rfl)]
      split
      all_goals
        refine ⟨_, rfl, rfl, by simp [fetchesOf, evictMessage], fun j hj => ?_⟩
        obtain heq | hin := Finset.mem_insert.mp hj
        · exact .inr (congrArg some (FetchConfig.addrOf_injective heq).symm)
        · exact .inl hin
  · exact ⟨s, rfl, rfl, rfl, fun _ => .inl⟩

/-- The block that a fill displaces is evicted once, and the one that it brings was neither in the
    cache nor being evicted. -/
theorem Uncrossed.fill (h : st.Uncrossed) {t : MemoryTransport} (hfetched : t.msg.address ∈ st.fetching)
    (hsingle : (st.fetches.map c.keyOf).Nodup) :
    Yields (· ≠ .evictOutstanding) (st.unit.fill t) fun unit => Uncrossed ⟨unit, st.fetching.erase t.msg.address⟩ := by
  generalize ha : t.msg.address = a at hfetched ⊢
  have hout := h.missing _ (List.mem_append_right _ hfetched)
  have hinsert : st.unit.insert a = (((st.unit.theI.victim (c.keyOf a)).map c.addrOf).getD 0,
      { st.unit with theI := (st.unit.theI.insert a).2 }) := by
    simp [UFetch.insert, UFetch.lookup, hout, SimCache.victim_lookup, SimCache.insert_fst]
  have hhas : ∀ {k}, st.unit.theI.victim (c.keyOf a) = some k → st.unit.theI.has k = true := SimCache.has_of_victim
  obtain ⟨sEvict, hok, htheI, hfetches, hset⟩ :=
    issueEvict_victim (s := { st.unit with theI := (st.unit.theI.insert a).2 }) fun k hk => h.apart k (hhas hk)
  have hother : ∀ b ∈ fetchesOf st.unit.theMissQueue ++ st.fetching.erase a, b ∈ st.fetches ∧ c.keyOf b ≠ c.keyOf a := by
    have hfront : st.fetches.Perm (a :: (fetchesOf st.unit.theMissQueue ++ st.fetching.erase a)) :=
      ((List.perm_cons_erase hfetched).append_left _).trans List.perm_middle
    have hnodup := (hfront.map c.keyOf).nodup_iff.mp hsingle
    exact fun b hb => ⟨hfront.mem_iff.mpr (List.mem_cons_of_mem _ hb), fun heq =>
      (List.nodup_cons.mp hnodup).1 (List.mem_map.mpr ⟨b, hb, heq⟩)⟩
  have hfilled : Uncrossed ⟨sEvict, st.fetching.erase a⟩ := by
    refine ⟨fun k hk hin => ?_, fun b hb hin => ?_, fun b hb => ?_⟩
    · rw [htheI, SimCache.has_insert hout] at hk
      obtain rfl | ⟨hk, hstays⟩ := hk
      · obtain hold | hvictim := hset _ hin
        · exact h.fetching _ hfetched hold
        · exact Bool.false_ne_true (hout.symm.trans (hhas hvictim))
      · exact (hset _ hin).elim (h.apart k hk) hstays
    · have hold := List.mem_append_right (fetchesOf st.unit.theMissQueue) (List.mem_of_mem_erase hb)
      obtain hset | hvictim := hset _ hin
      · exact h.fetching b (List.mem_of_mem_erase hb) hset
      · exact Bool.false_ne_true ((h.missing b hold).symm.trans (hhas hvictim))
    · rw [fetches, hfetches] at hb
      obtain ⟨hold, hne⟩ := hother b hb
      rw [htheI]
      refine Bool.eq_false_iff.mpr fun hk => ?_
      obtain heq | ⟨hk, -⟩ := (SimCache.has_insert hout).mp hk
      · exact hne heq
      · exact Bool.false_ne_true ((h.missing b hold).symm.trans hk)
  unfold UFetch.fill
  dsimp only
  rw [ha, hinsert]
  refine Yields.bind (P := fun s => Uncrossed ⟨s, _⟩) (.of_eq_ok hok hfilled) fun sEvict hfilled => ?_
  refine (keeps_ackFill _ t).weaken fun _ hkeep => hfilled.keep (.trans ?_ hkeep)
  exact { Keeps.refl sEvict with }

/-! ## Runs -/

theorem Uncrossed.receive (h : st.Uncrossed) {t : MemoryTransport} (hmeets : st.Meets (.FetchMissIn t)) :
    Yields (· ≠ .evictOutstanding) (st.unit.fetchReply t) fun unit =>
      Uncrossed ⟨unit, (Event.FetchMissIn t).fills.elim st.fetching st.fetching.erase⟩ := by
  have hkept : ∀ {x : Except FetchFault _}, (Event.FetchMissIn t).fills = none → Yields (· ≠ .evictOutstanding) x (Keeps st.unit) →
      Yields (· ≠ .evictOutstanding) x fun unit =>
        Uncrossed ⟨unit, (Event.FetchMissIn t).fills.elim st.fetching st.fetching.erase⟩ := by
    intro x hnone hx
    rw [hnone]
    exact hx.weaken fun _ hkeep => h.keep hkeep
  unfold UFetch.fetchReply
  dsimp only
  split
  case h_1 htype | h_2 htype | h_3 htype | h_4 htype | h_5 htype =>
    have hfills : (Event.FetchMissIn t).fills = some t.msg.address := by simp [Event.fills, htype]
    rw [hfills]
    exact h.fill (hmeets.answers _ hfills) hmeets.single
  case h_6 htype =>
    exact hkept (by simp [Event.fills, htype]) (.ok ((keeps_inval _).trans (keeps_queueSnoopMessage ..)))
  case h_7 htype | h_8 htype => exact hkept (by simp [Event.fills, htype]) (.ok (keeps_queueSnoopMessage ..))
  case h_9 htype | h_10 htype =>
    exact hkept (by simp [Event.fills, htype])
      ((keeps_answerForward ..).weaken fun _ => (looked_lookup _).keeps.trans)
  case h_11 htype =>
    exact hkept (by simp [Event.fills, htype]) ((keeps_answerForward ..).weaken fun _ => (keeps_inval _).trans)
  case h_12 htype =>
    refine hkept (by simp [Event.fills, htype]) (.ite (fun _ => .error nofun) fun _ => .ok ?_)
    exact (keeps_inval _).trans (keeps_queueSnoopMessage ..)
  case h_13 htype =>
    refine hkept (by simp [Event.fills, htype]) (.ite (fun _ => .ok ?_) fun _ => .error nofun)
    exact { Keeps.refl st.unit with evicts := fun _ => Finset.mem_of_mem_erase }
  case h_14 => exact .error nofun

/-- Taking addresses from the queue asks for blocks that are absent, and evicts nothing. -/
theorem keeps_doFetch {translateVirtualAddress : Nat → Nat → Nat} {i available_fiq : Nat} {quiescing : Bool}
    (s : UFetch c) :
    Yields (· ≠ .evictOutstanding) (s.doFetch translateVirtualAddress i available_fiq quiescing)
      fun fetched => Keeps s fetched.1 := by
  refine .of_ok (fun f hfetch => ?_) fun (s', sent) hfetch => ?_
  · unfold UFetch.doFetch at hfetch
    split at hfetch
    · cases hfetch
    split at hfetch
    · obtain hlookup | ⟨rfl, -⟩ := fetchLoop_eq_error List.nodup_nil (Nat.zero_le _) (map_eq_error.mp hfetch)
      · rcases hlookup with rfl | rfl | rfl
        all_goals exact nofun
      · exact nofun
    · cases hfetch
  · obtain ⟨l, sTook, htook, hsent | hsent⟩ := took_doFetch hfetch
    all_goals
      cases hsent
      exact { htook.keeps with }

theorem Uncrossed.step (h : st.Uncrossed) {e : Event} (hmeets : st.Meets e) :
    Yields (· ≠ .evictOutstanding) (st.step e) Uncrossed := by
  have hunit : Yields (· ≠ .evictOutstanding) (st.unit.step e) fun stepped =>
      Uncrossed ⟨stepped.1, e.fills.elim st.fetching st.fetching.erase ++ fetchesOf stepped.2.misses⟩ := by
    cases e with
    | uFetchDrive td available_fiq quiescing translateVirtualAddress missRoom snoopRoom replyRoom =>
      exact (keeps_doFetch st.unit).map fun _ hkeep => (h.keep hkeep).send missRoom snoopRoom replyRoom
    | FetchMissIn t => exact (h.receive hmeets).map fun _ hst => by simpa [fetchesOf] using hst
    | iTranslationIn theID instruction =>
      have hpush : Yields (· ≠ .evictOutstanding) (st.unit.pushTranslation theID instruction) (Keeps st.unit) := by
        unfold UFetch.pushTranslation UFetch.getFetchResponse
        repeat' split
        all_goals first
          | exact .error nofun
          | exact .ok { Keeps.refl st.unit with }
      exact hpush.map fun _ hkeep => by simpa [fetchesOf, Event.fills] using h.keep hkeep
    | FetchAddressIn | SquashIn | ResyncIn =>
      refine .ok ?_
      simp only [Event.fills, Option.elim_none, fetchesOf, List.filterMap_nil, List.append_nil]
      exact h.keep { Keeps.refl st.unit with }
  exact hunit.map fun _ hst => hst

/-- A block that is being evicted is not in the cache, memory has no fetch of it to answer, and no
    fill evicts it again. -/
theorem evictions_do_not_cross {theI : SimCache c} (h : Reaches step Meets (start theI) st) :
    (∀ k, st.unit.theI.has k = true → c.addrOf k ∉ st.unit.theEvictSet) ∧
      (∀ a ∈ st.fetching, c.blockAddr a ∉ st.unit.theEvictSet) ∧
      (∀ a ∈ st.fetches, st.unit.theI.has (c.keyOf a) = false) ∧
      ∀ e, st.Meets e → st.step e ≠ .error .evictOutstanding := by
  have hst : st.Uncrossed := h.invariant
    ⟨fun _ _ => Finset.notMem_empty _, fun _ h => (List.not_mem_nil h).elim, fun _ h => (List.not_mem_nil h).elim⟩
    fun _ _ _ hbefore hmeets hok => (hbefore.step hmeets).1 _ hok
  exact ⟨hst.apart, hst.fetching, hst.missing, fun _ hmeets herror => (hst.step hmeets).2 _ herror rfl⟩

instance (e : Event) : Decidable (st.Meets e) :=
  decidable_of_iff ((∀ a ∈ e.fills, a ∈ st.fetching) ∧ (st.fetches.map c.keyOf).Nodup)
    ⟨fun h => ⟨h.1, h.2⟩, fun h => ⟨h.answers, h.single⟩⟩

/-- A fetch unit with room for one line. -/
def oneLine : FetchConfig :=
  { Stream.perfect with
    PerfectICache := false
    CleanEvict := true
    Size := 64
    Associativity := 1
    associativity_pos := Nat.one_pos }

/-- The second line displaces the first, and the next fetch of the first one waits for its eviction. -/
theorem evictions_do_not_cross_waiting :
    ∃ st : Exchange oneLine, Reaches step Meets (start .empty) st ∧ 0x1000 ∈ st.unit.theEvictSet ∧
      0x1000 ∈ st.fetches ∧ 0x1000 ∉ st.fetching ∧ ∀ e, st.Meets e → st.step e ≠ .error .evictOutstanding := by
  have hrun : (runWhile step (fun st e => decide (st.Meets e)) (start (c := oneLine) .empty)
      [.FetchAddressIn 0 [⟨0x1000, 0⟩, ⟨0x2000, 0⟩, ⟨0x1000, 0⟩], .uFetchDrive 0 10 false (fun _ vaddr => vaddr) 4 4 4,
        .FetchMissIn ⟨{ type := .FetchReply, address := 0x1000, reqSize := 64 }, none⟩,
        .uFetchDrive 0 10 false (fun _ vaddr => vaddr) 4 4 4,
        .FetchMissIn ⟨{ type := .FetchReply, address := 0x2000, reqSize := 64 }, none⟩,
        .uFetchDrive 0 10 false (fun _ vaddr => vaddr) 4 4 4]).any
      (fun st => decide (0x1000 ∈ st.unit.theEvictSet ∧ 0x1000 ∈ st.fetches ∧ 0x1000 ∉ st.fetching)) = true := by
    decide +kernel
  obtain ⟨st, hreach, hend⟩ := exists_reaches (fun _ _ h => of_decide_eq_true h) hrun
  have hwaits := of_decide_eq_true hend
  exact ⟨st, hreach, hwaits.1, hwaits.2.1, hwaits.2.2, (evictions_do_not_cross hreach).2.2.2⟩

end Exchange

end nuFetch
