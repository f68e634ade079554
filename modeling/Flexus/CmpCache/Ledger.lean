import Flexus.CmpCache.Faults

/-!
# The ledger of the controller

Every counter of reserved places is the sum of what the live processes hold, and for the cache
evict buffer of what the miss address file and the directory evict buffer hold too.
-/

namespace nCMPCache

open Runs

namespace MessageQueue

variable {q : MessageQueue} {n k : Nat} {t : MemoryTransport}

/-- The reservations are the messages in the queue and the given number of free places. -/
structure Holds (q : MessageQueue) (n : Nat) : Prop where
  usage : q.theCurrentUsage = q.theQueue.length
  reserve : q.theCurrentReserve = q.theCurrentUsage + n
  fits : q.theCurrentReserve ≤ q.theSize
  small : q.theSize < 2 ^ 32

theorem Holds.more (h : q.Holds n) (hspace : q.hasSpace k = true) :
    ∃ q', q.reserve k = .ok q' ∧ q'.Holds (n + k) := by
  obtain ⟨husage, hreserve, hfits, hsmall⟩ := h
  simp only [hasSpace, decide_eq_true_eq] at hspace
  have hmod : (q.theCurrentReserve + k) % 2 ^ 32 = q.theCurrentReserve + k := Nat.mod_eq_of_lt (by omega)
  refine ⟨{ q with theCurrentReserve := q.theCurrentReserve + k }, ?_, husage, ?_, hspace, hsmall⟩
  · rw [MessageQueue.reserve, hmod, check, if_pos]
    exact ⟨by dsimp only; omega, hspace⟩
  · dsimp only
    omega

theorem Holds.fewer (h : q.Holds (n + k)) :
    ∃ q', q.unreserve k = .ok q' ∧ q'.Holds n ∧ q'.theCurrentReserve + k ≤ q'.theSize := by
  obtain ⟨husage, hreserve, hfits, hsmall⟩ := h
  have hmod : (q.theCurrentReserve + (2 ^ 32 - k)) % 2 ^ 32 = q.theCurrentReserve - k := by
    have hsum : q.theCurrentReserve + (2 ^ 32 - k) = q.theCurrentReserve - k + 2 ^ 32 := by omega
    rw [hsum, Nat.add_mod_right]
    exact Nat.mod_eq_of_lt (by omega)
  refine ⟨{ q with theCurrentReserve := q.theCurrentReserve - k }, ?_, ⟨husage, ?_, ?_, hsmall⟩, ?_⟩
  · rw [unreserve, hmod, if_pos (by omega)]
  · dsimp only
    omega
  · dsimp only
    omega
  · dsimp only
    omega

/-- A message is sent into a place that was just given back. -/
theorem Holds.send (h : q.Holds n) (hspace : q.theCurrentReserve + (k + 1) ≤ q.theSize) :
    ∃ q', q.enqueue t = .ok q' ∧ q'.Holds n ∧ q'.theCurrentReserve + k ≤ q'.theSize := by
  obtain ⟨husage, hreserve, hfits, hsmall⟩ := h
  have husageMod : (q.theCurrentUsage + 1) % 2 ^ 32 = q.theCurrentUsage + 1 := Nat.mod_eq_of_lt (by omega)
  have hreserveMod : (q.theCurrentReserve + 1) % 2 ^ 32 = q.theCurrentReserve + 1 :=
    Nat.mod_eq_of_lt (by omega)
  refine ⟨{ q with
    theQueue := q.theQueue ++ [t]
    theCurrentUsage := q.theCurrentUsage + 1
    theCurrentReserve := q.theCurrentReserve + 1 }, ?_, ⟨?_, ?_, ?_, hsmall⟩, ?_⟩
  · rw [enqueue, husageMod, hreserveMod, check, if_pos]
    dsimp only
    omega
  · dsimp only
    rw [List.length_append, List.length_singleton, husage]
  · dsimp only
    omega
  · dsimp only
    omega
  · dsimp only
    omega

theorem Holds.dequeue (h : q.Holds n) : q.dequeue.Holds n := by
  obtain ⟨husage, hreserve, hfits, hsmall⟩ := h
  unfold MessageQueue.dequeue
  split
  · exact ⟨husage, hreserve, hfits, hsmall⟩
  · next t rest hqueue =>
    rw [hqueue, List.length_cons] at husage
    refine ⟨?_, ?_, ?_, hsmall⟩ <;> dsimp only <;> omega

theorem holds_create (hsmall : n < 2 ^ 32) : (create n).Holds 0 := ⟨rfl, rfl, Nat.zero_le _, hsmall⟩

end MessageQueue

namespace Controller

variable {cfg : CMPCacheInfo} {c c' : Controller cfg} {p q : ProcessEntry} {rest : List ProcessEntry} {n : Nat}

/-- A process that carries the invalidates for a block of the directory evict buffer. Its
    place in the cache evict buffer is the one that the block holds. -/
def recalls (p : ProcessEntry) : Bool :=
  (p.type == .eProcDirEvict || p.type == .eProcIdleWork) && p.transport.msg.type == .BackInvalidate

/-- The places in the cache evict buffer that a process holds for itself. -/
def counted (p : ProcessEntry) : Int := if recalls p then 0 else p.cacheEBReserved

/-- The counters of the controller agree with what the given processes hold. -/
structure Balanced (c : Controller cfg) (live : List ProcessEntry) : Prop where
  snoops : c.SnoopOut.Holds (live.map ProcessEntry.snoopOutReserved).sum
  replies : c.ReplyOut.Holds (live.map ProcessEntry.replyOutReserved).sum
  requests : c.RequestOut.Holds (live.map ProcessEntry.reqOutReserved).sum
  mafs : c.mafReserve = live.countP ProcessEntry.mafReserved
  dirEB : c.dirEBReserve = (live.map ProcessEntry.dirEBReserved).sum
  cacheEB : c.cacheEBReserve = (live.map counted).sum + c.thePolicy.held
  nonneg : ∀ x ∈ live, 0 ≤ x.dirEBReserved ∧ 0 ≤ x.cacheEBReserved
  thrifty : c.thePolicy.Thrifty

theorem counted_nonneg (h : 0 ≤ p.cacheEBReserved) : 0 ≤ counted p := by
  unfold counted
  split
  · exact le_rfl
  · exact h

theorem Balanced.perm {live live' : List ProcessEntry} (h : Balanced c live) (hperm : live.Perm live') :
    Balanced c live' := by
  obtain ⟨hsnoops, hreplies, hrequests, hmafs, hdir, hcache, hnonneg, hthrifty⟩ := h
  rw [(hperm.map _).sum_eq] at hsnoops hreplies hrequests hdir hcache
  rw [hperm.countP_eq] at hmafs
  exact ⟨hsnoops, hreplies, hrequests, hmafs, hdir, hcache, fun x hx => hnonneg x (hperm.mem_iff.mpr hx), hthrifty⟩

/-- A process without reservations. -/
structure Empty (p : ProcessEntry) : Prop where
  slots : p.slots = (p.type, 0, 0, 0, false, 0)
  cacheEB : p.cacheEBReserved = 0

theorem Empty.fields (h : Empty p) : p.snoopOutReserved = 0 ∧ p.reqOutReserved = 0 ∧ p.replyOutReserved = 0 ∧
    p.mafReserved = false ∧ p.dirEBReserved = 0 ∧ counted p = 0 := by
  have hslots := h.slots
  simp only [ProcessEntry.slots, Prod.mk.injEq, true_and] at hslots
  refine ⟨hslots.1, hslots.2.1, hslots.2.2.1, hslots.2.2.2.1, hslots.2.2.2.2, ?_⟩
  rw [counted, h.cacheEB, ite_self]

/-- Processes without reservations do not matter. -/
theorem balanced_cons_empty (hempty : Empty p) : Balanced c (p :: rest) ↔ Balanced c rest := by
  obtain ⟨hsnoop, hreq, hreply, hmaf, hdirEB, hcounted⟩ := hempty.fields
  have hboth : ∀ {live}, (∀ x ∈ p :: live, 0 ≤ x.dirEBReserved ∧ 0 ≤ x.cacheEBReserved) ↔
      ∀ x ∈ live, 0 ≤ x.dirEBReserved ∧ 0 ≤ x.cacheEBReserved := by
    intro live
    refine ⟨fun h x hx => h x (List.mem_cons_of_mem _ hx), fun h x hx => ?_⟩
    rcases List.mem_cons.mp hx with rfl | hx
    · exact ⟨hdirEB.ge, hempty.cacheEB.ge⟩
    · exact h x hx
  constructor
  · rintro ⟨h₁, h₂, h₃, h₄, h₅, h₆, h₇, h₈⟩
    simp only [List.map_cons, List.sum_cons, hsnoop, hreq, hreply, hdirEB, hcounted, zero_add] at h₁ h₂ h₃ h₅ h₆
    rw [List.countP_cons_of_neg (by simp [hmaf])] at h₄
    exact ⟨h₁, h₂, h₃, h₄, h₅, h₆, hboth.mp h₇, h₈⟩
  · rintro ⟨h₁, h₂, h₃, h₄, h₅, h₆, h₇, h₈⟩
    refine ⟨?_, ?_, ?_, ?_, ?_, ?_, hboth.mpr h₇, h₈⟩
    · simpa only [List.map_cons, List.sum_cons, hsnoop, zero_add] using h₁
    · simpa only [List.map_cons, List.sum_cons, hreply, zero_add] using h₂
    · simpa only [List.map_cons, List.sum_cons, hreq, zero_add] using h₃
    · rw [List.countP_cons_of_neg (by simp [hmaf])]
      exact h₄
    · simpa only [List.map_cons, List.sum_cons, hdirEB, zero_add] using h₅
    · simpa only [List.map_cons, List.sum_cons, hcounted, zero_add] using h₆

/-! ## Reserving and giving back -/

theorem Balanced.nonneg_cons (h : Balanced c (p :: rest)) (hq : 0 ≤ q.dirEBReserved ∧ 0 ≤ q.cacheEBReserved) :
    ∀ x ∈ q :: rest, 0 ≤ x.dirEBReserved ∧ 0 ≤ x.cacheEBReserved := by
  intro x hx
  rcases List.mem_cons.mp hx with rfl | hx
  · exact hq
  · exact h.nonneg x (List.mem_cons_of_mem _ hx)

theorem Balanced.withSnoops {Q : MessageQueue} {k : Nat} (h : Balanced c (p :: rest))
    (hQ : Q.Holds (k + (rest.map ProcessEntry.snoopOutReserved).sum)) :
    Balanced { c with SnoopOut := Q } ({ p with snoopOutReserved := k } :: rest) :=
  ⟨hQ, h.replies, h.requests, h.mafs.trans (by simp [List.countP_cons]), h.dirEB, h.cacheEB,
    h.nonneg_cons (h.nonneg p List.mem_cons_self), h.thrifty⟩

theorem Balanced.withReplies {Q : MessageQueue} {k : Nat} (h : Balanced c (p :: rest))
    (hQ : Q.Holds (k + (rest.map ProcessEntry.replyOutReserved).sum)) :
    Balanced { c with ReplyOut := Q } ({ p with replyOutReserved := k } :: rest) :=
  ⟨h.snoops, hQ, h.requests, h.mafs.trans (by simp [List.countP_cons]), h.dirEB, h.cacheEB,
    h.nonneg_cons (h.nonneg p List.mem_cons_self), h.thrifty⟩

theorem Balanced.withRequests {Q : MessageQueue} {k : Nat} (h : Balanced c (p :: rest))
    (hQ : Q.Holds (k + (rest.map ProcessEntry.reqOutReserved).sum)) :
    Balanced { c with RequestOut := Q } ({ p with reqOutReserved := k } :: rest) :=
  ⟨h.snoops, h.replies, hQ, h.mafs.trans (by simp [List.countP_cons]), h.dirEB, h.cacheEB,
    h.nonneg_cons (h.nonneg p List.mem_cons_self), h.thrifty⟩

/-- The process gets so many places for snoops. -/
theorem Balanced.reserveSnoopOut (h : Balanced c (p :: rest)) (hspace : c.SnoopOut.hasSpace n = true)
    (hzero : p.snoopOutReserved = 0) (hn : n < 256) :
    ∃ Q, Controller.reserveSnoopOut n (c, p) = .ok ({ c with SnoopOut := Q }, { p with snoopOutReserved := n }) ∧
      Balanced { c with SnoopOut := Q } ({ p with snoopOutReserved := n } :: rest) := by
  obtain ⟨Q, hreserve, hQ⟩ := h.snoops.more hspace
  rw [List.map_cons, List.sum_cons, hzero, zero_add, add_comm] at hQ
  refine ⟨Q, ?_, h.withSnoops hQ⟩
  rw [Controller.reserveSnoopOut, hreserve, hzero, zero_add, Nat.mod_eq_of_lt hn]
  rfl

theorem Balanced.reserveReplyOut (h : Balanced c (p :: rest)) (hspace : c.ReplyOut.hasSpace n = true)
    (hzero : p.replyOutReserved = 0) (hn : n < 256) :
    ∃ Q, Controller.reserveReplyOut n (c, p) = .ok ({ c with ReplyOut := Q }, { p with replyOutReserved := n }) ∧
      Balanced { c with ReplyOut := Q } ({ p with replyOutReserved := n } :: rest) := by
  obtain ⟨Q, hreserve, hQ⟩ := h.replies.more hspace
  rw [List.map_cons, List.sum_cons, hzero, zero_add, add_comm] at hQ
  refine ⟨Q, ?_, h.withReplies hQ⟩
  rw [Controller.reserveReplyOut, hreserve, hzero, zero_add, Nat.mod_eq_of_lt hn]
  rfl

theorem Balanced.reserveRequestOut (h : Balanced c (p :: rest)) (hspace : c.RequestOut.hasSpace n = true)
    (hzero : p.reqOutReserved = 0) (hn : n < 256) :
    ∃ Q, Controller.reserveRequestOut n (c, p) = .ok ({ c with RequestOut := Q }, { p with reqOutReserved := n }) ∧
      Balanced { c with RequestOut := Q } ({ p with reqOutReserved := n } :: rest) := by
  obtain ⟨Q, hreserve, hQ⟩ := h.requests.more hspace
  rw [List.map_cons, List.sum_cons, hzero, zero_add, add_comm] at hQ
  refine ⟨Q, ?_, h.withRequests hQ⟩
  rw [Controller.reserveRequestOut, hreserve, hzero, zero_add, Nat.mod_eq_of_lt hn]
  rfl

/-- One place in the directory evict buffer. -/
theorem Balanced.reserveDirEB (h : Balanced c (p :: rest)) (hzero : p.dirEBReserved = 0)
    (hspace : c.thePolicy.theDirEvictBuffer.full c.dirEBReserve = false) :
    Controller.reserveDirEB 1 (c, p) =
        .ok ({ c with dirEBReserve := c.dirEBReserve + 1 }, { p with dirEBReserved := 1 }) ∧
      Balanced { c with dirEBReserve := c.dirEBReserve + 1 } ({ p with dirEBReserved := 1 } :: rest) := by
  constructor
  · simp only [DirEvictBuffer.full, decide_eq_false_iff_not, not_le] at hspace
    rw [Controller.reserveDirEB, if_pos (by dsimp only; omega), hzero, zero_add]
  · refine ⟨h.snoops, h.replies, h.requests, h.mafs.trans (by simp [List.countP_cons]), ?_, h.cacheEB,
      h.nonneg_cons ⟨zero_le_one, (h.nonneg p List.mem_cons_self).2⟩, h.thrifty⟩
    have hsum := h.dirEB
    rw [List.map_cons, List.sum_cons, hzero, zero_add] at hsum
    rw [List.map_cons, List.sum_cons, ← hsum, add_comm]

/-- One place in the cache evict buffer, for a process that counts it. -/
theorem Balanced.reserveCacheEB (h : Balanced c (p :: rest)) (hzero : p.cacheEBReserved = 0)
    (hspace : c.CacheEBHasSpace = true) (hown : recalls p = false) :
    Controller.reserveCacheEB 1 (c, p) =
        .ok ({ c with cacheEBReserve := c.cacheEBReserve + 1 }, { p with cacheEBReserved := 1 }) ∧
      Balanced { c with cacheEBReserve := c.cacheEBReserve + 1 } ({ p with cacheEBReserved := 1 } :: rest) := by
  constructor
  · simp only [CacheEBHasSpace, Policy.CacheEBHasSpace, CacheEvictBuffer.full, Bool.not_eq_true',
      decide_eq_false_iff_not, not_le] at hspace
    rw [Controller.reserveCacheEB, if_pos (by dsimp only; omega), hzero, zero_add]
  · refine ⟨h.snoops, h.replies, h.requests, h.mafs.trans (by simp [List.countP_cons]), h.dirEB, ?_,
      h.nonneg_cons ⟨(h.nonneg p List.mem_cons_self).1, zero_le_one⟩, h.thrifty⟩
    have hsum := h.cacheEB
    have hbefore : counted p = 0 := by rw [counted, hzero, ite_self]
    have hafter : counted { p with cacheEBReserved := 1 } = 1 :=
      if_neg (by rw [show recalls { p with cacheEBReserved := 1 } = recalls p from rfl, hown]; simp)
    rw [List.map_cons, List.sum_cons, hbefore, zero_add] at hsum
    rw [List.map_cons, List.sum_cons, hafter]
    dsimp only
    omega

theorem Balanced.reserveMAF (h : Balanced c (p :: rest)) (hnone : p.mafReserved = false)
    (hspace : c.thePolicy.theMAF.full c.mafReserve = false) :
    Controller.reserveMAF (c, p) =
        .ok ({ c with mafReserve := c.mafReserve + 1 }, { p with mafReserved := true }) ∧
      Balanced { c with mafReserve := c.mafReserve + 1 } ({ p with mafReserved := true } :: rest) := by
  constructor
  · rw [Controller.reserveMAF, if_neg (by simp [hspace])]
  · refine ⟨h.snoops, h.replies, h.requests, ?_, h.dirEB, h.cacheEB,
      h.nonneg_cons (h.nonneg p List.mem_cons_self), h.thrifty⟩
    have hcount := h.mafs
    rw [List.countP_cons_of_neg (by simp [hnone])] at hcount
    rw [List.countP_cons_of_pos rfl, hcount]
    push_cast
    rfl

/-- Places for snoops go back; they are free for messages at once. -/
theorem Balanced.unreserveSnoopOut (h : Balanced c (p :: rest)) (hn : n ≤ p.snoopOutReserved) :
    ∃ Q, Controller.unreserveSnoopOut n (c, p) =
        .ok ({ c with SnoopOut := Q }, { p with snoopOutReserved := p.snoopOutReserved - n }) ∧
      Balanced { c with SnoopOut := Q } ({ p with snoopOutReserved := p.snoopOutReserved - n } :: rest) ∧
      Q.theCurrentReserve + n ≤ Q.theSize := by
  have hsum := h.snoops
  rw [List.map_cons, List.sum_cons, show p.snoopOutReserved + (rest.map ProcessEntry.snoopOutReserved).sum =
    p.snoopOutReserved - n + (rest.map ProcessEntry.snoopOutReserved).sum + n by omega] at hsum
  obtain ⟨Q, hunreserve, hQ, hspace⟩ := hsum.fewer
  unfold Controller.unreserveSnoopOut
  by_cases hzero : n = 0
  · subst hzero
    refine ⟨c.SnoopOut, by rw [if_pos rfl]; rfl, h, h.snoops.fits⟩
  · refine ⟨Q, ?_, h.withSnoops hQ, hspace⟩
    rw [if_neg hzero, if_neg (Nat.not_lt.mpr hn), hunreserve]
    rfl

theorem Balanced.unreserveReplyOut (h : Balanced c (p :: rest)) (hone : p.replyOutReserved = 1) :
    ∃ Q, Controller.unreserveReplyOut 1 (c, p) =
        .ok ({ c with ReplyOut := Q }, { p with replyOutReserved := 0 }) ∧
      Balanced { c with ReplyOut := Q } ({ p with replyOutReserved := 0 } :: rest) ∧
      Q.theCurrentReserve + 1 ≤ Q.theSize := by
  have hsum := h.replies
  rw [List.map_cons, List.sum_cons, hone, add_comm] at hsum
  obtain ⟨Q, hunreserve, hQ, hspace⟩ := hsum.fewer
  refine ⟨Q, ?_, h.withReplies (by rwa [zero_add]), hspace⟩
  rw [Controller.unreserveReplyOut, hunreserve, hone]
  rfl

theorem Balanced.unreserveRequestOut (h : Balanced c (p :: rest)) (hone : p.reqOutReserved = 1) :
    ∃ Q, Controller.unreserveRequestOut 1 (c, p) =
        .ok ({ c with RequestOut := Q }, { p with reqOutReserved := 0 }) ∧
      Balanced { c with RequestOut := Q } ({ p with reqOutReserved := 0 } :: rest) ∧
      Q.theCurrentReserve + 1 ≤ Q.theSize := by
  have hsum := h.requests
  rw [List.map_cons, List.sum_cons, hone, add_comm] at hsum
  obtain ⟨Q, hunreserve, hQ, hspace⟩ := hsum.fewer
  refine ⟨Q, ?_, h.withRequests (by rwa [zero_add]), hspace⟩
  rw [Controller.unreserveRequestOut, hunreserve, hone]
  rfl

theorem sum_nonneg_of_balanced (h : Balanced c (p :: rest)) :
    0 ≤ (rest.map ProcessEntry.dirEBReserved).sum ∧ 0 ≤ (rest.map counted).sum := by
  have hrest : ∀ x ∈ rest, 0 ≤ x.dirEBReserved ∧ 0 ≤ x.cacheEBReserved :=
    fun x hx => h.nonneg x (List.mem_cons_of_mem _ hx)
  constructor
  · refine List.sum_nonneg fun k hk => ?_
    obtain ⟨x, hx, rfl⟩ := List.mem_map.mp hk
    exact (hrest x hx).1
  · refine List.sum_nonneg fun k hk => ?_
    obtain ⟨x, hx, rfl⟩ := List.mem_map.mp hk
    exact counted_nonneg (hrest x hx).2

/-- The places in both evict buffers go back. -/
theorem Balanced.unreserveEB (h : Balanced c (p :: rest)) (hown : counted p = p.cacheEBReserved) :
    ∃ d k, Controller.unreserveEB (c, p) = .ok ({ c with dirEBReserve := d, cacheEBReserve := k },
        { p with dirEBReserved := 0, cacheEBReserved := 0 }) ∧
      Balanced { c with dirEBReserve := d, cacheEBReserve := k }
        ({ p with dirEBReserved := 0, cacheEBReserved := 0 } :: rest) := by
  obtain ⟨hdirRest, hcacheRest⟩ := sum_nonneg_of_balanced h
  have hheld := h.thrifty.held_nonneg
  have hdir := h.dirEB
  have hcache := h.cacheEB
  rw [List.map_cons, List.sum_cons] at hdir hcache
  rw [hown] at hcache
  refine ⟨c.dirEBReserve - p.dirEBReserved, c.cacheEBReserve - p.cacheEBReserved, ?_, ?_⟩
  · rw [Controller.unreserveEB, if_neg]
    dsimp only
    omega
  · have hnow : counted { p with dirEBReserved := 0, cacheEBReserved := 0 } = 0 := ite_self _
    refine ⟨h.snoops, h.replies, h.requests, h.mafs.trans (by simp [List.countP_cons]), ?_, ?_,
      h.nonneg_cons ⟨le_rfl, le_rfl⟩, h.thrifty⟩
    · rw [List.map_cons, List.sum_cons]
      dsimp only
      omega
    · rw [List.map_cons, List.sum_cons, hnow]
      dsimp only
      omega

theorem Balanced.unreserveMAF (h : Balanced c (p :: rest)) (hmaf : p.mafReserved = true) :
    Controller.unreserveMAF (c, p) =
        .ok ({ c with mafReserve := c.mafReserve - 1 }, { p with mafReserved := false }) ∧
      Balanced { c with mafReserve := c.mafReserve - 1 } ({ p with mafReserved := false } :: rest) := by
  have hcount := h.mafs
  rw [List.countP_cons_of_pos hmaf] at hcount
  push_cast at hcount
  constructor
  · rw [Controller.unreserveMAF, if_neg]
    dsimp only
    omega
  · refine ⟨h.snoops, h.replies, h.requests, ?_, h.dirEB, h.cacheEB,
      h.nonneg_cons (h.nonneg p List.mem_cons_self), h.thrifty⟩
    rw [List.countP_cons_of_neg (by simp)]
    dsimp only
    omega

/-- A process changes, and with it the policy, but no place is lost or gained. -/
theorem Balanced.replace {s : Policy cfg} (h : Balanced c (p :: rest)) (hslots : q.slots = p.slots)
    (hcounted : counted q + s.held = counted p + c.thePolicy.held) (hnonneg : 0 ≤ q.cacheEBReserved)
    (hthrifty : s.Thrifty) : Balanced (c.withPolicy s) (q :: rest) := by
  simp only [ProcessEntry.slots, Prod.mk.injEq] at hslots
  obtain ⟨_, hsnoop, hreq, hreply, hmaf, hdirEB⟩ := hslots
  have hsnoops := h.snoops
  have hreplies := h.replies
  have hrequests := h.requests
  have hdir := h.dirEB
  have hcache := h.cacheEB
  have hmafs := h.mafs
  rw [List.map_cons, List.sum_cons] at hsnoops hreplies hrequests hdir hcache
  rw [List.countP_cons] at hmafs
  refine ⟨?_, ?_, ?_, ?_, ?_, ?_, h.nonneg_cons ⟨?_, hnonneg⟩, hthrifty⟩
  · rw [List.map_cons, List.sum_cons, hsnoop]
    exact hsnoops
  · rw [List.map_cons, List.sum_cons, hreply]
    exact hreplies
  · rw [List.map_cons, List.sum_cons, hreq]
    exact hrequests
  · rw [List.countP_cons, hmaf]
    exact hmafs
  · rw [List.map_cons, List.sum_cons, hdirEB]
    exact hdir
  · rw [List.map_cons, List.sum_cons]
    dsimp only [withPolicy]
    omega
  · rw [hdirEB]
    exact (h.nonneg p List.mem_cons_self).1

theorem counted_of_recalls (h : recalls p = false) : counted p = p.cacheEBReserved := if_neg (by simp [h])

/-- The policy changes, and with it what the process holds of the cache evict buffer. -/
theorem Balanced.settled {s : Policy cfg} (h : Balanced c (p :: rest)) (hsettles : Policy.Settles c.thePolicy p s q)
    (hp : recalls p = false) (hq : recalls q = false) : Balanced (c.withPolicy s) (q :: rest) := by
  refine h.replace hsettles.slots ?_ hsettles.nonneg hsettles.thrifty
  rw [counted_of_recalls hp, counted_of_recalls hq]
  exact hsettles.balance

/-! ## Scheduling -/

/-- The processes that have not left the pipelines. -/
def live (c : Controller cfg) : List ProcessEntry :=
  c.theMAFPipeline ++ c.theDirTagPipeline ++ c.theDataPipeline

/-- A process as it is scheduled, with the reservations of its type. -/
def started (type : ProcessType) (maf : Option Nat) (t : MemoryTransport) : ProcessEntry :=
  let p : ProcessEntry := { type := type, maf := maf, transport := t }
  match type with
  | .eProcWakeMAF =>
    { p with
      snoopOutReserved := 2
      replyOutReserved := 1
      reqOutReserved := 1
      dirEBReserved := 1
      cacheEBReserved := 1 }
  | .eProcCacheEvict => { p with snoopOutReserved := 1 }
  | .eProcDirEvict | .eProcIdleWork => { p with snoopOutReserved := 1, cacheEBReserved := 1 }
  | .eProcReply => { p with snoopOutReserved := 1, replyOutReserved := 1 }
  | .eProcSnoop => { p with snoopOutReserved := 2, replyOutReserved := 1, mafReserved := true }
  | .eProcRequest =>
    { p with
      snoopOutReserved := 2
      replyOutReserved := 1
      reqOutReserved := 1
      dirEBReserved := 1
      cacheEBReserved := 1
      mafReserved := true }

/-- The actions that send the reply of the process. -/
def sendsReply : ProcessAction → Bool
  | .eNotifyAndWaitAck | .eFwdAndReply | .eReply | .eReplyAndRemoveMAF => true
  | _ => false

/-- A process whose handler has run holds the places for the messages it sends. -/
structure Ready (p : ProcessEntry) : Prop where
  slots : p.slots = (p.type, p.snoopTransports.length, if p.action = .eFwdRequest then 1 else 0,
    if sendsReply p.action then 1 else 0, false, 0)
  cacheEB : p.cacheEBReserved = 0
  snoops : Policy.snoopsFit p

/-- A process whose handler has not run holds the reservations of its type. Idle work calls
    a block back, or has no message yet. -/
structure Waiting (p : ProcessEntry) : Prop where
  started : p = started p.type p.maf p.transport
  idle : p.type = .eProcIdleWork →
    p.transport.msg.type = .BackInvalidate ∨ p.transport.msg.type = .NumMemoryMessageTypes

theorem waiting_started {type : ProcessType} {maf : Option Nat} {t : MemoryTransport}
    (h : type = .eProcIdleWork → t.msg.type = .BackInvalidate ∨ t.msg.type = .NumMemoryMessageTypes) :
    Waiting (started type maf t) := by
  constructor
  · cases type <;> rfl
  · cases type <;> exact h

/-- Every process in a pipeline holds what it should there. -/
structure Queued (c : Controller cfg) : Prop where
  waiting : ∀ p ∈ c.theMAFPipeline, Waiting p
  ready : ∀ p ∈ c.theDirTagPipeline, Ready p
  data : ∀ p ∈ c.theDataPipeline, if p.transmitAfterTag then Empty p else Ready p

/-- The controller's books are in order. -/
structure Books (c : Controller cfg) : Prop extends Queued c where
  balanced : Balanced c (live c)

/-- The pipelines are no counters. -/
theorem Balanced.elsewhere {live m d t : List ProcessEntry} (h : Balanced c live) :
    Balanced { c with theMAFPipeline := m, theDirTagPipeline := d, theDataPipeline := t } live :=
  ⟨h.snoops, h.replies, h.requests, h.mafs, h.dirEB, h.cacheEB, h.nonneg, h.thrifty⟩

theorem Books.flag {b : Bool} (h : Books c) : Books { c with theIdleWorkScheduled := b } :=
  ⟨⟨h.waiting, h.ready, h.data⟩, ⟨h.balanced.snoops, h.balanced.replies, h.balanced.requests, h.balanced.mafs,
    h.balanced.dirEB, h.balanced.cacheEB, h.balanced.nonneg, h.balanced.thrifty⟩⟩

theorem Books.enqueue (h : Books c) (hbalanced : Balanced c' (p :: live c))
    (hsame : c'.theMAFPipeline = c.theMAFPipeline ∧ c'.theDirTagPipeline = c.theDirTagPipeline ∧
      c'.theDataPipeline = c.theDataPipeline) (hp : Waiting p) :
    Books (Controller.enqueue (c', p)) := by
  obtain ⟨hmaf, hdir, hdata⟩ := hsame
  refine ⟨⟨?_, ?_, ?_⟩, ?_⟩
  rotate_left 3
  · refine Balanced.elsewhere (c := c') (hbalanced.perm ?_)
    show (p :: (c.theMAFPipeline ++ c.theDirTagPipeline ++ c.theDataPipeline)).Perm
      ((c'.theMAFPipeline ++ [p]) ++ c'.theDirTagPipeline ++ c'.theDataPipeline)
    rw [hmaf, hdir, hdata, List.append_assoc, List.append_assoc, List.append_assoc, List.singleton_append]
    exact List.perm_middle.symm
  · intro x hx
    rcases List.mem_append.mp hx with hx | hx
    · exact h.waiting x (hmaf ▸ hx)
    · obtain rfl := List.mem_singleton.mp hx
      exact hp
  · exact fun x hx => h.ready x (hdir ▸ hx)
  · exact fun x hx => h.data x (hdata ▸ hx)

theorem Books.fresh (h : Books c) (type : ProcessType) (maf : Option Nat) (t : MemoryTransport) :
    Balanced c (({ type := type, maf := maf, transport := t } : ProcessEntry) :: live c) :=
  (balanced_cons_empty ⟨rfl, rfl⟩).mpr h.balanced

theorem yields_scheduleReply {t : MemoryTransport} (h : Books c) : Yields allowed (c.scheduleReply t) Books := by
  unfold scheduleReply
  refine .ite (fun hspace => ?_) fun _ => .pure h
  simp only [Bool.and_eq_true] at hspace
  obtain ⟨_, hsnoop, hb⟩ := (h.fresh .eProcReply none t).reserveSnoopOut hspace.1 rfl (by decide)
  obtain ⟨_, hreply, hb⟩ := hb.reserveReplyOut hspace.2 rfl (by decide)
  simp only [hsnoop, hreply, bind, Except.bind]
  exact .pure (h.enqueue hb ⟨rfl, rfl, rfl⟩ ⟨rfl, by simp⟩)

theorem yields_scheduleSnoop {t : MemoryTransport} (h : Books c) : Yields allowed (c.scheduleSnoop t) Books := by
  unfold scheduleSnoop
  refine .ite (fun hspace => ?_) fun _ => .pure h
  simp only [Bool.and_eq_true, Bool.not_eq_true'] at hspace
  obtain ⟨_, hsnoop, hb⟩ := (h.fresh .eProcSnoop none t).reserveSnoopOut hspace.1.1 rfl (by decide)
  obtain ⟨_, hreply, hb⟩ := hb.reserveReplyOut hspace.1.2 rfl (by decide)
  obtain ⟨hmaf, hb⟩ := hb.reserveMAF rfl hspace.2
  simp only [hsnoop, hreply, hmaf, bind, Except.bind]
  exact .pure (h.enqueue hb ⟨rfl, rfl, rfl⟩ ⟨rfl, by simp⟩)

theorem yields_scheduleRequest {t : MemoryTransport} (h : Books c) :
    Yields allowed (c.scheduleRequest t) Books := by
  unfold scheduleRequest
  refine .ite (fun hspace => ?_) fun _ => .pure h
  simp only [Bool.and_eq_true, Bool.not_eq_true', EBHasSpace] at hspace
  obtain ⟨⟨⟨⟨hsnoops, hreplies⟩, hrequests⟩, hdirEB, hcacheEB⟩, hmafs⟩ := hspace
  obtain ⟨_, hsnoop, hb⟩ := (h.fresh .eProcRequest none t).reserveSnoopOut hsnoops rfl (by decide)
  obtain ⟨_, hreply, hb⟩ := hb.reserveReplyOut hreplies rfl (by decide)
  obtain ⟨_, hrequest, hb⟩ := hb.reserveRequestOut hrequests rfl (by decide)
  obtain ⟨hdir, hb⟩ := hb.reserveDirEB rfl hdirEB
  obtain ⟨hcache, hb⟩ := hb.reserveCacheEB rfl hcacheEB rfl
  obtain ⟨hmaf, hb⟩ := hb.reserveMAF rfl hmafs
  simp only [reserveEB, hsnoop, hreply, hrequest, hdir, hcache, hmaf, bind, Except.bind]
  exact .pure (h.enqueue hb ⟨rfl, rfl, rfl⟩ ⟨rfl, by simp⟩)

theorem Books.withPolicy {s : Policy cfg} (h : Books c) (hthrifty : s.Thrifty) (hheld : s.held = c.thePolicy.held) :
    Books (c.withPolicy s) :=
  ⟨⟨h.waiting, h.ready, h.data⟩, ⟨h.balanced.snoops, h.balanced.replies, h.balanced.requests, h.balanced.mafs,
    h.balanced.dirEB, h.balanced.cacheEB.trans (by rw [← hheld]; rfl), h.balanced.nonneg, hthrifty⟩⟩

theorem thrifty_getWakingMAF {s : Policy cfg} {m : MissAddressFile} {e : MAFEntry} (hthrifty : s.Thrifty)
    (hwaking : s.theMAF.getWakingMAF = .ok (m, e)) :
    ({ s with theMAF := m } : Policy cfg).Thrifty ∧ ({ s with theMAF := m } : Policy cfg).held = s.held := by
  obtain ⟨_, hbefore, hafter⟩ := MissAddressFile.ticket_getWakingMAF hwaking
  have hby : ∀ j, m.reservedBy j = s.theMAF.reservedBy j := fun j => MissAddressFile.reservedBy_getWakingMAF hwaking
  refine ⟨⟨fun j => (hby j).symm ▸ hthrifty.nonneg j, fun {j u} hu hne => ?_, hthrifty.dir⟩, ?_⟩
  · rw [show m.reservedBy j = _ from hby j] at hne
    dsimp only at hu
    rw [hafter] at hu
    split at hu
    · next hj =>
      subst hj
      have hwas := (hthrifty.active hbefore hne).1
      cases hwas
    · exact hthrifty.active hu hne
  · rw [Policy.held, Policy.held, MissAddressFile.reserved_of_same hby]

theorem yields_scheduleWakeMAF (h : Books c) : Yields allowed c.scheduleWakeMAF Books := by
  unfold scheduleWakeMAF
  refine .ite (fun hspace => ?_) fun _ => .pure h
  simp only [Bool.and_eq_true, Bool.not_eq_true', EBHasSpace] at hspace
  obtain ⟨⟨⟨⟨_, hsnoops⟩, hreplies⟩, hrequests⟩, hdirEB, hcacheEB⟩ := hspace
  refine .bind (P := fun r => c.thePolicy.theMAF.getWakingMAF = .ok r) (.of_ok ?_ fun _ h => h) ?_
  · intro f hf
    unfold MissAddressFile.getWakingMAF at hf
    split at hf <;> cases hf
    rfl
  · rintro ⟨m, e⟩ hwaking
    obtain ⟨hthrifty, hheld⟩ := thrifty_getWakingMAF h.balanced.thrifty hwaking
    have h' := h.withPolicy hthrifty hheld
    obtain ⟨_, hsnoop, hb⟩ := (h'.fresh .eProcWakeMAF (some e.stamp) e.transport).reserveSnoopOut hsnoops rfl (by decide)
    obtain ⟨_, hreply, hb⟩ := hb.reserveReplyOut hreplies rfl (by decide)
    obtain ⟨_, hrequest, hb⟩ := hb.reserveRequestOut hrequests rfl (by decide)
    obtain ⟨hdir, hb⟩ := hb.reserveDirEB rfl hdirEB
    obtain ⟨hcache, hb⟩ := hb.reserveCacheEB rfl hcacheEB rfl
    simp only [reserveEB, hsnoop, hreply, hrequest, hdir, hcache, bind, Except.bind]
    exact .pure (h'.enqueue hb ⟨rfl, rfl, rfl⟩ ⟨rfl, by simp⟩)

theorem yields_scheduleCacheEvict (h : Books c) : Yields allowed c.scheduleCacheEvict Books := by
  unfold scheduleCacheEvict
  refine .ite (fun hspace => ?_) fun _ => .pure h
  simp only [Bool.and_eq_true] at hspace
  refine .bind (P := fun r => c.thePolicy.getCacheEvictTransport = .ok r)
    (.of_ok Policy.unaccounted_getCacheEvictTransport.2 fun _ h => h) ?_
  rintro ⟨s, t⟩ hevict
  obtain ⟨b, x, _, rfl, _⟩ := Policy.getCacheEvictTransport_spec hevict
  have h' : Books (c.withPolicy { c.thePolicy with theCacheEvictBuffer := b }) :=
    h.withPolicy ⟨h.balanced.thrifty.nonneg, h.balanced.thrifty.active, h.balanced.thrifty.dir⟩ rfl
  obtain ⟨_, hsnoop, hb⟩ := (h'.fresh .eProcCacheEvict none t).reserveSnoopOut hspace.2 rfl (by decide)
  simp only [hsnoop, bind, Except.bind]
  exact .pure (h'.enqueue hb ⟨rfl, rfl, rfl⟩ ⟨rfl, by simp⟩)

/-- A block of the directory evict buffer is called back. The process and the block hold one
    place between them. -/
theorem Books.recall {type : ProcessType} (h : Books c) (hsnoops : c.SnoopOut.hasSpace 1 = true)
    (hcacheEB : c.CacheEBHasSpace = true) (htype : type = .eProcDirEvict ∨ type = .eProcIdleWork) :
    ∃ Q c', reserveSnoopOut 1 (c.withPolicy c.thePolicy.getIdleWorkTransport.1,
          { type := type, transport := c.thePolicy.getIdleWorkTransport.2 }) =
        .ok ({ c.withPolicy c.thePolicy.getIdleWorkTransport.1 with SnoopOut := Q },
          { type := type, transport := c.thePolicy.getIdleWorkTransport.2, snoopOutReserved := 1 }) ∧
      reserveCacheEB 1 ({ c.withPolicy c.thePolicy.getIdleWorkTransport.1 with SnoopOut := Q },
          { type := type, transport := c.thePolicy.getIdleWorkTransport.2, snoopOutReserved := 1 }) =
        .ok (c', started type none c.thePolicy.getIdleWorkTransport.2) ∧
      Books (Controller.enqueue (c', started type none c.thePolicy.getIdleWorkTransport.2)) := by
  obtain ⟨hthrifty, hheld⟩ := Policy.getIdleWorkTransport_held h.balanced.thrifty
  obtain ⟨Q, hreserve, hQ⟩ := h.balanced.snoops.more hsnoops
  rw [add_comm] at hQ
  generalize hs : c.thePolicy.getIdleWorkTransport.1 = s at hthrifty hheld
  generalize ht : c.thePolicy.getIdleWorkTransport.2 = t at hheld
  have hcacheEB' : s.theCacheEvictBuffer = c.thePolicy.theCacheEvictBuffer := by
    rw [← hs, Policy.getIdleWorkTransport_frame]
  have hstarted : started type none t =
      { type := type, transport := t, snoopOutReserved := 1, cacheEBReserved := 1 } := by
    rcases htype with rfl | rfl <;> rfl
  have hcounted : counted (started type none t) = if t.msg.type = .BackInvalidate then 0 else 1 := by
    rw [hstarted, counted, recalls]
    rcases htype with rfl | rfl <;> by_cases hrecall : t.msg.type = .BackInvalidate <;> simp [hrecall]
  refine ⟨Q, { c.withPolicy s with SnoopOut := Q, cacheEBReserve := c.cacheEBReserve + 1 }, ?_, ?_, ?_⟩
  · rw [Controller.reserveSnoopOut, show (c.withPolicy s).SnoopOut = c.SnoopOut from rfl, hreserve]
    rfl
  · simp only [CacheEBHasSpace, Policy.CacheEBHasSpace, CacheEvictBuffer.full, Bool.not_eq_true',
      decide_eq_false_iff_not, not_le] at hcacheEB
    rw [Controller.reserveCacheEB, if_pos, hstarted]
    · rfl
    · show s.theCacheEvictBuffer.theCurSize + (c.cacheEBReserve + 1) ≤ s.theCacheEvictBuffer.theSize
      rw [hcacheEB']
      omega
  · refine h.enqueue ?_ ⟨rfl, rfl, rfl⟩ ?_
    · have hb := h.balanced
      refine ⟨?_, ?_, ?_, ?_, ?_, ?_, ?_, hthrifty⟩
      · rw [List.map_cons, List.sum_cons, hstarted]
        exact hQ
      · rw [List.map_cons, List.sum_cons, hstarted, zero_add]
        exact hb.replies
      · rw [List.map_cons, List.sum_cons, hstarted, zero_add]
        exact hb.requests
      · rw [List.countP_cons_of_neg (by simp [hstarted])]
        exact hb.mafs
      · rw [List.map_cons, List.sum_cons, hstarted, zero_add]
        exact hb.dirEB
      · rw [List.map_cons, List.sum_cons, hcounted]
        have hcache := hb.cacheEB
        dsimp only [Controller.withPolicy]
        rw [hheld]
        split <;> omega
      · intro x hx
        rcases List.mem_cons.mp hx with rfl | hx
        · rw [hstarted]
          exact ⟨le_rfl, zero_le_one⟩
        · exact hb.nonneg x hx
    · refine waiting_started fun _ => ?_
      rw [← ht]
      unfold Policy.getIdleWorkTransport
      split
      · exact .inr rfl
      · exact .inl rfl

theorem yields_scheduleDirEvict (h : Books c) : Yields allowed c.scheduleDirEvict Books := by
  unfold scheduleDirEvict
  refine .ite (fun hspace => ?_) fun _ => .pure h
  simp only [Bool.and_eq_true] at hspace
  obtain ⟨Q, c', hsnoop, hcache, hbooks⟩ := h.recall hspace.2 hspace.1.2 (.inl (Eq.refl ProcessType.eProcDirEvict))
  simp only [Policy.getDirEvictTransport, hsnoop, hcache, bind, Except.bind]
  exact .pure hbooks

theorem yields_scheduleIdleWork (h : Books c) : Yields allowed c.scheduleIdleWork Books := by
  unfold scheduleIdleWork
  refine .ite (fun hspace => ?_) fun _ => .pure h
  simp only [Bool.and_eq_true] at hspace
  obtain ⟨Q, c', hsnoop, hcache, hbooks⟩ := h.recall hspace.1.2 hspace.1.1.1 (.inr (Eq.refl ProcessType.eProcIdleWork))
  simp only [hsnoop, hcache, bind, Except.bind]
  exact .pure hbooks.flag

/-! ## Running the handlers -/

theorem Balanced.onlyReply (h : Balanced c (p :: rest)) (hone : p.replyOutReserved = 1) (b : Bool) :
    ∃ Q, onlyIf b (Controller.unreserveReplyOut 1) (c, p) =
        .ok ({ c with ReplyOut := Q }, { p with replyOutReserved := if b then 0 else 1 }) ∧
      Balanced { c with ReplyOut := Q } ({ p with replyOutReserved := if b then 0 else 1 } :: rest) := by
  cases b with
  | true =>
    obtain ⟨Q, hok, hb, _⟩ := h.unreserveReplyOut hone
    exact ⟨Q, hok, hb⟩
  | false =>
    have hp : { p with replyOutReserved := if false then 0 else 1 } = p := by
      rw [if_neg Bool.false_ne_true, ← hone]
    exact ⟨c.ReplyOut, by rw [hp]; rfl, by rw [hp]; exact h⟩

theorem Balanced.onlyRequest (h : Balanced c (p :: rest)) (hone : p.reqOutReserved = 1) (b : Bool) :
    ∃ Q, onlyIf b (Controller.unreserveRequestOut 1) (c, p) =
        .ok ({ c with RequestOut := Q }, { p with reqOutReserved := if b then 0 else 1 }) ∧
      Balanced { c with RequestOut := Q } ({ p with reqOutReserved := if b then 0 else 1 } :: rest) := by
  cases b with
  | true =>
    obtain ⟨Q, hok, hb, _⟩ := h.unreserveRequestOut hone
    exact ⟨Q, hok, hb⟩
  | false =>
    have hp : { p with reqOutReserved := if false then 0 else 1 } = p := by
      rw [if_neg Bool.false_ne_true, ← hone]
    exact ⟨c.RequestOut, by rw [hp]; rfl, by rw [hp]; exact h⟩

theorem Balanced.onlySnoop (h : Balanced c (p :: rest)) (hone : p.snoopOutReserved = 1) (b : Bool) :
    ∃ Q, onlyIf b (Controller.unreserveSnoopOut 1) (c, p) =
        .ok ({ c with SnoopOut := Q }, { p with snoopOutReserved := if b then 0 else 1 }) ∧
      Balanced { c with SnoopOut := Q } ({ p with snoopOutReserved := if b then 0 else 1 } :: rest) := by
  cases b with
  | true =>
    obtain ⟨Q, hok, hb, _⟩ := h.unreserveSnoopOut (n := 1) hone.ge
    rw [hone] at hok hb
    exact ⟨Q, hok, hb⟩
  | false =>
    have hp : { p with snoopOutReserved := if false then 0 else 1 } = p := by
      rw [if_neg Bool.false_ne_true, ← hone]
    exact ⟨c.SnoopOut, by rw [hp]; rfl, by rw [hp]; exact h⟩

theorem requestReleases_sends {action : ProcessAction} {reply request : Bool}
    (h : requestReleases action = some (reply, request)) :
    reply = !sendsReply action ∧ (request = true ↔ action ≠ .eFwdRequest) := by
  cases action <;> cases h <;> exact ⟨rfl, by simp⟩

theorem wakeMAFReleases_sends {action : ProcessAction} {reply request : Bool}
    (h : wakeMAFReleases action = some (reply, request)) :
    reply = !sendsReply action ∧ (request = true ↔ action ≠ .eFwdRequest) := by
  cases action <;> cases h <;> exact ⟨rfl, by simp⟩

/-- The places that a request does not need for its messages go back. -/
theorem Balanced.release {m : Bool} {reply request : Bool} (h : Balanced c (q :: rest))
    (hslots : q.slots = (q.type, 2, 1, 1, m, 1)) (hown : recalls q = false) (hfit : Policy.snoopsFit q)
    (hreply : reply = !sendsReply q.action) (hrequest : request = true ↔ q.action ≠ .eFwdRequest) :
    ∃ c' r, (do
        let h ← Controller.unreserveSnoopOut (unusedSnoops q) (c, q)
        let h ← onlyIf reply (Controller.unreserveReplyOut 1) h
        let h ← onlyIf request (Controller.unreserveRequestOut 1) h
        Controller.unreserveEB h) = Except.ok (c', r) ∧
      Balanced c' (r :: rest) ∧ r.mafReserved = m ∧ Ready { r with mafReserved := false } ∧
      c'.thePolicy = c.thePolicy ∧ c'.theMAFPipeline = c.theMAFPipeline ∧
      c'.theDirTagPipeline = c.theDirTagPipeline ∧ c'.theDataPipeline = c.theDataPipeline := by
  simp only [ProcessEntry.slots, Prod.mk.injEq, true_and] at hslots
  obtain ⟨hsnoop, hreq, hrep, hmaf, _⟩ := hslots
  have htwo : q.snoopTransports.length ≤ 2 := by
    refine hfit.trans ?_
    split <;> simp
  have hunused : unusedSnoops q = 2 - q.snoopTransports.length := by
    rw [unusedSnoops, theMaxSnoopsPerRequest]
    omega
  obtain ⟨_, h₁, hb, _⟩ := h.unreserveSnoopOut (n := unusedSnoops q) (by omega)
  obtain ⟨_, h₂, hb⟩ := hb.onlyReply hrep reply
  obtain ⟨_, h₃, hb⟩ := hb.onlyRequest hreq request
  obtain ⟨_, _, h₄, hb⟩ := hb.unreserveEB (counted_of_recalls hown)
  refine ⟨_, _, ?_, hb, hmaf, ⟨?_, rfl, hfit⟩, rfl, rfl, rfl, rfl⟩
  · simp only [h₁, h₂, h₃, h₄, bind, Except.bind]
  · dsimp only [ProcessEntry.slots]
    have hlen : q.snoopOutReserved - unusedSnoops q = q.snoopTransports.length := by omega
    have hreplyNow : (if reply then 0 else 1) = if sendsReply q.action then 1 else 0 := by
      rw [hreply]
      cases sendsReply q.action <;> rfl
    have hrequestNow : (if request then 0 else 1) = if q.action = .eFwdRequest then 1 else 0 := by
      by_cases hfwd : q.action = .eFwdRequest
      · rw [if_pos hfwd, if_neg fun hr => hrequest.mp hr hfwd]
      · rw [if_neg hfwd, if_pos (hrequest.mpr hfwd)]
    rw [hlen, hreplyNow, hrequestNow]

/-! ## Finalizing -/

/-- The processes in the pipelines and the policy are the same. -/
structure SameElse (c c' : Controller cfg) : Prop where
  policy : c'.thePolicy = c.thePolicy
  mafs : c'.theMAFPipeline = c.theMAFPipeline
  dirTags : c'.theDirTagPipeline = c.theDirTagPipeline
  data : c'.theDataPipeline = c.theDataPipeline

theorem sends_all {ts : List MemoryTransport} (hQ : c.SnoopOut.Holds n)
    (hspace : c.SnoopOut.theCurrentReserve + ts.length ≤ c.SnoopOut.theSize) :
    ∃ Q, sendSnoops ts c = .ok { c with SnoopOut := Q } ∧ Q.Holds n := by
  induction ts generalizing c with
  | nil => exact ⟨c.SnoopOut, rfl, hQ⟩
  | cons t ts ih =>
    obtain ⟨Q, hsend, hQ', hspace'⟩ := hQ.send (t := t) hspace
    obtain ⟨Q', hrest, hQ''⟩ := ih (c := { c with SnoopOut := Q }) hQ' hspace'
    refine ⟨Q', ?_, hQ''⟩
    rw [sendSnoops, hsend]
    exact hrest

theorem Balanced.emitSnoops (h : Balanced c (p :: rest)) (hsnoop : p.snoopOutReserved = p.snoopTransports.length)
    (htwo : p.snoopTransports.length ≤ 2) :
    Yields allowed (Controller.emitSnoops (c, p)) fun r => ∃ Q,
      r = ({ c with SnoopOut := Q }, { p with snoopOutReserved := 0, snoopTransports := [] }) ∧
      Balanced r.1 (r.2 :: rest) := by
  unfold Controller.emitSnoops
  refine .ite (fun _ => .error rfl) fun _ => ?_
  rw [show p.snoopTransports.length % 256 = p.snoopTransports.length from Nat.mod_eq_of_lt (by omega)]
  obtain ⟨Q, hgive, hb, hspace⟩ := h.unreserveSnoopOut hsnoop.ge
  rw [hsnoop, Nat.sub_self] at hgive hb
  obtain ⟨Q', hsend, hQ'⟩ := sends_all hb.snoops hspace
  refine .of_eq_ok (a := ({ c with SnoopOut := Q' }, { p with snoopOutReserved := 0, snoopTransports := [] })) ?_
    ⟨Q', rfl, ?_⟩
  · dsimp only
    rw [hgive]
    dsimp only [bind, Except.bind]
    rw [hsend]
    rfl
  · exact ⟨hQ', hb.replies, hb.requests, hb.mafs.trans (by simp [List.countP_cons]), hb.dirEB, hb.cacheEB,
      h.nonneg_cons (h.nonneg p List.mem_cons_self), hb.thrifty⟩

theorem Balanced.emitReply (h : Balanced c (p :: rest)) (hone : p.replyOutReserved = 1) :
    Yields allowed (Controller.emitReply (c, p)) fun r => ∃ Q,
      r = ({ c with ReplyOut := Q }, { p with replyOutReserved := 0 }) ∧ Balanced r.1 (r.2 :: rest) := by
  obtain ⟨Q, hgive, hb, hspace⟩ := h.unreserveReplyOut hone
  unfold Controller.emitReply
  simp only [hgive, bind, Except.bind]
  split
  · exact .error rfl
  · next t _ =>
    obtain ⟨Q', hsend, hQ', _⟩ := hb.replies.send (t := t) (k := 0) hspace
    simp only [hsend]
    refine .pure ⟨Q', rfl, ?_⟩
    exact ⟨hb.snoops, hQ', hb.requests, hb.mafs, hb.dirEB, hb.cacheEB, hb.nonneg, hb.thrifty⟩

theorem Balanced.emitRequest (h : Balanced c (p :: rest)) (hone : p.reqOutReserved = 1) :
    Yields allowed (Controller.emitRequest (c, p)) fun r => ∃ Q,
      r = ({ c with RequestOut := Q }, { p with reqOutReserved := 0 }) ∧ Balanced r.1 (r.2 :: rest) := by
  obtain ⟨Q, hgive, hb, hspace⟩ := h.unreserveRequestOut hone
  obtain ⟨Q', hsend, hQ', _⟩ := hb.requests.send (t := p.transport) (k := 0) hspace
  unfold Controller.emitRequest
  simp only [hgive, bind, Except.bind, hsend]
  refine .pure ⟨Q', rfl, ?_⟩
  exact ⟨hb.snoops, hb.replies, hQ', hb.mafs, hb.dirEB, hb.cacheEB, hb.nonneg, hb.thrifty⟩

/-- What is known of a process after its messages were sent. -/
structure Emitted (c : Controller cfg) (p : ProcessEntry) (rest : List ProcessEntry) (r : Held cfg) : Prop where
  balanced : Balanced r.1 (r.2 :: rest)
  empty : Empty r.2
  sent : r.2.snoopTransports = []
  process : r.2.action = p.action ∧ r.2.maf = p.maf ∧ r.2.transport = p.transport ∧
    r.2.transmitAfterTag = p.transmitAfterTag
  same : SameElse c r.1

theorem Balanced.emit (h : Balanced c (p :: rest)) (hready : Ready p) :
    Yields allowed (Controller.emit (c, p)) (Emitted c p rest) := by
  obtain ⟨hslots, hcacheEB, hfit⟩ := hready
  simp only [ProcessEntry.slots, Prod.mk.injEq, true_and] at hslots
  obtain ⟨hsnoop, hreq, hreply, hmaf, hdirEB⟩ := hslots
  have hnone : p.action.sendsSnoops = false → p.snoopTransports = [] := by
    intro hsends
    rw [Policy.snoopsFit, hsends] at hfit
    exact List.length_eq_zero_iff.mp (Nat.le_zero.mp hfit)
  have hlen : p.snoopTransports.length ≤ 2 := by
    refine hfit.trans ?_
    split <;> simp
  unfold Controller.emit
  dsimp only
  split
  case h_1 | h_2 | h_3 =>
    next haction =>
    rw [haction] at hreq hreply
    refine (h.emitSnoops hsnoop hlen).weaken ?_
    rintro _ ⟨Q, rfl, hb⟩
    refine ⟨hb, ⟨?_, hcacheEB⟩, rfl, ⟨rfl, rfl, rfl, rfl⟩, ⟨rfl, rfl, rfl, rfl⟩⟩
    simp [ProcessEntry.slots, hreq, hreply, hmaf, hdirEB, sendsReply]
  case h_4 | h_5 =>
    next haction =>
    rw [haction] at hreq hreply
    refine (h.emitSnoops hsnoop hlen).bind ?_
    rintro _ ⟨Q, rfl, hb⟩
    refine (hb.emitReply hreply).weaken ?_
    rintro _ ⟨Q', rfl, hb⟩
    refine ⟨hb, ⟨?_, hcacheEB⟩, rfl, ⟨rfl, rfl, rfl, rfl⟩, ⟨rfl, rfl, rfl, rfl⟩⟩
    simp [ProcessEntry.slots, hreq, hmaf, hdirEB]
  case h_6 | h_7 =>
    next haction =>
    have hempty := hnone (by rw [haction]; rfl)
    rw [haction] at hreq hreply
    refine (h.emitReply hreply).weaken ?_
    rintro _ ⟨Q', rfl, hb⟩
    refine ⟨hb, ⟨?_, hcacheEB⟩, hempty, ⟨rfl, rfl, rfl, rfl⟩, ⟨rfl, rfl, rfl, rfl⟩⟩
    simp [ProcessEntry.slots, hreq, hmaf, hdirEB, hsnoop, hempty]
  case h_8 =>
    next haction =>
    have hempty := hnone (by rw [haction]; rfl)
    rw [haction] at hreq hreply
    refine (h.emitRequest hreq).weaken ?_
    rintro _ ⟨Q', rfl, hb⟩
    refine ⟨hb, ⟨?_, hcacheEB⟩, hempty, ⟨rfl, rfl, rfl, rfl⟩, ⟨rfl, rfl, rfl, rfl⟩⟩
    simp [ProcessEntry.slots, hreply, hmaf, hdirEB, hsnoop, hempty, sendsReply]
  case h_9 | h_10 | h_11 | h_12 | h_13 =>
    next haction =>
    have hempty := hnone (by rw [haction]; rfl)
    rw [haction] at hreq hreply
    refine .pure ⟨h, ⟨?_, hcacheEB⟩, hempty, ⟨rfl, rfl, rfl, rfl⟩, ⟨rfl, rfl, rfl, rfl⟩⟩
    simp [ProcessEntry.slots, hreq, hreply, hmaf, hdirEB, hsnoop, hempty, sendsReply]

theorem mafOf_error {s : Policy cfg} {f : Fault} (h : mafOf s p = .error f) : allowed f := by
  unfold mafOf at h
  split at h <;> cases h
  rfl

theorem finalizeMAF_error {s : Policy cfg} {f : Fault} (h : finalizeMAF s p = .error f) : allowed f := by
  unfold finalizeMAF at h
  split at h
  case h_1 | h_2 | h_3 | h_4 | h_5 =>
    rcases bind_eq_error.mp h with hmaf | ⟨_, _, hpure⟩
    · exact mafOf_error hmaf
    · cases hpure
  case h_6 => cases h

/-- A process that is finalized holds nothing any more. -/
theorem Balanced.finalizeProcess (h : Balanced c (p :: rest)) (hready : Ready p)
    (hmaf : ∀ s, finalizeMAF c.thePolicy p = .ok s → s.Thrifty ∧ s.held = c.thePolicy.held) :
    Yields allowed (Controller.finalizeProcess (c, p)) fun r => Balanced r.1 rest ∧ Empty r.2 ∧
      r.2.transmitAfterTag = p.transmitAfterTag ∧ r.1.theMAFPipeline = c.theMAFPipeline ∧
      r.1.theDirTagPipeline = c.theDirTagPipeline ∧ r.1.theDataPipeline = c.theDataPipeline := by
  unfold Controller.finalizeProcess
  refine (h.emit hready).bind fun r hemitted => ?_
  obtain ⟨hb, hempty, hsent, ⟨haction, hslot, htransport, htag⟩, hpolicy, hmafs, hdirTags, hdata⟩ := hemitted
  have hsame : finalizeMAF r.1.thePolicy r.2 = finalizeMAF c.thePolicy p := by
    rw [hpolicy]
    exact finalizeMAF_congr haction hslot htransport
  rw [hsame]
  refine Yields.bind (.of_ok (fun f hf => finalizeMAF_error hf) hmaf) fun s hs => ?_
  have hleft : r.2.noReservations = true := by
    obtain ⟨h₁, h₂, h₃, h₄, h₅, _⟩ := hempty.fields
    simp [ProcessEntry.noReservations, h₁, h₂, h₃, h₄, h₅, hempty.cacheEB]
  rw [if_neg (by simp [hsent]), if_neg (by simp [hleft])]
  have hrest := (balanced_cons_empty hempty).mp hb
  refine .ok ⟨?_, hempty, htag, hmafs, hdirTags, hdata⟩
  refine ⟨hrest.snoops, hrest.replies, hrest.requests, hrest.mafs, hrest.dirEB, ?_, hrest.nonneg, hs.1⟩
  show r.1.cacheEBReserve = (rest.map counted).sum + s.held
  rw [hrest.cacheEB, hpolicy, hs.2]

end Controller

end nCMPCache
