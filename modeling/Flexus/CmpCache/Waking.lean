import Flexus.CmpCache.MissAddressFile
import Flexus.Lib.Rekeying

/-!
# Waking through iterators

The loop of `wakeAfterEvict` walks the entries of one block and state in the address index and
changes their state, which is a part of the key. An iterator names an entry by its stamp, and
stays with the entry wherever the index moves it; past the last entry there is none. The
entries woken are then handed out in the order of their arrival.
-/

namespace nCMPCache

open OrderedIndex

/-- What an iterator must not be used for, and a loop that has not come to its end. -/
inductive IteratorFault where
  | pastTheEnd
  | dangling
  | stillRunning
  deriving DecidableEq, Repr

namespace MissAddressFile

/-- The first entry that meets a test. -/
def firstThat (m : MissAddressFile) (p : MAFEntry → Bool) : Option Nat :=
  (m.entries.find? p).map MAFEntry.stamp

def lower_bound (m : MissAddressFile) (k : ℕ ×ₗ ℕ) : Option Nat :=
  m.firstThat fun e => decide (k ≤ e.key)

def upper_bound (m : MissAddressFile) (k : ℕ ×ₗ ℕ) : Option Nat :=
  m.firstThat fun e => decide (k < e.key)

def equal_range (m : MissAddressFile) (a : MemoryAddress) (st : MAFState) : Option Nat × Option Nat :=
  (m.lower_bound (toLex (a, st.toNat)), m.upper_bound (toLex (a, st.toNat)))

/-- Advance an iterator. That of no entry cannot be. -/
def increment (m : MissAddressFile) : Option Nat → Except IteratorFault (Option Nat)
  | some i => .ok ((m.entries.dropWhile fun e => e.stamp != i).tail.head?.map MAFEntry.stamp)
  | none => .error .pastTheEnd

/-- The loop of `wakeAfterEvict`, for as many rounds as given. -/
def wakeLoop (a : MemoryAddress) : Nat → MissAddressFile → Option Nat → Option Nat → Option Nat →
    Except IteratorFault MissAddressFile
  | 0, _, _, _, _ => .error .stillRunning
  | rounds + 1, m, first, last, next =>
    match first with
    | none => .ok m
    | some i =>
      if some i = last then .ok m
      else match m.get? i with
        | none => .error .dangling
        | some x => do
          let m := if x.address = a then m.wake i else m
          let following ← m.increment next
          wakeLoop a rounds m next last following

def wakeAfterEvictLoop (m : MissAddressFile) (entry : MAFEntry) : Except IteratorFault MissAddressFile := do
  let m := m.wake entry.stamp
  let (first, last) := m.equal_range entry.address .eWaitRequest
  let next ← m.increment first
  wakeLoop entry.address (m.entries.length + 1) m first last next

section Loop

variable {m : MissAddressFile} {a : MemoryAddress} {e x : MAFEntry} {pre run post : List MAFEntry}

theorem key_eq_iff {st : MAFState} : x.key = toLex (a, st.toNat) ↔ x.At a st := by
  have hinj : ∀ s t : MAFState, s.toNat = t.toNat → s = t := by
    intro s t h
    cases s <;> cases t <;> first | rfl | cases h
  rw [MAFEntry.key, MAFEntry.At, toLex_inj, Prod.mk.injEq]
  constructor
  · exact fun h => ⟨h.1, hinj _ _ h.2⟩
  · rintro ⟨rfl, rfl⟩
    exact ⟨rfl, rfl⟩

/-- The stamps before and behind an entry are those of others. -/
theorem stamp_ne (hsplit : m.entries = pre ++ e :: post) :
    (∀ y ∈ pre, y.stamp ≠ e.stamp) ∧ ∀ y ∈ post, y.stamp ≠ e.stamp := by
  have hnodup := m.stamps
  rw [hsplit, List.map_append, List.map_cons, List.nodup_middle, List.nodup_cons] at hnodup
  rw [List.mem_append, not_or] at hnodup
  exact ⟨fun y hy heq => hnodup.1.1 (heq ▸ List.mem_map_of_mem hy),
    fun y hy heq => hnodup.1.2 (heq ▸ List.mem_map_of_mem hy)⟩

theorem increment_append (hsplit : m.entries = pre ++ e :: post) :
    m.increment (some e.stamp) = .ok (post.head?.map MAFEntry.stamp) := by
  have hpre : ∀ y ∈ pre, (y.stamp != e.stamp) = true := fun y hy => by
    simpa using (stamp_ne hsplit).1 y hy
  simp only [increment]
  rw [hsplit, List.dropWhile_append_of_pos hpre]
  simp

theorem wake_entries : (m.wake e.stamp).entries =
    OrderedIndex.modify MAFEntry.key (fun y => y.stamp == e.stamp)
      (fun y => { y with state := .eWaking }) m.entries := rfl

/-- The walk along a run of waiting requests wakes each of them and ends at the entry behind the
    run. The induction is on the run; its first entry is woken and leaves it. -/
theorem wakeLoop_spec {rounds : Nat} (hsplit : m.entries = pre ++ (run ++ x :: post))
    (hrun : ∀ y ∈ run, y.At a .eWaitRequest) (hx : x.key ≤ toLex (a, MAFState.eWaking.toNat))
    (hrounds : run.length < rounds) :
    ∃ next, m.increment ((run ++ x :: post).head?.map MAFEntry.stamp) = .ok next ∧
      wakeLoop a rounds m ((run ++ x :: post).head?.map MAFEntry.stamp) (some x.stamp) next =
        .ok (m.wakeAll (run.map MAFEntry.stamp)) := by
  induction run generalizing m pre post rounds with
  | nil =>
    obtain ⟨rounds, rfl⟩ := Nat.exists_eq_succ_of_ne_zero (Nat.ne_zero_of_lt hrounds)
    refine ⟨_, increment_append hsplit, ?_⟩
    simp [wakeLoop, wakeAll]
  | cons r run ih =>
    obtain ⟨rounds, rfl⟩ := Nat.exists_eq_succ_of_ne_zero (Nat.ne_zero_of_lt hrounds)
    obtain ⟨hr, hrest⟩ := List.forall_mem_cons.mp hrun
    have hother := stamp_ne hsplit
    have hne : x.stamp ≠ r.stamp := hother.2 x (by simp)
    have hget : m.get? r.stamp = some r := get?_eq_some.mpr ⟨hsplit ▸ by simp, rfl⟩
    have hkeys : ∀ y ∈ r :: run, y.key = toLex (a, MAFState.eWaitRequest.toNat) :=
      fun y hy => key_eq_iff.mpr (hrun y hy)
    have hwoken : ({ r with state := .eWaking } : MAFEntry).key = toLex (a, MAFState.eWaking.toNat) :=
      key_eq_iff.mpr ⟨hr.1, rfl⟩
    have hgreater : (toLex (a, MAFState.eWaitRequest.toNat) : ℕ ×ₗ ℕ) <
        toLex (a, MAFState.eWaking.toNat) :=
      Prod.Lex.toLex_lt_toLex.mpr (Or.inr ⟨rfl, show (1 : ℕ) < 4 by decide⟩)
    obtain ⟨pre', post', hmodify⟩ := modify_run (p := fun y : MAFEntry => y.stamp == r.stamp)
      (f := fun y => { y with state := .eWaking }) (hsplit ▸ m.ascending)
      (fun y hy => by simpa using hother.1 y hy) (by simp) hkeys (hwoken ▸ hgreater) (hwoken ▸ hx)
    have hsplit' : (m.wake r.stamp).entries = pre' ++ (run ++ x :: post') := by
      rw [wake_entries, hsplit, hmodify]
    obtain ⟨following, hfollowing, hloop⟩ := ih hsplit' hrest (Nat.lt_of_succ_lt_succ hrounds)
    have hheads : (run ++ x :: post').head?.map MAFEntry.stamp =
        (run ++ x :: post).head?.map MAFEntry.stamp := by
      cases run <;> rfl
    refine ⟨_, increment_append hsplit, ?_⟩
    rw [hheads] at hfollowing hloop
    have hdistinct : some r.stamp ≠ some x.stamp := fun h => hne (Option.some.inj h).symm
    simp only [List.cons_append, List.head?_cons, Option.map_some, wakeLoop, if_neg hdistinct, hget,
      if_pos hr.1]
    change (do
      let following ← (m.wake r.stamp).increment ((run ++ x :: post).head?.map MAFEntry.stamp)
      wakeLoop a rounds (m.wake r.stamp) _ _ following) = _
    rw [hfollowing]
    exact hloop

theorem firstThat_append {p : MAFEntry → Bool} (hsplit : m.entries = pre ++ e :: post)
    (hpre : ∀ y ∈ pre, p y = false) (he : p e = true) : m.firstThat p = some e.stamp := by
  have hnone : pre.find? p = none := List.find?_eq_none.mpr fun y hy => by simp [hpre y hy]
  rw [firstThat, hsplit, List.find?_append, hnone, Option.none_or, List.find?_cons_of_pos he]
  rfl

/-- The loop does what `wakeAfterEvict` says: the entry it starts from has left the range and stands
    behind it. -/
theorem wakeAfterEvictLoop_eq (he : e ∈ m.entries) :
    m.wakeAfterEvictLoop e = .ok (m.wakeAfterEvict e) := by
  have hwoken : ({ e with state := .eWaking } : MAFEntry) ∈ (m.wake e.stamp).entries :=
    mem_modify.mpr ⟨e, he, by rw [if_pos rfl]⟩
  have hkey : ({ e with state := .eWaking } : MAFEntry).key = toLex (e.address, MAFState.eWaking.toNat) :=
    key_eq_iff.mpr ⟨rfl, rfl⟩
  have hgreater : (toLex (e.address, MAFState.eWaitRequest.toNat) : ℕ ×ₗ ℕ) <
      toLex (e.address, MAFState.eWaking.toNat) :=
    Prod.Lex.toLex_lt_toLex.mpr (Or.inr ⟨rfl, show (1 : ℕ) < 4 by decide⟩)
  obtain ⟨pre, run, behind, hsplit, hpre, hrun, hbehind⟩ :=
    exists_run (m.wake e.stamp).ascending (toLex (e.address, MAFState.eWaitRequest.toNat))
  have hmem : ({ e with state := .eWaking } : MAFEntry) ∈ behind := by
    rw [hsplit, List.append_assoc, List.mem_append, List.mem_append] at hwoken
    rcases hwoken with hin | hin | hin
    · exact absurd (hkey ▸ hpre _ hin) (not_lt.mpr hgreater.le)
    · exact absurd (hkey.symm.trans (hrun _ hin)) hgreater.ne'
    · exact hin
  obtain ⟨x, post, rfl⟩ := List.exists_cons_of_ne_nil (List.ne_nil_of_mem hmem)
  have hx : x.key ≤ toLex (e.address, MAFState.eWaking.toNat) := by
    rw [← hkey]
    rcases List.mem_cons.mp hmem with heq | hin
    · rw [heq]
    · have hasc := (m.wake e.stamp).ascending
      rw [hsplit] at hasc
      exact (List.pairwise_cons.mp (List.pairwise_append.mp hasc).2.1).1 _ hin
  rw [List.append_assoc] at hsplit
  have hat : ∀ y ∈ run, y.At e.address .eWaitRequest := fun y hy => key_eq_iff.mp (hrun y hy)
  have hupper : (m.wake e.stamp).upper_bound (toLex (e.address, MAFState.eWaitRequest.toNat)) =
      some x.stamp := by
    have hsplit' : (m.wake e.stamp).entries = pre ++ run ++ x :: post := by
      rw [hsplit, List.append_assoc]
    apply firstThat_append hsplit'
    · intro y hy
      rcases List.mem_append.mp hy with hy | hy
      · simpa using (hpre y hy).le
      · simpa using (hrun y hy).le
    · simpa using hbehind x (List.mem_cons_self ..)
  have hlower : (m.wake e.stamp).lower_bound (toLex (e.address, MAFState.eWaitRequest.toNat)) =
      (run ++ x :: post).head?.map MAFEntry.stamp := by
    have hbelow : ∀ y ∈ pre, decide (toLex (e.address, MAFState.eWaitRequest.toNat) ≤ y.key) = false :=
      fun y hy => by simpa using hpre y hy
    cases run with
    | nil => exact firstThat_append hsplit hbelow (by simpa using (hbehind x (List.mem_cons_self ..)).le)
    | cons r run => exact firstThat_append hsplit hbelow (by simpa using (hrun r (List.mem_cons_self ..)).ge)
  have hrange : (m.wake e.stamp).findAll e.address .eWaitRequest = run := by
    have hnot : ∀ y : MAFEntry, y.key ≠ toLex (e.address, MAFState.eWaitRequest.toNat) →
        ¬ (decide (y.At e.address .eWaitRequest) = true) :=
      fun y hy hdec => hy (key_eq_iff.mpr (of_decide_eq_true hdec))
    rw [findAll, hsplit, List.filter_append, List.filter_append,
      List.filter_eq_nil_iff.mpr fun y hy => hnot y (hpre y hy).ne,
      List.filter_eq_self.mpr fun y hy => decide_eq_true (hat y hy),
      List.filter_eq_nil_iff.mpr fun y hy => hnot y (hbehind y hy).ne', List.nil_append, List.append_nil]
  have hrounds : run.length < (m.wake e.stamp).entries.length + 1 := by
    rw [hsplit]
    simp only [List.length_append]
    omega
  obtain ⟨next, hnext, hloop⟩ := wakeLoop_spec hsplit hat hx hrounds
  rw [wakeAfterEvict, hrange, ← hloop]
  simp only [wakeAfterEvictLoop, equal_range, hlower, hupper, hnext]
  rfl

end Loop

/-! ## Handing out -/

/-- The waking entries in the order of their arrival. -/
def waking (m : MissAddressFile) : List MAFEntry := m.ordered.filter fun e => e.state == .eWaking

/-- Hand out waking entries, as many as given. -/
def getWakingMAFs : Nat → MissAddressFile → Except Fault (MissAddressFile × List MAFEntry)
  | 0, m => .ok (m, [])
  | count + 1, m => do
    let (m, e) ← m.getWakingMAF
    let (m, handed) ← getWakingMAFs count m
    .ok (m, e :: handed)

section HandingOut

variable {m : MissAddressFile} {e x : MAFEntry}

theorem ordered_perm : m.ordered.Perm m.entries := List.perm_insertionSort _ _

theorem ordered_stamps (m : MissAddressFile) : m.ordered.Pairwise fun x y => x.stamp < y.stamp := by
  have htotal : Std.Total fun x y : MAFEntry => x.stamp ≤ y.stamp := ⟨fun x y => Nat.le_total _ _⟩
  have htrans : IsTrans MAFEntry fun x y => x.stamp ≤ y.stamp := ⟨fun _ _ _ => Nat.le_trans⟩
  have hsorted : m.ordered.Pairwise fun x y => x.stamp ≤ y.stamp := List.pairwise_insertionSort _ _
  have hnodup : (m.ordered.map MAFEntry.stamp).Nodup := (ordered_perm.map _).nodup_iff.mpr m.stamps
  apply List.Pairwise.imp _ (hsorted.and (List.pairwise_map.mp hnodup))
  exact fun h => Nat.lt_of_le_of_ne h.1 h.2

/-- The order of arrival does not see that an entry changes. -/
theorem ordered_modify {i : Nat} {f : MAFEntry → MAFEntry} (hf : ∀ e, (f e).stamp = e.stamp) :
    (m.modify i f hf).ordered = m.ordered.map fun e => if e.stamp = i then f e else e := by
  have hstamp : ∀ e, (if e.stamp = i then f e else e).stamp = e.stamp := fun e => by
    split
    · exact hf e
    · rfl
  have hperm : (m.modify i f hf).ordered.Perm (m.ordered.map fun e => if e.stamp = i then f e else e) :=
    ordered_perm.trans ((modifyEntries_perm m.stamps).trans (ordered_perm.symm.map _))
  have hmapped : (m.ordered.map fun e => if e.stamp = i then f e else e).Pairwise
      fun x y => x.stamp < y.stamp := by
    apply List.pairwise_map.mpr
    apply List.Pairwise.imp _ m.ordered_stamps
    intro x y hlt
    rwa [hstamp, hstamp]
  exact List.Perm.eq_of_pairwise (fun x y _ _ hxy hyx => absurd hxy (Nat.lt_asymm hyx))
    (ordered_stamps _) hmapped hperm

/-- Waking after an eviction keeps the order of arrival. -/
theorem ordered_wakeAfterEvict : (m.wakeAfterEvict e).ordered = m.ordered.map fun y =>
    if y.stamp = e.stamp ∨ y.At e.address .eWaitRequest then { y with state := .eWaking } else y := by
  have hmapped : (m.ordered.map fun y => if y.stamp = e.stamp ∨ y.At e.address .eWaitRequest then
      { y with state := .eWaking } else y).Pairwise fun x y => x.stamp < y.stamp := by
    have hstamp : ∀ y : MAFEntry, (if y.stamp = e.stamp ∨ y.At e.address .eWaitRequest then
        { y with state := .eWaking } else y).stamp = y.stamp := fun y => by split <;> rfl
    apply List.pairwise_map.mpr
    apply List.Pairwise.imp _ m.ordered_stamps
    intro x y hlt
    rwa [hstamp, hstamp]
  have hnodup : ∀ l : List MAFEntry, (l.Pairwise fun x y => x.stamp < y.stamp) → l.Nodup := by
    intro l hl
    apply List.Pairwise.imp _ hl
    rintro x y hlt rfl
    exact Nat.lt_irrefl _ hlt
  have hperm := (List.perm_ext_iff_of_nodup (hnodup _ (m.wakeAfterEvict e).ordered_stamps)
    (hnodup _ hmapped)).mpr fun x => by
      rw [ordered_perm.mem_iff, mem_wakeAfterEvict, List.mem_map]
      simp only [ordered_perm.mem_iff, eq_comm]
  exact List.Perm.eq_of_pairwise (fun x y _ _ hxy hyx => absurd hxy (Nat.lt_asymm hyx))
    (ordered_stamps _) hmapped hperm

theorem waking_stamps (m : MissAddressFile) : (m.waking.map MAFEntry.stamp).Pairwise (· < ·) :=
  List.pairwise_map.mpr (m.ordered_stamps.sublist List.filter_sublist)

/-- The first waking entry is handed out, and the others are left. -/
theorem getWakingMAF_spec {rest : List MAFEntry} (h : m.waking = e :: rest) :
    ∃ m', m.getWakingMAF = .ok (m', { e with state := .eInPipeline }) ∧ m'.waking = rest := by
  have hpeek : m.peekWakingMAF = some e := by
    rw [peekWakingMAF, ← List.head?_filter]
    exact congrArg List.head? h
  have hlater : ∀ y ∈ rest, y.stamp ≠ e.stamp := by
    intro y hy
    have hstamps := m.waking_stamps
    rw [h, List.map_cons, List.pairwise_cons] at hstamps
    exact (hstamps.1 _ (List.mem_map_of_mem hy)).ne'
  refine ⟨_, by rw [getWakingMAF, hpeek], ?_⟩
  have hstill : ∀ y : MAFEntry, (((if y.stamp = e.stamp then { y with state := .eInPipeline } else y :
      MAFEntry).state == .eWaking) = true) ↔ y.state = .eWaking ∧ y.stamp ≠ e.stamp := by
    intro y
    split <;> simp_all
  rw [waking, ordered_modify, List.filter_map]
  have hleft : (m.ordered.filter ((fun y : MAFEntry => y.state == .eWaking) ∘ fun y =>
      if y.stamp = e.stamp then { y with state := .eInPipeline } else y)) = rest := by
    have hfilter : rest = m.waking.filter fun y => decide (y.stamp ≠ e.stamp) := by
      rw [h, List.filter_cons_of_neg (by simp), List.filter_eq_self.mpr]
      exact fun y hy => decide_eq_true (hlater y hy)
    rw [hfilter, waking, List.filter_filter]
    apply List.filter_congr
    intro y _
    rw [Bool.eq_iff_iff, Function.comp_apply, hstill]
    simp [and_comm]
  rw [hleft]
  apply (List.map_congr_left _).trans (List.map_id _)
  intro y hy
  rw [if_neg (hlater y hy)]
  rfl

/-- All waking entries are handed out, each once and in the order of their arrival. -/
theorem getWakingMAFs_spec (m : MissAddressFile) :
    ∃ m', getWakingMAFs m.waking.length m =
        .ok (m', m.waking.map fun e => { e with state := .eInPipeline }) ∧ m'.waking = [] := by
  induction hwaking : m.waking generalizing m with
  | nil => exact ⟨m, rfl, hwaking⟩
  | cons e rest ih =>
    obtain ⟨next, hget, hrest⟩ := getWakingMAF_spec hwaking
    obtain ⟨m', hloop, hdone⟩ := ih next hrest
    refine ⟨m', ?_, hdone⟩
    simp only [List.length_cons, getWakingMAFs, hget]
    change (do
      let (m, handed) ← getWakingMAFs rest.length next
      _) = _
    rw [hloop]
    rfl

/-- Waking after the eviction of an entry of the file. The loop comes to its end, and has changed
    the state of that entry and of the requests of its block that waited behind another one, and
    nothing else. What is awake is then handed out in the order of arrival, each entry once. -/
theorem wakeAfterEvict_correct (he : e ∈ m.entries) :
    ∃ woken, m.wakeAfterEvictLoop e = .ok woken ∧
      (woken.ordered = m.ordered.map fun y =>
        if y.stamp = e.stamp ∨ y.At e.address .eWaitRequest then { y with state := .eWaking } else y) ∧
      (woken.waking.map MAFEntry.stamp).Pairwise (· < ·) ∧
      ∃ left, getWakingMAFs woken.waking.length woken =
          .ok (left, woken.waking.map fun e => { e with state := .eInPipeline }) ∧
        left.hasWakingEntry = false := by
  obtain ⟨left, hhanded, hleft⟩ := getWakingMAFs_spec (m.wakeAfterEvict e)
  refine ⟨_, wakeAfterEvictLoop_eq he, ordered_wakeAfterEvict, waking_stamps _, left, hhanded, ?_⟩
  rw [hasWakingEntry, List.any_eq_false]
  intro y hy
  exact List.filter_eq_nil_iff.mp hleft y (ordered_perm.mem_iff.mpr hy)

/-- Two reads of block 64 wait behind an eviction of it, and one of block 128 behind another. -/
def evicting : MissAddressFile :=
  let read (a : MemoryAddress) : MemoryTransport :=
    { msg := { type := .ReadReq, address := a }, dest := { type := .Directory } }
  ((((create 8).insert (read 64) 64 .eWaitRequest).insert (read 64) 64 .eWaitEvict).insert
    (read 128) 128 .eWaitRequest).insert (read 64) 64 .eWaitRequest

theorem wakeAfterEvict_correct_evicting : ∃ e ∈ evicting.entries, e.stamp = 1 ∧
    ∃ woken, evicting.wakeAfterEvictLoop e = .ok woken ∧ woken.waking.map MAFEntry.stamp = [0, 1, 3] := by
  have hget : (evicting.get? 1).isSome = true := by decide
  obtain ⟨e, he⟩ := Option.isSome_iff_exists.mp hget
  obtain ⟨hmem, hstamp⟩ := get?_eq_some.mp he
  obtain ⟨woken, hloop, hordered, -⟩ := wakeAfterEvict_correct hmem
  refine ⟨e, hmem, hstamp, woken, hloop, ?_⟩
  obtain rfl : e = _ := Option.some.inj (he.symm.trans rfl)
  rw [waking, hordered]
  decide

end HandingOut

end MissAddressFile

end nCMPCache
