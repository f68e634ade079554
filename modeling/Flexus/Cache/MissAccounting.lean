import Flexus.Cache.MissTracker

/-!
# What the counts of misses say

A pass of the loop accounts for the event at the front as one more mark.
-/

namespace nCache

open Census Runs

/-- An event as a mark of a miss, which is known by its tracker and its kind. -/
def MissEvent.mark (e : MissEvent) : Mark (Nat × MissKind) :=
  ⟨(e.theTracker, e.theType.kind), e.theCycle, e.theType.starts⟩

def marks (es : List MissEvent) : List (Mark (Nat × MissKind)) := es.map MissEvent.mark

def marksOf (kind : MissKind) (es : List MissEvent) : List (Mark (Nat × MissKind)) :=
  (marks es).filter fun m => m.key.2 = kind

/-- A count is in 32 bits. -/
structure Account.Shows {κ : Type*} (a : Account) (ms : List (Mark κ)) : Prop where
  ends_le : (left ms).length ≤ (entered ms).length
  theCount : a.theCount = BitVec.ofNat 32 ((entered ms).length - (left ms).length)
  theLastAccounting : a.theLastAccounting = lastTime ms
  theCyclesWithN : a.theCyclesWithN =
    (stretches ms).map fun s => (BitVec.ofNat 32 s.present, (s.closes : Int) - s.opens)

/-- The variables after the events of misses that are not contended. -/
structure MissTracker.Accounts (m : MissTracker) (es : List MissEvent) : Prop where
  miss : m.miss.Shows (marks es)
  nonCoherence : m.nonCoherence.Shows (marksOf .NonCoherence es)
  coherence : m.coherence.Shows (marksOf .Coherence es)

/-! ## Accounts -/

namespace Account

variable {κ : Type*} {a : Account} {ms : List (Mark κ)} {m : Mark κ} {front : MissEvent}

/-- What is done to an account with an event of its kind. -/
def record (a : Account) (t : TransactionTracker) (front : MissEvent) : Account :=
  if front.theType.starts then a.start front.theCycle else a.finish front.theCycle t.startCycle

theorem Shows.empty : Account.empty.Shows ([] : List (Mark κ)) := ⟨Nat.le_refl _, rfl, rfl, rfl⟩

theorem Shows.account_append (h : a.Shows ms) (m : Mark κ) :
    (a.account m.time).theCyclesWithN =
      (stretches (ms ++ [m])).map fun s => (BitVec.ofNat 32 s.present, (s.closes : Int) - s.opens) := by
  rw [stretches_append, List.map_append, ← h.theCyclesWithN]
  simp only [account, h.theCount, h.theLastAccounting, List.map_cons, List.map_nil, present]

theorem Shows.record (h : a.Shows ms) (t : TransactionTracker) (horderly : Orderly (ms ++ [m]))
    (htime : m.time = front.theCycle) (hstarts : m.enters = front.theType.starts) :
    (a.record t front).Shows (ms ++ [m]) := by
  have hcycles := h.account_append m
  rw [htime] at hcycles
  rw [Account.record]
  split
  · next henters =>
    have hcount := horderly.present_enter (hstarts.trans henters)
    rw [present, present] at hcount
    refine ⟨horderly.left_le, ?_, ?_, hcycles⟩
    · rw [hcount]
      simp [start, h.theCount, BitVec.ofNat_add]
    · rw [lastTime_append_singleton, htime]
      rfl
  · next hleaves =>
    have hcount := horderly.present_leave (hstarts.trans (Bool.eq_false_iff.mpr hleaves))
    rw [present, present] at hcount
    refine ⟨horderly.left_le, ?_, ?_, hcycles⟩
    · simp only [finish, account, h.theCount, ← hcount, BitVec.ofNat_add]
      exact BitVec.add_sub_cancel ..
    · rw [lastTime_append_singleton, htime]
      rfl

end Account

namespace MissTracker

variable {m : MissTracker} {t : TransactionTracker} {front : MissEvent} {es : List MissEvent}

/-- An event is that of a contended miss, or it is recorded in the account of all misses and in
    that of its kind. -/
theorem process_cases (m : MissTracker) (t : TransactionTracker) (hknown : front.theType ≠ .kStart_Unknown) :
    (front.theType = .kStart_Coherence ∧
      m.process t front =
        ({ m with
          counters := m.counters.count (t.OS.getD false) (classOf t front true)
          theMissTable := m.theMissTable.filter fun e => e.theTracker ≠ front.theTracker }, true)) ∨
    ∃ address, m.process t front =
      ({ m with
        theLastCoherenceAddress := address
        miss := m.miss.record t front
        nonCoherence := if front.theType.kind = .NonCoherence then m.nonCoherence.record t front else m.nonCoherence
        coherence := if front.theType.kind = .Coherence then m.coherence.record t front else m.coherence
        counters :=
          if front.theType.starts then m.counters.count (t.OS.getD false) (classOf t front false)
          else m.counters }, false) := by
  obtain ⟨type, cycle, tracker⟩ := front
  cases type with
  | kStart_Unknown => exact absurd rfl hknown
  | kStart_Coherence =>
    rw [process]
    simp only
    split
    · next a _ =>
      split
      · exact .inl ⟨trivial, rfl⟩
      · exact .inr ⟨a &&& ~~~63#64, rfl⟩
    · exact .inr ⟨0, rfl⟩
  | _ => exact .inr ⟨m.theLastCoherenceAddress, rfl⟩

theorem marksOf_append (kind : MissKind) (es : List MissEvent) (front : MissEvent) :
    marksOf kind (es ++ [front]) =
      if front.theType.kind = kind then marksOf kind es ++ [front.mark] else marksOf kind es := by
  have hkey : front.mark.key.2 = front.theType.kind := rfl
  rw [marksOf, marks, List.map_append, List.map_singleton, List.filter_append, ← hkey]
  split
  · next hkind =>
    rw [List.filter_cons_of_pos (by simpa using hkind), List.filter_nil]
    rfl
  · next hkind =>
    rw [List.filter_cons_of_neg (by simpa using hkind), List.filter_nil, List.append_nil]
    rfl

/-- The events of a kind with one more. -/
theorem shows_marksOf {a : Account} {kind : MissKind} (h : a.Shows (marksOf kind es)) (t : TransactionTracker)
    (horderly : Orderly (marks (es ++ [front]))) :
    (if front.theType.kind = kind then a.record t front else a).Shows (marksOf kind (es ++ [front])) := by
  have hkind := horderly.ofKeys fun k => decide (k.2 = kind)
  rw [marksOf_append]
  split
  · next hsame =>
    have happend := marksOf_append kind es front
    rw [if_pos hsame] at happend
    exact h.record t (happend ▸ hkind) rfl rfl
  · exact h

/-- An event that is not of a contended miss is accounted for. -/
theorem Accounts.process (h : m.Accounts es) (horderly : Orderly (marks (es ++ [front])))
    (hknown : front.theType ≠ .kStart_Unknown) :
    (m.process t front).1.Accounts (if (m.process t front).2 then es else es ++ [front]) := by
  obtain ⟨-, hprocess⟩ | ⟨address, hprocess⟩ := process_cases m t hknown
  · rw [hprocess]
    exact ⟨h.miss, h.nonCoherence, h.coherence⟩
  · have hmarks : marks (es ++ [front]) = marks es ++ [front.mark] := List.map_append
    rw [hprocess]
    refine ⟨?_, shows_marksOf h.nonCoherence t horderly, shows_marksOf h.coherence t horderly⟩
    rw [if_neg Bool.false_ne_true, hmarks]
    exact h.miss.record t (hmarks ▸ horderly) rfl rfl

end MissTracker

end nCache
