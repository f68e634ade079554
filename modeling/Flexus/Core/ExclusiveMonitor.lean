import Flexus.Lib.Keyed
import Flexus.Lib.Runs
import Flexus.MemQueue.Entry

/-!
# The exclusive monitors of a core

The tags that exclusive loads leave in the local physical, the local virtual and the global
monitor, and which of them go away when the core loses the line.
-/

namespace nuArchARM

open Runs

/-- The tags of a monitor: addresses with a marker and the size of the access. -/
abbrev Tags := List (BitVec 64 × BitVec 64)

namespace Tags

def find (t : Tags) (a : BitVec 64) : Option (BitVec 64) := (Keyed.lookup Prod.fst t a).map Prod.snd

/-- `operator[]` and the assignment to it. -/
def put (t : Tags) (a v : BitVec 64) : Tags :=
  if (t.find a).isSome then Keyed.alter Prod.fst a (fun e => (e.1, v)) t else t ++ [(a, v)]

theorem find_put (t : Tags) (a v x : BitVec 64) : (t.put a v).find x = if x = a then some v else t.find x := by
  unfold put find
  cases h : Keyed.lookup Prod.fst t a with
  | none =>
    rw [Option.map_none, Option.isSome_none, if_neg Bool.false_ne_true, Keyed.lookup_append_singleton]
    by_cases hx : x = a
    · subst hx
      rw [h]
      simp
    · have hne : a ≠ x := fun hax => hx hax.symm
      simp [hx, hne]
  | some e =>
    rw [Option.map_some, Option.isSome_some, if_pos rfl, Keyed.lookup_alter (f := fun e => (e.1, v)) fun _ => rfl]
    by_cases hx : x = a
    · rw [if_pos hx, if_pos hx, h]
      rfl
    · rw [if_neg hx, if_neg hx]

end Tags

/-! ## The monitors -/

/-- A failed assertion: "Only one local exclusive tag per core is allowed", or an address to
    invalidate that is not that of a line. -/
inductive MonitorFault where
  | oneTagPerCore
  | notALine
  deriving DecidableEq, Repr

inductive eExclusiveMonitorCode where
  | kMonitorSet
  | kMonitorUnset
  | kMonitorDoesntExist
  deriving DecidableEq, Repr

namespace eExclusiveMonitorCode

def code : eExclusiveMonitorCode → BitVec 64
  | kMonitorSet => 0#64
  | kMonitorUnset => 1#64
  | kMonitorDoesntExist => 2#64

end eExclusiveMonitorCode

namespace eSize

def code : eSize → BitVec 64
  | kByte => 1#64
  | kHalfWord => 2#64
  | kWord => 4#64
  | kDoubleWord => 8#64
  | kQuadWord => 16#64

end eSize

/-- What is stored for an address. -/
def monitorValue (marker : eExclusiveMonitorCode) (aSize : eSize) : BitVec 64 := (marker.code <<< 8) ||| aSize.code

/-- The marker for an address, as the functions `isExclusive` return it. -/
def Tags.marker (t : Tags) (a : BitVec 64) : BitVec 32 :=
  match t.find a with
  | none => eExclusiveMonitorCode.kMonitorDoesntExist.code.setWidth 32
  | some v => (v >>> 8).setWidth 32

/-- The monitors of a core. The keys of the local ones are the addresses of the two types. -/
structure ExclusiveMonitors where
  theLocalExclusivePhysicalMonitor : Tags
  theLocalExclusiveVirtualMonitor : Tags
  GLOBAL_EXCLUSIVE_MONITOR : Tags
  deriving Repr

/-- A local monitor keeps one tag. -/
def Tags.markLocal (t : Tags) (a : BitVec 64) (aSize : eSize) (marker : eExclusiveMonitorCode) :
    Except MonitorFault Tags :=
  if (t.find a).isSome then .ok (t.put a (monitorValue marker aSize))
  else if 0 < t.length then .error .oneTagPerCore
  else .ok (t.put a (monitorValue marker aSize))

namespace ExclusiveMonitors

variable (s : ExclusiveMonitors)

def markExclusiveVA (anAddress : BitVec 64) (aSize : eSize) (marker : eExclusiveMonitorCode) :
    Except MonitorFault ExclusiveMonitors := do
  return { s with
    theLocalExclusiveVirtualMonitor := ← s.theLocalExclusiveVirtualMonitor.markLocal anAddress aSize marker }

def markExclusiveLocal (anAddress : BitVec 64) (aSize : eSize) (marker : eExclusiveMonitorCode) :
    Except MonitorFault ExclusiveMonitors := do
  return { s with
    theLocalExclusivePhysicalMonitor := ← s.theLocalExclusivePhysicalMonitor.markLocal anAddress aSize marker }

def markExclusiveGlobal (anAddress : BitVec 64) (aSize : eSize) (marker : eExclusiveMonitorCode) :
    ExclusiveMonitors :=
  { s with GLOBAL_EXCLUSIVE_MONITOR := s.GLOBAL_EXCLUSIVE_MONITOR.put anAddress (monitorValue marker aSize) }

def isExclusiveLocal (anAddress : BitVec 64) : BitVec 32 := s.theLocalExclusivePhysicalMonitor.marker anAddress

def isExclusiveVA (anAddress : BitVec 64) : BitVec 32 := s.theLocalExclusiveVirtualMonitor.marker anAddress

def isExclusiveGlobal (anAddress : BitVec 64) : BitVec 32 := s.GLOBAL_EXCLUSIVE_MONITOR.marker anAddress

def clearExclusiveLocal : ExclusiveMonitors :=
  { s with theLocalExclusivePhysicalMonitor := [], theLocalExclusiveVirtualMonitor := [] }

/-- The part of `invalidate` that looks after the monitors. -/
def invalidate (theCoherenceUnit anAddress : BitVec 64) : Except MonitorFault ExclusiveMonitors := do
  if anAddress ≠ anAddress &&& ~~~(theCoherenceUnit - 1#64) then .error .notALine
  else if s.isExclusiveLocal anAddress ≠ 2#32 then do
    let s := s.markExclusiveGlobal anAddress .kWord .kMonitorUnset
    let s ← s.markExclusiveLocal anAddress .kWord .kMonitorUnset
    s.markExclusiveVA anAddress .kWord .kMonitorUnset
  else return s

end ExclusiveMonitors

/-! ## Runs -/

/-- What an instruction or the memory system does to the monitors: the commit of an exclusive
    load, the check of an exclusive store, the commit of an exclusive store or the retirement of
    `CLREX`, and the loss of a line. -/
inductive MonitorEvent where
  | markExclusiveMonitor (addr : BitVec 64) (theSize : eSize)
  | exclusiveMonitor (addr : BitVec 64) (theSize : eSize)
  | clearExclusiveMonitor
  | invalidate (anAddress : BitVec 64)
  deriving DecidableEq, Repr

/-- The physical address of the 64-byte line that is accessed. -/
def lineAddress (translateVirtualAddress : BitVec 64 → BitVec 64) (addr : BitVec 64) : BitVec 64 :=
  translateVirtualAddress ((addr >>> 6) <<< 6)

/-- One event. The check of an exclusive store that finds no tag is scheduled again. -/
def ExclusiveMonitors.step (translateVirtualAddress : BitVec 64 → BitVec 64) (theCoherenceUnit : BitVec 64)
    (s : ExclusiveMonitors) : MonitorEvent → Except MonitorFault ExclusiveMonitors
  | .markExclusiveMonitor addr theSize => do
    let pAddress := lineAddress translateVirtualAddress addr
    let s := s.markExclusiveGlobal pAddress theSize .kMonitorSet
    let s ← s.markExclusiveLocal pAddress theSize .kMonitorSet
    s.markExclusiveVA pAddress theSize .kMonitorSet
  | .exclusiveMonitor addr theSize =>
    let pAddress := lineAddress translateVirtualAddress addr
    if s.isExclusiveLocal pAddress = 2#32 then .ok s
    else s.markExclusiveLocal pAddress theSize .kMonitorDoesntExist
  | .clearExclusiveMonitor => .ok s.clearExclusiveLocal
  | .invalidate anAddress => s.invalidate theCoherenceUnit anAddress

/-- No core has tags at first. -/
def ExclusiveMonitors.initial : ExclusiveMonitors := ⟨[], [], []⟩

namespace ExclusiveMonitors

/-- A tag for the address is set in one of the monitors. -/
def IsSet (s : ExclusiveMonitors) (a : BitVec 64) : Prop :=
  s.isExclusiveLocal a = 0#32 ∨ s.isExclusiveVA a = 0#32 ∨ s.isExclusiveGlobal a = 0#32

/-- The tags for an address in the three monitors. -/
def tags (s : ExclusiveMonitors) (a : BitVec 64) : Option (BitVec 64) × Option (BitVec 64) × Option (BitVec 64) :=
  (s.theLocalExclusivePhysicalMonitor.find a, s.theLocalExclusiveVirtualMonitor.find a,
    s.GLOBAL_EXCLUSIVE_MONITOR.find a)

/-- The address is in a line. -/
def InLine (theCoherenceUnit anAddress a : BitVec 64) : Prop := a &&& ~~~(theCoherenceUnit - 1#64) = anAddress

instance (theCoherenceUnit anAddress a : BitVec 64) : Decidable (InLine theCoherenceUnit anAddress a) :=
  inferInstanceAs (Decidable (_ = _))

/-- The loss of a line clears the monitors: no assertion fails, no tag for an address of the line is
    set, and the tags for other lines stay. -/
def Clears (theCoherenceUnit : BitVec 64) (s : ExclusiveMonitors) (anAddress : BitVec 64) : Prop :=
  ∃ s', s.invalidate theCoherenceUnit anAddress = .ok s' ∧
    (∀ a, InLine theCoherenceUnit anAddress a → ¬s'.IsSet a) ∧
    ∀ a, ¬InLine theCoherenceUnit anAddress a → s'.tags a = s.tags a

/-- The only set tag of the line is at its first address, where the local monitor has a tag that no
    exclusive store has used. -/
def Covered (theCoherenceUnit : BitVec 64) (s : ExclusiveMonitors) (anAddress : BitVec 64) : Prop :=
  (∀ a, InLine theCoherenceUnit anAddress a → a ≠ anAddress → ¬s.IsSet a) ∧
    (s.isExclusiveLocal anAddress = 2#32 → ¬s.IsSet anAddress)

/-- The two local monitors have tags for the same addresses. -/
def SameKeys (s : ExclusiveMonitors) : Prop :=
  ∀ a, (s.theLocalExclusivePhysicalMonitor.find a).isSome = (s.theLocalExclusiveVirtualMonitor.find a).isSome

end ExclusiveMonitors

/-! ## The operations on a monitor -/

namespace Tags

variable {t t' : Tags} {a : BitVec 64} {aSize : eSize} {marker' : eExclusiveMonitorCode}

theorem marker_put (t : Tags) (a : BitVec 64) (m : eExclusiveMonitorCode) (aSize : eSize) (x : BitVec 64) :
    (t.put a (monitorValue m aSize)).marker x = if x = a then m.code.setWidth 32 else t.marker x := by
  have hvalue : (monitorValue m aSize >>> 8).setWidth 32 = m.code.setWidth 32 := by
    cases m <;> cases aSize <;> decide
  unfold marker
  rw [find_put]
  by_cases hx : x = a
  · rw [if_pos hx, if_pos hx]
    exact hvalue
  · rw [if_neg hx, if_neg hx]

theorem markLocal_of_find (h : (t.find a).isSome = true) (m : eExclusiveMonitorCode) :
    t.markLocal a aSize m = .ok (t.put a (monitorValue m aSize)) := if_pos h

theorem put_of_markLocal {m : eExclusiveMonitorCode} (h : t.markLocal a aSize m = .ok t') :
    t' = t.put a (monitorValue m aSize) := by
  unfold markLocal at h
  split at h
  · exact (Except.ok.inj h).symm
  split at h
  · cases h
  · exact (Except.ok.inj h).symm

/-- A tag is found where the marker says that there is one. -/
theorem find_of_marker (h : t.marker a ≠ 2#32) : (t.find a).isSome = true := by
  unfold marker at h
  split at h
  · exact absurd rfl h
  · next v hv =>
    rw [hv]
    rfl

end Tags

/-! ## The loss of a line -/

namespace ExclusiveMonitors

variable {translateVirtualAddress : BitVec 64 → BitVec 64} {theCoherenceUnit : BitVec 64}
  {s s' : ExclusiveMonitors} {anAddress : BitVec 64}

/-- The monitors after the tags for an address have been marked in all three. -/
def markAll (s : ExclusiveMonitors) (a : BitVec 64) (aSize : eSize) (m : eExclusiveMonitorCode) : ExclusiveMonitors :=
  ⟨s.theLocalExclusivePhysicalMonitor.put a (monitorValue m aSize),
    s.theLocalExclusiveVirtualMonitor.put a (monitorValue m aSize),
    s.GLOBAL_EXCLUSIVE_MONITOR.put a (monitorValue m aSize)⟩

theorem sameKeys_markAll (h : s.SameKeys) (a : BitVec 64) (aSize : eSize) (m : eExclusiveMonitorCode) :
    (s.markAll a aSize m).SameKeys := by
  intro x
  rw [markAll, Tags.find_put, Tags.find_put]
  by_cases hx : x = a
  · rw [if_pos hx, if_pos hx]
  · rw [if_neg hx, if_neg hx]
    exact h x

/-- Marking all three monitors one after another. -/
theorem markAll_of_marks {a : BitVec 64} {aSize : eSize} {m : eExclusiveMonitorCode}
    (h : (do
      let s₁ ← (s.markExclusiveGlobal a aSize m).markExclusiveLocal a aSize m
      s₁.markExclusiveVA a aSize m) = .ok s') : s' = s.markAll a aSize m := by
  simp only [markExclusiveLocal, markExclusiveVA, markExclusiveGlobal, bind, Except.bind, pure, Except.pure] at h
  split at h
  · cases h
  next s₁ hs₁ =>
  split at hs₁
  · cases hs₁
  next t ht =>
  cases hs₁
  split at h
  · cases h
  next t' ht' =>
  cases h
  rw [Tags.put_of_markLocal ht, Tags.put_of_markLocal ht']
  rfl

theorem invalidate_of_marker (hline : InLine theCoherenceUnit anAddress anAddress) (hkeys : s.SameKeys)
    (h : s.isExclusiveLocal anAddress ≠ 2#32) :
    s.invalidate theCoherenceUnit anAddress = .ok (s.markAll anAddress .kWord .kMonitorUnset) := by
  have hlocal := Tags.find_of_marker h
  have hva := (hkeys anAddress).symm.trans hlocal
  have hline' : ¬anAddress ≠ anAddress &&& ~~~(theCoherenceUnit - 1#64) := fun hne => hne hline.symm
  unfold invalidate
  rw [if_neg hline', if_pos h]
  simp only [markExclusiveLocal, markExclusiveVA, markExclusiveGlobal, Tags.markLocal_of_find hlocal,
    Tags.markLocal_of_find hva, bind, Except.bind, pure, Except.pure]
  rfl

theorem invalidate_of_no_marker (hline : InLine theCoherenceUnit anAddress anAddress)
    (h : s.isExclusiveLocal anAddress = 2#32) : s.invalidate theCoherenceUnit anAddress = .ok s := by
  have hline' : ¬anAddress ≠ anAddress &&& ~~~(theCoherenceUnit - 1#64) := fun hne => hne hline.symm
  unfold invalidate
  rw [if_neg hline', if_neg (not_not.mpr h)]
  rfl

theorem step_sameKeys {e : MonitorEvent} (hkeys : s.SameKeys)
    (h : s.step translateVirtualAddress theCoherenceUnit e = .ok s') : s'.SameKeys := by
  cases e with
  | markExclusiveMonitor addr theSize =>
    rw [markAll_of_marks h]
    exact sameKeys_markAll hkeys _ _ _
  | exclusiveMonitor addr theSize =>
    simp only [step] at h
    split at h
    · cases h
      exact hkeys
    · next hmarker =>
      have hfound := Tags.find_of_marker hmarker
      simp only [markExclusiveLocal, Tags.markLocal_of_find hfound, bind, Except.bind, pure, Except.pure] at h
      cases h
      intro x
      dsimp only
      rw [Tags.find_put]
      by_cases hx : x = lineAddress translateVirtualAddress addr
      · rw [if_pos hx, hx, ← hkeys, hfound]
        rfl
      · rw [if_neg hx]
        exact hkeys x
  | clearExclusiveMonitor =>
    cases h
    exact fun _ => rfl
  | invalidate a =>
    simp only [step, invalidate] at h
    split at h
    · cases h
    split at h
    · rw [markAll_of_marks h]
      exact sameKeys_markAll hkeys _ _ _
    · cases h
      exact hkeys

theorem reaches_sameKeys (h : Reaches (step translateVirtualAddress theCoherenceUnit) Anything initial s) :
    s.SameKeys :=
  h.invariant (fun _ => rfl) fun _ _ _ hkeys _ hok => step_sameKeys hkeys hok

/-- Whether a tag is set after all three monitors have been unset at an address. -/
theorem isSet_markAll_unset (a x : BitVec 64) (aSize : eSize) :
    (s.markAll a aSize .kMonitorUnset).IsSet x ↔ x ≠ a ∧ s.IsSet x := by
  unfold IsSet isExclusiveLocal isExclusiveVA isExclusiveGlobal markAll
  rw [Tags.marker_put, Tags.marker_put, Tags.marker_put]
  by_cases hx : x = a
  · rw [if_pos hx, if_pos hx, if_pos hx]
    refine iff_of_false (fun h => ?_) (fun h => h.1 hx)
    rcases h with h | h | h <;> cases h
  · rw [if_neg hx, if_neg hx, if_neg hx]
    exact (and_iff_right hx).symm

theorem tags_markAll {a x : BitVec 64} (hx : x ≠ a) (aSize : eSize) (m : eExclusiveMonitorCode) :
    (s.markAll a aSize m).tags x = s.tags x := by
  rw [tags, markAll, Tags.find_put, Tags.find_put, Tags.find_put, if_neg hx, if_neg hx, if_neg hx]
  rfl

/-- **The loss of a line and the exclusive monitors**: in every state that the core reaches, no
    assertion fails and the tags for other lines stay, but the tags for the line are cleared exactly
    when they are covered by a local tag that no exclusive store has used and no clear has removed. -/
theorem clears_iff (h : Reaches (step translateVirtualAddress theCoherenceUnit) Anything initial s)
    (hline : InLine theCoherenceUnit anAddress anAddress) :
    s.Clears theCoherenceUnit anAddress ↔ s.Covered theCoherenceUnit anAddress := by
  by_cases hmarker : s.isExclusiveLocal anAddress = 2#32
  · have hok := invalidate_of_no_marker hline hmarker
    constructor
    · rintro ⟨s', hs', hunset, -⟩
      rw [hok] at hs'
      cases hs'
      exact ⟨fun a ha _ => hunset a ha, fun _ => hunset anAddress hline⟩
    · rintro ⟨hothers, hfirst⟩
      refine ⟨s, hok, fun a ha => ?_, fun _ _ => rfl⟩
      by_cases hsame : a = anAddress
      · rw [hsame]
        exact hfirst hmarker
      · exact hothers a ha hsame
  · have hok := invalidate_of_marker hline (reaches_sameKeys h) hmarker
    constructor
    · rintro ⟨s', hs', hunset, -⟩
      rw [hok] at hs'
      cases hs'
      refine ⟨fun a ha hne hset => ?_, fun hnone => absurd hnone hmarker⟩
      exact hunset a ha ((isSet_markAll_unset anAddress a _).mpr ⟨hne, hset⟩)
    · rintro ⟨hothers, -⟩
      refine ⟨_, hok, fun a ha hset => ?_, fun a ha => ?_⟩
      · obtain ⟨hne, hset⟩ := (isSet_markAll_unset anAddress a _).mp hset
        exact hothers a ha hne hset
      · apply tags_markAll
        rintro rfl
        exact ha hline

/-- An exclusive load of the line at 4096. -/
theorem step_load : initial.step (fun a => a) 64#64 (.markExclusiveMonitor 4096#64 .kWord) =
    .ok (initial.markAll 4096#64 .kWord .kMonitorSet) := rfl

theorem clears_iff_after_load :
    (initial.markAll 4096#64 .kWord .kMonitorSet).Clears 64#64 4096#64 ↔
      (initial.markAll 4096#64 .kWord .kMonitorSet).Covered 64#64 4096#64 :=
  clears_iff (.next .start trivial step_load) (by decide)

/-- An exclusive load of the line at 4096 and a clear. The global tag outlives the line. -/
theorem not_clears : ∃ s, Reaches (step (fun a => a) 64#64) Anything initial s ∧ ¬s.Clears 64#64 4096#64 := by
  have hclear : (initial.markAll 4096#64 .kWord .kMonitorSet).step (fun a => a) 64#64 .clearExclusiveMonitor =
      .ok (initial.markAll 4096#64 .kWord .kMonitorSet).clearExclusiveLocal := rfl
  have hload : Reaches (step (fun a => a) 64#64) Anything initial _ := .next .start trivial step_load
  have hreach := Reaches.next hload trivial hclear
  refine ⟨_, hreach, fun hclears => ?_⟩
  have hcovered := (clears_iff hreach (by decide)).mp hclears
  exact hcovered.2 (by decide) (Or.inr (Or.inr (by decide)))

/-! ## Lines of 64 bytes -/

/-- Every tag is for the first address of a 64-byte line. -/
def LineKeys (s : ExclusiveMonitors) : Prop := ∀ a, s.tags a ≠ (none, none, none) → a &&& 63#64 = 0#64

theorem lineKeys_markAll (h : s.LineKeys) {a : BitVec 64} (ha : a &&& 63#64 = 0#64) (aSize : eSize)
    (m : eExclusiveMonitorCode) : (s.markAll a aSize m).LineKeys := by
  intro x hx
  by_cases hsame : x = a
  · rw [hsame, ha]
  · rw [tags_markAll hsame] at hx
    exact h x hx

/-- A translation that keeps the place within a line. -/
theorem lineAddress_aligned (htranslate : ∀ a, translateVirtualAddress a &&& 63#64 = a &&& 63#64) (addr : BitVec 64) :
    lineAddress translateVirtualAddress addr &&& 63#64 = 0#64 := by
  rw [lineAddress, htranslate]
  apply BitVec.eq_of_getLsbD_eq
  intro i hi
  have hmask : ∀ i < 64, (63#64).getLsbD i = decide (i < 6) := by decide
  rw [BitVec.getLsbD_and, BitVec.getLsbD_shiftLeft, hmask i hi, BitVec.getLsbD_zero]
  by_cases hlow : i < 6
  · rw [decide_eq_true hlow, Bool.not_true, Bool.and_false, Bool.false_and, Bool.false_and]
  · rw [decide_eq_false hlow, Bool.and_false]

theorem lineKeys_of_found (h : s.LineKeys) {a : BitVec 64} (hmarker : s.isExclusiveLocal a ≠ 2#32) :
    a &&& 63#64 = 0#64 := by
  apply h a
  intro hnone
  have hfound := Tags.find_of_marker hmarker
  have hlocal : s.theLocalExclusivePhysicalMonitor.find a = none := congrArg Prod.fst hnone
  rw [hlocal] at hfound
  cases hfound

theorem reaches_lineKeys (htranslate : ∀ a, translateVirtualAddress a &&& 63#64 = a &&& 63#64)
    (h : Reaches (step translateVirtualAddress theCoherenceUnit) Anything initial s) : s.LineKeys := by
  refine h.invariant (fun a ha => absurd rfl ha) ?_
  intro s e s' hkeys _ hok
  cases e with
  | markExclusiveMonitor addr theSize =>
    rw [markAll_of_marks hok]
    exact lineKeys_markAll hkeys (lineAddress_aligned htranslate addr) _ _
  | exclusiveMonitor addr theSize =>
    simp only [step] at hok
    split at hok
    · cases hok
      exact hkeys
    · simp only [markExclusiveLocal, bind, Except.bind, pure, Except.pure] at hok
      split at hok
      · cases hok
      next t ht =>
      cases hok
      intro x hx
      by_cases hsame : x = lineAddress translateVirtualAddress addr
      · rw [hsame, lineAddress_aligned htranslate]
      · apply hkeys x
        rwa [tags, Tags.put_of_markLocal ht, Tags.find_put, if_neg hsame] at hx
  | clearExclusiveMonitor =>
    cases hok
    intro a ha
    apply hkeys a
    intro hnone
    apply ha
    have hglobal : s.GLOBAL_EXCLUSIVE_MONITOR.find a = none := congrArg (fun p => p.2.2) hnone
    rw [tags, clearExclusiveLocal, hglobal]
    rfl
  | invalidate a =>
    simp only [step, invalidate] at hok
    split at hok
    · cases hok
    split at hok
    · next hmarker =>
      rw [markAll_of_marks hok]
      exact lineKeys_markAll hkeys (lineKeys_of_found hkeys hmarker) _ _
    · cases hok
      exact hkeys

/-- With lines of 64 bytes it is only the tags at the address of the line that can stay set. -/
theorem covered_iff (htranslate : ∀ a, translateVirtualAddress a &&& 63#64 = a &&& 63#64)
    (h : Reaches (step translateVirtualAddress 64#64) Anything initial s) :
    s.Covered 64#64 anAddress ↔ (s.isExclusiveLocal anAddress = 2#32 → ¬s.IsSet anAddress) := by
  refine and_iff_right fun a ha hne hset => hne ?_
  have halign : a &&& 63#64 = 0#64 := by
    apply reaches_lineKeys htranslate h a
    intro hnone
    have hlocal : s.theLocalExclusivePhysicalMonitor.find a = none := congrArg Prod.fst hnone
    have hva : s.theLocalExclusiveVirtualMonitor.find a = none := congrArg (fun p => p.2.1) hnone
    have hglobal : s.GLOBAL_EXCLUSIVE_MONITOR.find a = none := congrArg (fun p => p.2.2) hnone
    unfold IsSet isExclusiveLocal isExclusiveVA isExclusiveGlobal Tags.marker at hset
    rw [hlocal, hva, hglobal] at hset
    rcases hset with hset | hset | hset <;> cases hset
  have hsplit : a &&& ~~~(64#64 - 1#64) ||| a &&& 63#64 = a := by
    rw [← BitVec.and_or_distrib_left]
    have hall : ~~~(64#64 - 1#64) ||| 63#64 = BitVec.allOnes 64 := by decide
    rw [hall, BitVec.and_allOnes]
  have hline : a &&& ~~~(64#64 - 1#64) = anAddress := ha
  rw [← hsplit, halign, hline, BitVec.or_zero]

theorem covered_iff_after_load :
    (initial.markAll 4096#64 .kWord .kMonitorSet).Covered 64#64 4096#64 ↔
      ((initial.markAll 4096#64 .kWord .kMonitorSet).isExclusiveLocal 4096#64 = 2#32 →
        ¬(initial.markAll 4096#64 .kWord .kMonitorSet).IsSet 4096#64) :=
  covered_iff (fun _ => rfl) (.next .start trivial step_load)

end ExclusiveMonitors

end nuArchARM
