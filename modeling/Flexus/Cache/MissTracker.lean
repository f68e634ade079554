import Flexus.Lib.Census
import Flexus.Lib.Runs

/-!
# The accounting of misses

Markers for the start and the end of a miss wait in a table that is ordered by cycle, until the
misses that started before are finished and their kind is known. Contended misses are taken out of
the table and only counted. All others are accounted for with their number at every time.
-/

namespace nCache

open Census Runs

inductive eMissType where
  | kStart_Unknown | kStart_Coherence | kStart_WrongPath | kStart_NonCoherence
  | kEnd_Coherence | kEnd_NonCoherence | kEnd_WrongPath
  deriving DecidableEq, Repr

inductive MissKind where
  | Unknown | Coherence | NonCoherence | WrongPath
  deriving DecidableEq, Repr

namespace eMissType

def starts : eMissType → Bool
  | kStart_Unknown | kStart_Coherence | kStart_WrongPath | kStart_NonCoherence => true
  | kEnd_Coherence | kEnd_NonCoherence | kEnd_WrongPath => false

def kind : eMissType → MissKind
  | kStart_Unknown => .Unknown
  | kStart_Coherence | kEnd_Coherence => .Coherence
  | kStart_NonCoherence | kEnd_NonCoherence => .NonCoherence
  | kStart_WrongPath | kEnd_WrongPath => .WrongPath

end eMissType

/-- The cycle of the call that made it. The tracker is known by a number. -/
structure MissEvent where
  theType : eMissType
  theCycle : Nat
  theTracker : Nat
  deriving DecidableEq, Repr

inductive tFillType where
  | eCold | eReplacement | eCoherence | eDGP | eDMA | ePrefetch | eFetch | eNAW | eDataPrivate
  | eDataSharedRO | eDataSharedRW
  deriving DecidableEq, Repr

/-- What is read of a tracker. -/
structure TransactionTracker where
  address : Option (BitVec 64)
  startCycle : Nat
  wrongPath : Option Bool
  OS : Option Bool
  fillType : Option tFillType
  speculativeAtomicLoad : Option Bool
  deriving DecidableEq, Repr

/-- The variables and statistics that there are for all misses, for coherence misses and for the
    others. A histogram is given by its samples, and cycles with a number of misses by the pairs
    that were added. -/
structure Account where
  theLastAccounting : Nat
  theLastStart : Nat
  theCount : BitVec 32
  theCyclesWithN : List (BitVec 32 × Int)
  theInterarrivals : List Int
  theInterarrivalsSum : Int
  theLatencies : List Int
  theLatenciesSum : Int
  deriving DecidableEq, Repr

namespace Account

def empty : Account := ⟨0, 0, 0, [], [], 0, [], 0⟩

variable (a : Account) (cycle : Nat)

def account : Account :=
  { a with
    theCyclesWithN := a.theCyclesWithN ++ [(a.theCount, (cycle : Int) - a.theLastAccounting)]
    theLastAccounting := cycle }

def start : Account :=
  { a.account cycle with
    theCount := a.theCount + 1
    theInterarrivals := a.theInterarrivals ++ [(cycle : Int) - a.theLastStart]
    theInterarrivalsSum := a.theInterarrivalsSum + ((cycle : Int) - a.theLastStart)
    theLastStart := cycle }

def finish (startCycle : Nat) : Account :=
  { a.account cycle with
    theCount := a.theCount - 1
    theLatencies := a.theLatencies ++ [(cycle : Int) - startCycle]
    theLatenciesSum := a.theLatenciesSum + ((cycle : Int) - startCycle) }

end Account

inductive MissClass where
  | NonCoherence | Coherence | SpecAtomicCoherence | CohContend | WrongPath
  deriving DecidableEq, Repr

def MissClass.kind : MissClass → MissKind
  | NonCoherence => .NonCoherence
  | Coherence | SpecAtomicCoherence | CohContend => .Coherence
  | WrongPath => .WrongPath

/-- All misses, those of the system and of users, and those of each class. -/
structure MissCounters where
  theMisses : Nat
  theMisses_of : Bool → Nat
  theMisses_by : Bool → MissClass → Nat

def MissCounters.count (c : MissCounters) (system : Bool) (cls : MissClass) : MissCounters where
  theMisses := c.theMisses + 1
  theMisses_of s := if s = system then c.theMisses_of s + 1 else c.theMisses_of s
  theMisses_by s k := if (s, k) = (system, cls) then c.theMisses_by s k + 1 else c.theMisses_by s k

structure MissTracker where
  theMissTable : List MissEvent
  miss : Account
  nonCoherence : Account
  coherence : Account
  theLastCoherenceAddress : BitVec 64
  counters : MissCounters

inductive MissFault where
  | assertion
  deriving DecidableEq, Repr

namespace MissTracker

def empty : MissTracker := ⟨[], .empty, .empty, .empty, 0, ⟨0, fun _ => 0, fun _ _ => 0⟩⟩

variable (m : MissTracker) (view : Nat → TransactionTracker)

/-- An event comes behind those of its cycle. -/
def insert (e : MissEvent) : MissTracker :=
  { m with
    theMissTable := m.theMissTable.takeWhile (fun x => x.theCycle ≤ e.theCycle) ++
      e :: m.theMissTable.dropWhile fun x => x.theCycle ≤ e.theCycle }

def startMiss (now tracker : Nat) : MissTracker := m.insert ⟨.kStart_Unknown, now, tracker⟩

/-- The start of a coherence miss that is not contended. -/
def startCoherence (t : TransactionTracker) (front : MissEvent) (address : BitVec 64) : MissTracker :=
  { m with
    theLastCoherenceAddress := address
    miss := m.miss.start front.theCycle
    coherence := m.coherence.start front.theCycle
    counters := m.counters.count (t.OS.getD false)
      (if t.speculativeAtomicLoad.getD false then .SpecAtomicCoherence else .Coherence) }

/-- The switch over the type of the event at the front, and whether its markers are erased. -/
def process (t : TransactionTracker) (front : MissEvent) : MissTracker × Bool :=
  match front.theType with
  | .kStart_Unknown => (m, false)
  | .kStart_NonCoherence =>
    ({ m with
      miss := m.miss.start front.theCycle
      nonCoherence := m.nonCoherence.start front.theCycle
      counters := m.counters.count (t.OS.getD false) .NonCoherence }, false)
  | .kStart_Coherence =>
    match t.address with
    | some a =>
      if a &&& ~~~63#64 = m.theLastCoherenceAddress then
        ({ m with
          counters := m.counters.count (t.OS.getD false) .CohContend
          theMissTable := m.theMissTable.filter fun e => e.theTracker ≠ front.theTracker }, true)
      else (m.startCoherence t front (a &&& ~~~63#64), false)
    | none => (m.startCoherence t front 0, false)
  | .kStart_WrongPath =>
    ({ m with
      miss := m.miss.start front.theCycle
      counters := m.counters.count (t.OS.getD false) .WrongPath }, false)
  | .kEnd_NonCoherence =>
    ({ m with
      miss := m.miss.finish front.theCycle t.startCycle
      nonCoherence := m.nonCoherence.finish front.theCycle t.startCycle }, false)
  | .kEnd_Coherence =>
    ({ m with
      miss := m.miss.finish front.theCycle t.startCycle
      coherence := m.coherence.finish front.theCycle t.startCycle }, false)
  | .kEnd_WrongPath => ({ m with miss := m.miss.finish front.theCycle t.startCycle }, false)

/-- A pass of the loop of `processTable`, unless the loop ends. -/
def pass : Option MissTracker :=
  match m.theMissTable with
  | [] => none
  | front :: rest =>
    if front.theType = .kStart_Unknown then none
    else if (m.process (view front.theTracker) front).2 then some (m.process (view front.theTracker) front).1
    else some { (m.process (view front.theTracker) front).1 with theMissTable := rest }

variable {m view}

theorem process_table (t : TransactionTracker) (front : MissEvent) :
    (m.process t front).1.theMissTable =
      if (m.process t front).2 then m.theMissTable.filter fun e => e.theTracker ≠ front.theTracker
      else m.theMissTable := by
  rw [process]
  split
  case h_3 =>
    split
    · split <;> rfl
    · rfl
  all_goals rfl

/-- Each pass takes the front out of the table. -/
theorem pass_length_lt {m' : MissTracker} (h : m.pass view = some m') :
    m'.theMissTable.length < m.theMissTable.length := by
  rw [pass] at h
  split at h
  · cases h
  · next front rest htable =>
    have hprocess := process_table (m := m) (view front.theTracker) front
    rw [htable]
    split at h
    · cases h
    · split at h
      · next herased =>
        obtain rfl := Option.some.inj h
        rw [hprocess, if_pos herased, htable, List.filter_cons_of_neg (by simp)]
        exact Nat.lt_succ_of_le (List.length_filter_le _ _)
      · obtain rfl := Option.some.inj h
        exact Nat.lt_succ_self _

def processTable (view : Nat → TransactionTracker) (m : MissTracker) : MissTracker :=
  match _h : m.pass view with
  | none => m
  | some m' => processTable view m'
termination_by m.theMissTable.length
decreasing_by exact pass_length_lt _h

variable (m view)

/-- The types of the markers of a finished miss. -/
def finishTypes (t : TransactionTracker) : eMissType × eMissType :=
  if t.wrongPath.getD false then (.kStart_WrongPath, .kEnd_WrongPath)
  else if t.fillType = some .eCoherence then (.kStart_Coherence, .kEnd_Coherence)
  else (.kStart_NonCoherence, .kEnd_NonCoherence)

/-- The first event of a tracker gets a type. -/
def retype (tracker : Nat) (type : eMissType) : List MissEvent → List MissEvent
  | [] => []
  | e :: l => if e.theTracker = tracker then { e with theType := type } :: l else e :: retype tracker type l

def find (tracker : Nat) : Option MissEvent := m.theMissTable.find? fun e => e.theTracker = tracker

/-- The part of `finishMiss` before the table is processed. -/
def settle (now : Nat) (tracker : Option Nat) : Except MissFault MissTracker :=
  match tracker with
  | none => .ok m
  | some tracker =>
    match m.find tracker with
    | none => .ok m
    | some e =>
      if e.theType = .kStart_Unknown then
        .ok ({ m with theMissTable := retype tracker (finishTypes (view tracker)).1 m.theMissTable }.insert
          ⟨(finishTypes (view tracker)).2, now, tracker⟩)
      else .error .assertion

def finishMiss (now : Nat) (tracker : Option Nat) : Except MissFault MissTracker := do
  let m ← m.settle view now tracker
  pure (m.processTable view)

end MissTracker

/-! ## Runs -/

inductive MissCall where
  | startMiss (tracker : Nat)
  | finishMiss (view : Nat → TransactionTracker) (tracker : Option Nat)

/-- The table with its history: the cycle of the last call, the trackers that were started, those
    that were finished with their kinds, the events that were processed, the class each miss was
    counted in, and the state after each event with the events until then. -/
structure MissHistory where
  tracker : MissTracker
  cycle : Nat
  started : List Nat
  finished : List (Nat × MissKind)
  processed : List MissEvent
  classified : List (Nat × Bool × MissClass)
  seen : List (List MissEvent × MissTracker)

/-- The class that a start is counted in. -/
def classOf (t : TransactionTracker) (front : MissEvent) (contended : Bool) : MissClass :=
  match front.theType with
  | .kStart_WrongPath => .WrongPath
  | .kStart_Coherence =>
    if contended then .CohContend else if t.speculativeAtomicLoad.getD false then .SpecAtomicCoherence else .Coherence
  | _ => .NonCoherence

namespace MissHistory

def empty : MissHistory := ⟨.empty, 0, [], [], [], [], []⟩

variable (s : MissHistory) (view : Nat → TransactionTracker)

/-- The history of a pass that processes an event. -/
def note (front : MissEvent) (contended : Bool) (m : MissTracker) : MissHistory :=
  let t := view front.theTracker
  { s with
    tracker := m
    processed := s.processed ++ [front]
    classified :=
      if front.theType.starts then
        s.classified ++ [(front.theTracker, t.OS.getD false, classOf t front contended)]
      else s.classified
    seen := s.seen ++ [(s.processed ++ [front], m)] }

def pass : Option MissHistory :=
  match s.tracker.theMissTable with
  | [] => none
  | front :: _ =>
    (s.tracker.pass view).map (s.note view front (s.tracker.process (view front.theTracker) front).2)

theorem pass_tracker (s : MissHistory) (view : Nat → TransactionTracker) :
    (s.pass view).map tracker = s.tracker.pass view := by
  rw [pass]
  split
  · next htable => simp [MissTracker.pass, htable]
  · rw [Option.map_map]
    exact Option.map_id'

def processTable (view : Nat → TransactionTracker) (s : MissHistory) : MissHistory :=
  match _h : s.pass view with
  | none => s
  | some s' => processTable view s'
termination_by s.tracker.theMissTable.length
decreasing_by
  have htracker := pass_tracker s view
  rw [_h] at htracker
  exact MissTracker.pass_length_lt htracker.symm

def step (s : MissHistory) (e : Nat × MissCall) : Except MissFault MissHistory :=
  match e.2 with
  | .startMiss tracker =>
    .ok { s with tracker := s.tracker.startMiss e.1 tracker, cycle := e.1, started := s.started ++ [tracker] }
  | .finishMiss view tracker => do
    let m ← s.tracker.settle view e.1 tracker
    let found := tracker.toList.filter fun tracker => (s.tracker.find tracker).isSome
    let s := { s with
      tracker := m
      cycle := e.1
      finished := s.finished ++ found.map fun tracker => (tracker, (MissTracker.finishTypes (view tracker)).1.kind) }
    pure (s.processTable view)

/-- The cycles do not decrease, and no tracker is started twice. -/
def Valid (s : MissHistory) (e : Nat × MissCall) : Prop :=
  s.cycle ≤ e.1 ∧
    match e.2 with
    | .startMiss tracker => tracker ∉ s.started
    | .finishMiss _ _ => True

/-- Without the history the table is processed alike. -/
theorem processTable_tracker : (s.processTable view).tracker = s.tracker.processTable view := by
  fun_induction processTable view s with
  | case1 s hpass =>
    have htracker := pass_tracker s view
    rw [hpass] at htracker
    rw [MissTracker.processTable.eq_def]
    split
    · rfl
    · next m' hsome => cases htracker.trans hsome
  | case2 s s' hpass ih =>
    have htracker := pass_tracker s view
    rw [hpass] at htracker
    rw [ih, MissTracker.processTable.eq_def view s.tracker]
    split
    · next hnone => cases htracker.trans hnone
    · next m' hsome =>
      obtain rfl := Option.some.inj (htracker.trans hsome)
      rfl

/-- A call does to the table what the code does. -/
theorem step_tracker (e : Nat × MissCall) :
    tracker <$> s.step e =
      match e.2 with
      | .startMiss tracker => .ok (s.tracker.startMiss e.1 tracker)
      | .finishMiss view tracker => s.tracker.finishMiss view e.1 tracker := by
  obtain ⟨now, call⟩ := e
  cases call with
  | startMiss tracker => rfl
  | finishMiss view tracker =>
    simp only [step, MissTracker.finishMiss]
    cases s.tracker.settle view now tracker with
    | error f => rfl
    | ok m => exact congrArg Except.ok (processTable_tracker _ _)

end MissHistory

end nCache
