import Flexus.Lib.Runs
import Flexus.Lib.Timetable

/-!
# The pipelines of the caches

A queue of items, each of which takes one or more accesses to a group of servers. The times from
which the servers are free are kept in a list that turns: an access takes the server at the front
and puts it at the back.
-/

namespace nMessageQueues

open Runs

inductive PipelineFault where
  | assertion
  | emptyList
  deriving DecidableEq, Repr

structure PipelineFifo (Item : Type) where
  theQueue : List (Item × Nat)
  theServerReadyTimes : List Nat
  theCurrentSize : Nat
  theIssueLatency : Nat
  theLatency : Nat
  deriving DecidableEq, Repr

namespace PipelineFifo

variable {Item : Type}

/-- The constructor. -/
def init (aNumPipelines anIssueLatency aLatency : Nat) : Except PipelineFault (PipelineFifo Item) :=
  if aNumPipelines = 0 ∨ anIssueLatency < 1 then .error .assertion
  else .ok ⟨[], List.replicate aNumPipelines 0, 0, anIssueLatency, aLatency⟩

variable (f : PipelineFifo Item)

/-- The ready times after the first passes of the loop of `enqueue`. -/
def issue (curr anIssueLatency : Nat) (times : List Nat) (passes : Nat) : List Nat :=
  (List.range passes).foldl (fun times i => times.tail ++ [curr + anIssueLatency * (i + 1)]) times

def enqueue (curr : Nat) (anItem : Item) (aRepeatCount : Nat) : Except PipelineFault (PipelineFifo Item) :=
  match f.theServerReadyTimes with
  | [] => .error .emptyList
  | front :: _ =>
    if front ≤ curr then
      .ok { f with
        theQueue := f.theQueue ++ [(anItem, curr + f.theLatency * aRepeatCount)]
        theServerReadyTimes := issue curr f.theIssueLatency f.theServerReadyTimes aRepeatCount
        theCurrentSize := f.theCurrentSize + 1 }
    else .error .assertion

def ready (curr : Nat) : Bool :=
  if f.theCurrentSize = 0 then false else f.theQueue.head?.any fun front => front.2 ≤ curr

def dequeue : Except PipelineFault (Item × PipelineFifo Item) :=
  match f.theQueue with
  | [] => .error .emptyList
  | front :: rest => .ok (front.1, { f with theQueue := rest, theCurrentSize := f.theCurrentSize - 1 })

def peek : Option Item := f.theQueue.head?.map Prod.fst

def stall : PipelineFifo Item := { f with theServerReadyTimes := f.theServerReadyTimes.map (· + 1) }

def serverAvail (curr : Nat) : Bool := f.theServerReadyTimes.head?.any fun front => front ≤ curr

def empty : Bool := f.theCurrentSize = 0

/-! ## The ready times -/

variable {f}

theorem issue_succ (curr L : Nat) (times : List Nat) (k : Nat) :
    issue curr L times (k + 1) = (issue curr L times k).tail ++ [curr + L * (k + 1)] := by
  rw [issue, List.range_succ, List.foldl_append, List.foldl_cons, List.foldl_nil, ← issue]

/-- The loop moves along the ready times, followed by those of its own accesses. -/
theorem issue_eq_drop {times : List Nat} (hne : times ≠ []) (curr L k : Nat) :
    issue curr L times k = (times ++ (List.range k).map fun i => curr + L * (i + 1)).drop k := by
  have hpos : 0 < times.length := List.length_pos_iff.mpr hne
  induction k with
  | zero => simp [issue]
  | succ k ih =>
    have hlength : k + 1 ≤ (times ++ (List.range k).map fun i => curr + L * (i + 1)).length := by
      rw [List.length_append, List.length_map, List.length_range]
      omega
    rw [issue_succ, ih, List.tail_drop, List.range_succ, List.map_append, ← List.append_assoc,
      List.drop_append_of_le_length hlength]
    rfl

theorem length_issue {times : List Nat} (hne : times ≠ []) (curr L k : Nat) :
    (issue curr L times k).length = times.length := by
  rw [issue_eq_drop hne, List.length_drop, List.length_append, List.length_map, List.length_range]
  omega

/-- The server at the front before a pass of the loop is one that was there before, or one that
    this loop has used. -/
theorem head_issue {times : List Nat} (hne : times ≠ []) {L : Nat} (curr k : Nat) :
    (issue curr L times k).head? =
      some (if h : k < times.length then times[k] else curr + L * (k - times.length + 1)) := by
  rw [issue_eq_drop hne, List.head?_drop]
  split
  · next h => rw [List.getElem?_append_left h, List.getElem?_eq_getElem h]
  · next h =>
    have hpos : 0 < times.length := List.length_pos_iff.mpr hne
    rw [List.getElem?_append_right (by omega), List.getElem?_map, List.getElem?_range (by omega)]
    rfl

/-- The accesses of an enqueued item find their servers in time: the servers that the item does
    not take are free when its first access is over, and those it takes are free when it gets to
    them. -/
def Fits (times : List Nat) (anIssueLatency curr aRepeatCount : Nat) : Prop :=
  (0 < aRepeatCount → ∀ r ∈ times.drop aRepeatCount, r ≤ curr + anIssueLatency) ∧
    ∀ i < aRepeatCount, ∀ r ∈ times[i]?, r ≤ curr + anIssueLatency * i

instance (times : List Nat) (L curr k : Nat) : Decidable (Fits times L curr k) := inferInstanceAs (Decidable (_ ∧ _))

theorem sorted_issue_iff {times : List Nat} (hne : times ≠ []) (hsorted : times.Pairwise (· ≤ ·)) (curr L k : Nat) :
    (issue curr L times k).Pairwise (· ≤ ·) ↔ (0 < k → ∀ r ∈ times.drop k, r ≤ curr + L) := by
  have hnew : ((List.range k).map fun i => curr + L * (i + 1)).Pairwise (· ≤ ·) := by
    rw [List.pairwise_map]
    apply (List.pairwise_lt_range (n := k)).imp
    intro i j hij
    have hmul := Nat.mul_le_mul_left L (show i + 1 ≤ j + 1 by omega)
    omega
  rw [issue_eq_drop hne, List.drop_append, List.pairwise_append]
  have hparts : (times.drop k).Pairwise (· ≤ ·) ∧
      (((List.range k).map fun i => curr + L * (i + 1)).drop (k - times.length)).Pairwise (· ≤ ·) :=
    ⟨hsorted.sublist (List.drop_sublist _ _), hnew.sublist (List.drop_sublist _ _)⟩
  rw [and_iff_right hparts.1, and_iff_right hparts.2]
  constructor
  · intro hall hpos r hr
    have hlt : k < times.length := by
      have hlength := List.length_pos_of_mem hr
      rw [List.length_drop] at hlength
      omega
    have hfirst := hall r hr (curr + L * (0 + 1))
    rw [Nat.sub_eq_zero_of_le hlt.le, List.drop_zero, Nat.zero_add, Nat.mul_one] at hfirst
    apply hfirst
    exact List.mem_map.mpr ⟨0, List.mem_range.mpr hpos, by omega⟩
  · intro hsoon r hr x hx
    obtain ⟨i, hi, rfl⟩ := List.mem_map.mp (List.mem_of_mem_drop hx)
    have hk := List.mem_range.mp hi
    have hr := hsoon (by omega) r hr
    have hmul := Nat.mul_le_mul_left L (show 1 ≤ i + 1 by omega)
    omega

/-- Only the servers that were there before the loop can be late. -/
theorem heads_le_iff {times : List Nat} (hne : times ≠ []) (curr L k : Nat) :
    (∀ i < k, ∀ r ∈ (issue curr L times i).head?, r ≤ curr + L * i) ↔
      ∀ i < k, ∀ r ∈ times[i]?, r ≤ curr + L * i := by
  refine forall₂_congr fun i hi => ?_
  have hpos : 0 < times.length := List.length_pos_iff.mpr hne
  rw [head_issue hne]
  split
  · next h => rw [List.getElem?_eq_getElem h]
  · next h =>
    have hmul := Nat.mul_le_mul_left L (show i - times.length + 1 ≤ i by omega)
    rw [List.getElem?_eq_none (by omega)]
    simp only [Option.mem_def, Option.some.injEq, forall_eq', reduceCtorEq, false_imp_iff, implies_true, iff_true]
    omega

end PipelineFifo

/-! ## The accesses of a run -/

namespace Timetable

/-- The accesses of an enqueued item, one after the other. -/
def accesses (t : Timetable Nat) (curr anIssueLatency passes : Nat) : Timetable Nat :=
  (List.range passes).foldl (fun t i => t.book (curr + anIssueLatency * i) (curr + anIssueLatency * (i + 1))) t

variable {t : Timetable Nat} {times : List Nat} {curr L : Nat}

theorem accesses_succ (t : Timetable Nat) (curr L k : Nat) :
    accesses t curr L (k + 1) = (accesses t curr L k).book (curr + L * k) (curr + L * (k + 1)) := by
  rw [accesses, List.range_succ, List.foldl_append, List.foldl_cons, List.foldl_nil, ← accesses]

theorem accesses_shown (hshown : t.slots.map Prod.snd = times) (hne : times ≠ []) (curr L k : Nat) :
    (accesses t curr L k).slots.map Prod.snd = PipelineFifo.issue curr L times k := by
  induction k with
  | zero => simpa [accesses, PipelineFifo.issue] using hshown
  | succ k ih =>
    rw [accesses_succ, PipelineFifo.issue_succ, ← ih]
    cases hslots : (accesses t curr L k).slots with
    | nil =>
      have hlength := PipelineFifo.length_issue hne curr L k
      rw [← ih, hslots] at hlength
      exact absurd (List.length_eq_zero_iff.mp hlength.symm) hne
    | cons slot slots =>
      rw [Timetable.book_of_slots hslots, List.map_append]
      rfl

theorem perm_accesses (t : Timetable Nat) (curr L k : Nat) :
    ((accesses t curr L k).slots.map Prod.fst).Perm (t.slots.map Prod.fst) := by
  induction k with
  | zero => exact .refl _
  | succ k ih =>
    rw [accesses_succ]
    exact (Timetable.perm_book _ _ _).trans ih

/-- Before each access of the item its server is at the front. -/
theorem accesses_front (hshown : t.slots.map Prod.snd = times) (hne : times ≠ []) (curr L k : Nat) :
    ∃ server r slots, (accesses t curr L k).slots = (server, r) :: slots ∧
      (PipelineFifo.issue curr L times k).head? = some r := by
  have hsame := accesses_shown hshown hne curr L k
  cases hslots : (accesses t curr L k).slots with
  | nil =>
    have hlength := PipelineFifo.length_issue hne curr L k
    rw [← hsame, hslots] at hlength
    exact absurd (List.length_eq_zero_iff.mp hlength.symm) hne
  | cons slot slots =>
    refine ⟨slot.1, slot.2, slots, rfl, ?_⟩
    rw [← hsame, hslots]
    rfl

theorem accesses_sound (h : t.Sound L) (hshown : t.slots.map Prod.snd = times) (hne : times ≠ []) {k : Nat}
    (hfree : ∀ i < k, ∀ r ∈ (PipelineFifo.issue curr L times i).head?, r ≤ curr + L * i) :
    (accesses t curr L k).Sound L := by
  induction k with
  | zero => exact h
  | succ k ih =>
    have hbefore := ih fun i hi => hfree i (by omega)
    obtain ⟨server, r, slots, hslots, hhead⟩ := accesses_front hshown hne curr L k
    rw [accesses_succ]
    apply hbefore.book hslots (hfree k (by omega) r hhead)
    rw [Nat.mul_succ]
    omega

/-- Every access is booked for its server as the loop finds it. -/
theorem exists_access (hshown : t.slots.map Prod.snd = times) (hne : times ≠ []) {k i r : Nat} (hi : i < k)
    (hr : (PipelineFifo.issue curr L times i).head? = some r) :
    ∃ b ∈ (accesses t curr L k).bookings, b.free = r ∧ b.start = curr + L * i := by
  induction k with
  | zero => omega
  | succ k ih =>
    obtain ⟨server, r', slots, hslots, hhead⟩ := accesses_front hshown hne curr L k
    rw [accesses_succ, Timetable.book_of_slots hslots]
    obtain rfl | hlt := Nat.eq_or_lt_of_le (Nat.le_of_lt_succ hi)
    · obtain rfl := Option.some.inj (hr.symm.trans hhead)
      exact ⟨_, List.mem_append_right _ List.mem_cons_self, rfl, rfl⟩
    · obtain ⟨b, hb, hsame⟩ := ih hlt
      exact ⟨b, List.mem_append_left _ hb, hsame⟩

end Timetable

/-! ## Runs -/

inductive PipelineOp (Item : Type) where
  | enqueue (anItem : Item) (aRepeatCount : Nat)
  | dequeue
  | stall
  deriving DecidableEq, Repr

/-- A pipeline with its history: the cycle of the last operation, the servers with their accesses,
    and the items in the order in which they were enqueued and in which they left. -/
structure PipelineRun (Item : Type) where
  fifo : PipelineFifo Item
  cycle : Nat
  timetable : Timetable Nat
  entered : List Item
  left : List Item
  deriving DecidableEq, Repr

namespace PipelineRun

variable {Item : Type}

def start (f : PipelineFifo Item) : PipelineRun Item where
  fifo := f
  cycle := 0
  timetable := ⟨(List.range f.theServerReadyTimes.length).zip f.theServerReadyTimes, []⟩
  entered := []
  left := []

/-- An operation at a cycle. -/
def step (s : PipelineRun Item) (e : Nat × PipelineOp Item) : Except PipelineFault (PipelineRun Item) :=
  match e.2 with
  | .enqueue anItem aRepeatCount => do
    let fifo ← s.fifo.enqueue e.1 anItem aRepeatCount
    pure { s with
      fifo
      cycle := e.1
      timetable := Timetable.accesses s.timetable e.1 s.fifo.theIssueLatency aRepeatCount
      entered := s.entered ++ [anItem] }
  | .dequeue => do
    let (anItem, fifo) ← s.fifo.dequeue
    pure { s with fifo, cycle := e.1, left := s.left ++ [anItem] }
  | .stall => pure { s with fifo := s.fifo.stall, cycle := e.1, timetable := s.timetable.stall e.1 }

/-- The cycles do not decrease, an item is enqueued only when a server is available, and one is
    taken only when there is one. -/
def Valid (s : PipelineRun Item) (e : Nat × PipelineOp Item) : Prop :=
  s.cycle ≤ e.1 ∧
    match e.2 with
    | .enqueue _ _ => s.fifo.serverAvail e.1 = true
    | .dequeue => s.fifo.empty = false
    | .stall => True

/-- An enqueued item finds its servers in time. -/
def Fits (s : PipelineRun Item) (e : Nat × PipelineOp Item) : Prop :=
  match e.2 with
  | .enqueue _ aRepeatCount => PipelineFifo.Fits s.fifo.theServerReadyTimes s.fifo.theIssueLatency e.1 aRepeatCount
  | .dequeue => True
  | .stall => True

instance (s : PipelineRun Item) : ∀ e, Decidable (s.Valid e)
  | (curr, .enqueue _ _) => inferInstanceAs (Decidable (s.cycle ≤ curr ∧ s.fifo.serverAvail curr = true))
  | (curr, .dequeue) => inferInstanceAs (Decidable (s.cycle ≤ curr ∧ s.fifo.empty = false))
  | (curr, .stall) => inferInstanceAs (Decidable (s.cycle ≤ curr ∧ True))

instance (s : PipelineRun Item) : ∀ e, Decidable (s.Fits e)
  | (curr, .enqueue _ aRepeatCount) =>
    inferInstanceAs (Decidable (PipelineFifo.Fits s.fifo.theServerReadyTimes s.fifo.theIssueLatency curr aRepeatCount))
  | (_, .dequeue) => .isTrue trivial
  | (_, .stall) => .isTrue trivial

/-- The occupancy of the pipelines is respected: the front of the ready times is the earliest, no
    access starts before its server is free and no two accesses of a server overlap, no more
    accesses than there are servers start within the issue latency, and the items become ready
    and leave in the order of their arrival. -/
structure Orderly (aNumPipelines anIssueLatency : Nat) (s : PipelineRun Item) : Prop where
  shown : s.timetable.slots.map Prod.snd = s.fifo.theServerReadyTimes
  servers : (s.timetable.slots.map Prod.fst).Perm (List.range aNumPipelines)
  sorted : s.fifo.theServerReadyTimes.Pairwise (· ≤ ·)
  prompt : ∀ b ∈ s.timetable.bookings, b.free ≤ b.start
  apart : Timetable.Apart s.timetable.bookings
  window : ∀ opens, (s.timetable.starting opens anIssueLatency).length ≤ aNumPipelines
  order : s.entered = s.left ++ s.fifo.theQueue.map Prod.fst
  ready : ∀ curr, s.fifo.ready curr = true → ∃ x, s.fifo.peek = some x ∧ (s.left ++ [x]) <+: s.entered

/-- What the operations keep as long as the enqueued items fit. -/
structure Kept (aNumPipelines anIssueLatency : Nat) (s : PipelineRun Item) : Prop where
  positive : 0 < aNumPipelines
  shown : s.timetable.slots.map Prod.snd = s.fifo.theServerReadyTimes
  servers : (s.timetable.slots.map Prod.fst).Perm (List.range aNumPipelines)
  latency : s.fifo.theIssueLatency = anIssueLatency
  sorted : s.fifo.theServerReadyTimes.Pairwise (· ≤ ·)
  sound : s.timetable.Sound anIssueLatency
  size : s.fifo.theCurrentSize = s.fifo.theQueue.length
  order : s.entered = s.left ++ s.fifo.theQueue.map Prod.fst

variable {N L : Nat} {s s' : PipelineRun Item} {curr : Nat}

theorem Kept.length (h : s.Kept N L) : s.timetable.slots.length = N := by
  have hlength := h.servers.length_eq
  rwa [List.length_map, List.length_range] at hlength

theorem Kept.ne_nil (h : s.Kept N L) : s.fifo.theServerReadyTimes ≠ [] := by
  have hlength := h.length
  have hpos := h.positive
  rw [← h.shown, ← List.length_pos_iff, List.length_map]
  omega

theorem Kept.orderly (h : s.Kept N L) : s.Orderly N L where
  shown := h.shown
  servers := h.servers
  sorted := h.sorted
  prompt := h.sound.prompt
  apart := h.sound.apart
  window := fun opens => h.length ▸ h.sound.length_starting_le opens
  order := h.order
  ready := by
    intro curr hready
    have horder := h.order
    rw [PipelineFifo.ready] at hready
    split at hready
    · cases hready
    · cases hqueue : s.fifo.theQueue with
      | nil =>
        rw [hqueue] at hready
        cases hready
      | cons front rest =>
        refine ⟨front.1, by rw [PipelineFifo.peek, hqueue]; rfl, rest.map Prod.fst, ?_⟩
        rw [horder, hqueue, List.map_cons, List.append_assoc]
        rfl

/-- An item is enqueued when a server is available. -/
theorem step_enqueue (havail : s.fifo.serverAvail curr = true) (anItem : Item) (aRepeatCount : Nat) :
    s.step (curr, .enqueue anItem aRepeatCount) = .ok { s with
      fifo := { s.fifo with
        theQueue := s.fifo.theQueue ++ [(anItem, curr + s.fifo.theLatency * aRepeatCount)]
        theServerReadyTimes :=
          PipelineFifo.issue curr s.fifo.theIssueLatency s.fifo.theServerReadyTimes aRepeatCount
        theCurrentSize := s.fifo.theCurrentSize + 1 }
      cycle := curr
      timetable := Timetable.accesses s.timetable curr s.fifo.theIssueLatency aRepeatCount
      entered := s.entered ++ [anItem] } := by
  rw [PipelineFifo.serverAvail] at havail
  cases htimes : s.fifo.theServerReadyTimes with
  | nil =>
    rw [htimes] at havail
    cases havail
  | cons front rest =>
    rw [htimes] at havail
    have hfront : front ≤ curr := by simpa using havail
    simp only [step, PipelineFifo.enqueue, htimes, if_pos hfront]
    rfl

theorem step_dequeue {front : Item × Nat} {rest : List (Item × Nat)} (hqueue : s.fifo.theQueue = front :: rest) :
    s.step (curr, .dequeue) = .ok { s with
      fifo := { s.fifo with theQueue := rest, theCurrentSize := s.fifo.theCurrentSize - 1 }
      cycle := curr
      left := s.left ++ [front.1] } := by
  simp only [step, PipelineFifo.dequeue, hqueue]
  rfl

theorem Kept.exists_front (h : s.Kept N L) (hne : s.fifo.empty = false) :
    ∃ front rest, s.fifo.theQueue = front :: rest := by
  have hsize := h.size
  have hpos : s.fifo.theCurrentSize ≠ 0 := by simpa [PipelineFifo.empty] using hne
  cases hqueue : s.fifo.theQueue with
  | nil =>
    rw [hqueue] at hsize
    exact absurd hsize hpos
  | cons front rest => exact ⟨front, rest, rfl⟩

theorem Kept.enqueue (h : s.Kept N L) (havail : s.fifo.serverAvail curr = true) {anItem : Item} {aRepeatCount : Nat}
    (hfits : s.Fits (curr, .enqueue anItem aRepeatCount)) (hok : s.step (curr, .enqueue anItem aRepeatCount) = .ok s') :
    s'.Kept N L := by
  rw [step_enqueue havail, Except.ok.injEq] at hok
  subst hok
  obtain ⟨hsoon, hheads⟩ := hfits
  have hne := h.ne_nil
  constructor
  · exact h.positive
  · exact Timetable.accesses_shown h.shown hne _ _ _
  · exact (Timetable.perm_accesses _ _ _ _).trans h.servers
  · exact h.latency
  · exact (PipelineFifo.sorted_issue_iff hne h.sorted _ _ _).mpr hsoon
  · rw [h.latency] at hheads ⊢
    exact Timetable.accesses_sound h.sound h.shown hne ((PipelineFifo.heads_le_iff hne _ _ _).mpr hheads)
  · simp only [List.length_append, List.length_singleton, h.size]
  · simp only [h.order, List.map_append, List.append_assoc, List.map_cons, List.map_nil]

theorem Kept.dequeue (h : s.Kept N L) (hne : s.fifo.empty = false) (hok : s.step (curr, .dequeue) = .ok s') :
    s'.Kept N L := by
  obtain ⟨front, rest, hqueue⟩ := h.exists_front hne
  rw [step_dequeue hqueue, Except.ok.injEq] at hok
  subst hok
  have hsize := h.size
  have horder := h.order
  rw [hqueue, List.length_cons] at hsize
  rw [hqueue, List.map_cons] at horder
  exact { h with
    size := by simp only [hsize, Nat.add_sub_cancel]
    order := by simp only [horder, List.append_assoc, List.cons_append, List.nil_append] }

theorem Kept.stall (h : s.Kept N L) (hok : s.step (curr, .stall) = .ok s') : s'.Kept N L := by
  obtain rfl := Except.ok.inj hok
  constructor
  · exact h.positive
  · simp only [PipelineFifo.stall, ← h.shown, Timetable.stall, List.map_map]
    rfl
  · have hsame : (s.timetable.stall curr).slots.map Prod.fst = s.timetable.slots.map Prod.fst := by
      rw [Timetable.stall, List.map_map]
      rfl
    simp only [hsame]
    exact h.servers
  · exact h.latency
  · simp only [PipelineFifo.stall, List.pairwise_map]
    exact h.sorted.imp fun hle => Nat.succ_le_succ hle
  · exact h.sound.stall curr
  · exact h.size
  · exact h.order

theorem Kept.step {e : Nat × PipelineOp Item} (h : s.Kept N L) (hvalid : s.Valid e) (hfits : s.Fits e)
    (hok : s.step e = .ok s') : s'.Kept N L := by
  obtain ⟨curr, op⟩ := e
  obtain ⟨-, hop⟩ := hvalid
  cases op with
  | enqueue anItem aRepeatCount => exact h.enqueue hop hfits hok
  | dequeue => exact h.dequeue hop hok
  | stall => exact h.stall hok

theorem Kept.exists_step {e : Nat × PipelineOp Item} (h : s.Kept N L) (hvalid : s.Valid e) :
    ∃ s', s.step e = .ok s' := by
  obtain ⟨curr, op⟩ := e
  obtain ⟨-, hop⟩ := hvalid
  cases op with
  | enqueue anItem aRepeatCount => exact ⟨_, step_enqueue hop _ _⟩
  | dequeue =>
    obtain ⟨front, rest, hqueue⟩ := h.exists_front hop
    exact ⟨_, step_dequeue hqueue⟩
  | stall => exact ⟨_, rfl⟩

/-- Only an item that fits leaves the pipelines in order. -/
theorem Kept.fits {e : Nat × PipelineOp Item} (h : s.Kept N L) (hvalid : s.Valid e) (hok : s.step e = .ok s')
    (horderly : s'.Orderly N L) : s.Fits e := by
  obtain ⟨curr, op⟩ := e
  obtain ⟨-, hop⟩ := hvalid
  cases op with
  | enqueue anItem aRepeatCount =>
    rw [step_enqueue hop, Except.ok.injEq] at hok
    subst hok
    have hne := h.ne_nil
    refine ⟨(PipelineFifo.sorted_issue_iff hne h.sorted _ _ _).mp horderly.sorted,
      (PipelineFifo.heads_le_iff hne _ _ _).mp fun i hi r hr => ?_⟩
    obtain ⟨b, hb, hfree, hstart⟩ := Timetable.exists_access h.shown hne hi hr
    have hprompt := horderly.prompt b hb
    rwa [hfree, hstart] at hprompt
  | dequeue => trivial
  | stall => trivial

theorem kept_start {D : Nat} {f : PipelineFifo Item} (hinit : PipelineFifo.init N L D = .ok f) : (start f).Kept N L := by
  rw [PipelineFifo.init] at hinit
  split at hinit
  · cases hinit
  · next hpositive =>
    obtain rfl := Except.ok.inj hinit
    constructor
    · omega
    · exact List.map_snd_zip (by simp)
    · rw [start, List.map_fst_zip (by simp), List.length_replicate]
    · rfl
    · exact List.pairwise_replicate_of_refl
    · refine ⟨?_, by simp [start], by simp [start], List.Pairwise.nil, by simp [start], by simp [start]⟩
      rw [start, List.map_fst_zip (by simp)]
      exact List.nodup_range
    · rfl
    · rfl

/-- The occupancy of the pipelines is respected throughout a run exactly when every enqueued item
    fits. -/
theorem orderly_iff {D : Nat} {f : PipelineFifo Item} (hinit : PipelineFifo.init N L D = .ok f)
    (es : List (Nat × PipelineOp Item)) (hvalid : EachMeets step Valid (start f) es) :
    Throughout step (Orderly N L) (start f) es ↔ EachMeets step Fits (start f) es := by
  refine throughout_iff (I := Kept N L) ?_ ?_ ?_ ?_ (kept_start hinit) hvalid
  · exact fun s h => h.orderly
  · exact fun s e h hv => h.exists_step hv
  · exact fun s e s' h hv hok horderly => h.fits hv hok horderly
  · exact fun s e s' h hv hfits hok => h.step hv hfits hok

/-- Two pipelines with an issue latency of ten cycles. -/
def twoPipelines : PipelineFifo Char := ⟨[], [0, 0], 0, 10, 3⟩

/-- An item of three accesses, a stall, and an item that is enqueued when the first server is free
    again. -/
def repeatedAccess : List (Nat × PipelineOp Char) :=
  [(5, .enqueue 'a' 3), (20, .stall), (26, .enqueue 'b' 1), (26, .dequeue), (30, .dequeue)]

/-- The two items respect the occupancy of the pipelines. -/
theorem orderly_iff_repeatedAccess : Throughout step (Orderly 2 10) (start twoPipelines) repeatedAccess :=
  (orderly_iff (D := 3) (f := twoPipelines) rfl repeatedAccess (by decide)).mpr (by decide)

/-- Of three pipelines, two are taken by an item and the third by another one in the same cycle. -/
def sameCycle : List (Nat × PipelineOp Char) := [(0, .enqueue 'a' 2), (0, .enqueue 'b' 1)]

/-- The server that the second item takes is free before one of those the first item has taken. -/
theorem not_orderly_sameCycle :
    ¬ ∀ (aNumPipelines anIssueLatency aLatency : Nat) (f : PipelineFifo Char),
      PipelineFifo.init aNumPipelines anIssueLatency aLatency = .ok f →
      ∀ es, EachMeets step Valid (start f) es → Throughout step (Orderly aNumPipelines anIssueLatency) (start f) es := by
  intro hall
  obtain ⟨-, -, horderly⟩ := hall 3 10 3 ⟨[], [0, 0, 0], 0, 10, 3⟩ rfl sameCycle (by decide)
  have hsorted : [10, 20, 10].Pairwise (· ≤ ·) := horderly.sorted
  revert hsorted
  decide

end PipelineRun

end nMessageQueues
