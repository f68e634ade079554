import Flexus.Core.Retire
import Flexus.Lib.Outcomes

/-!
# The place of an entry

The counters of the memory queue and the lines of the store buffer depend on an
entry's queue, operation, address and bypass flag only. The functions that follow
the links to the miss registers change none of these.
-/

namespace nuArchARM

open Runs LSQ

structure Place where
  seq : Nat
  op : eOperation
  queue : eQueue
  paddr : PhysicalMemoryAddress
  bypass : Bool
  deriving DecidableEq

def LSQEntry.place (e : LSQEntry) : Place :=
  ⟨e.theSequenceNum, e.theOperation, e.theQueue, e.thePaddr, e.theBypassSB⟩

abbrev placesOf (q : List LSQEntry) : List Place := q.map LSQEntry.place

/-- A fault in which no counter has a part. -/
def NoCounter (f : CoreFault) : Prop :=
  f ≠ .negativeCount ∧ f ≠ .countMismatch ∧ f ≠ .lineCount ∧ f ≠ .falseCount

instance (f : CoreFault) : Decidable (NoCounter f) := inferInstanceAs (Decidable (_ ∧ _))

variable {cfg : CoreConfig} {q q' : List LSQEntry} {ms ms' : List MSHR} {s d : Nat} {e : LSQEntry}

theorem placesOf_update {f : LSQEntry → LSQEntry} (hf : ∀ e, (f e).place = e.place) :
    placesOf (updateEntry q s f) = placesOf q :=
  Keyed.map_alter_of_same hf

theorem placesOf_erase : placesOf (Keyed.erase seqOf s q) = Keyed.erase Place.seq s (placesOf q) :=
  Keyed.map_erase fun _ => rfl

theorem lookup_placesOf : Keyed.lookup Place.seq (placesOf q) s = (findEntry q s).map LSQEntry.place :=
  Keyed.lookup_map fun _ => rfl

theorem requestPort_places : Yields NoCounter (requestPort cfg q s) (placesOf · = placesOf q) := by
  rw [requestPort]
  cases findEntry q s with
  | none => exact .ok rfl
  | some e =>
    refine .ite (fun _ => .ok rfl) fun _ => ?_
    refine .ite (fun _ => .error (by decide)) fun _ => ?_
    refine .ite (fun _ => .ok rfl) fun _ => ?_
    exact .ok (placesOf_update fun _ => rfl)

theorem wake_places {blocked : List Nat} :
    Yields NoCounter (wake cfg blocked q) (placesOf · = placesOf q) := by
  induction blocked generalizing q with
  | nil => exact .ok rfl
  | cons s rest ih =>
    refine .bind requestPort_places fun q' hq' => ?_
    exact ih.weaken fun _ hq'' => hq''.trans hq'

theorem breakMSHRLink_places :
    Yields NoCounter (breakMSHRLink cfg q ms e) fun r => placesOf r.1 = placesOf q := by
  have hissued : placesOf (updateEntry q e.theSequenceNum (setIssued false)) = placesOf q :=
    placesOf_update fun _ => rfl
  have hunlinked : ∀ q', placesOf (updateEntry q' e.theSequenceNum unlink) = placesOf q' :=
    fun _ => placesOf_update fun _ => rfl
  simp only [breakMSHRLink]
  cases e.link with
  | none => exact .ok hissued
  | some a =>
    dsimp only
    cases findMSHR ms a with
    | none => exact .error (by decide)
    | some mshr =>
      refine .ite (fun _ => .error (by decide)) fun _ => ?_
      refine .ite (fun _ => ?_) fun _ => .ok ((hunlinked _).trans hissued)
      refine .bind wake_places fun q' hq' => ?_
      exact .pure ((hunlinked q').trans (hq'.trans hissued))

theorem keptWaiters_yields {ws : List Nat} :
    Yields NoCounter (keptWaiters q d ws) fun _ => True := by
  induction ws with
  | nil => exact .ok trivial
  | cons w ws ih =>
    rw [keptWaiters]
    cases findEntry q w with
    | none => exact .error (by decide)
    | some e => exact .bind ih fun _ _ => .pure trivial

theorem cleanMSHRS_places :
    Yields NoCounter (cleanMSHRS cfg d q ms) fun r => placesOf r.1 = placesOf q := by
  induction ms generalizing q with
  | nil => exact .ok rfl
  | cons m ms ih =>
    rw [cleanMSHRS]
    refine .bind keptWaiters_yields fun waiting _ => ?_
    refine .ite (fun _ => ?_) fun _ => ?_
    · refine .bind wake_places fun q' hq' => ?_
      exact ih.weaken fun _ hr => hr.trans hq'
    · refine .bind ih fun r hr => ?_
      exact .pure hr

end nuArchARM
