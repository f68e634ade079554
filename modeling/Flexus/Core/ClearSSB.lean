import Flexus.Core.Waiters
import Mathlib.Data.List.TakeWhile

/-!
# What is left of the speculative store buffer

`clearSSB(aLowestInsnSeq)` erases a suffix of the speculative store buffer and reports how many
entries are left.
-/

namespace nuArchARM

open Runs LSQ

/-- `remaining_ssb_count` of the loop in `clearSSB(aLowestInsnSeq)`, from `first_found` on. -/
def remainingSSB (aLowestInsnSeq : Nat) (first_found : Bool) : List LSQEntry → Nat
  | [] => 0
  | e :: rest =>
    if !first_found && decide (aLowestInsnSeq ≤ e.theSequenceNum) then
      remainingSSB aLowestInsnSeq true rest
    else remainingSSB aLowestInsnSeq first_found rest + 1

/-- `clearSSB(aLowestInsnSeq)` with what it returns. -/
def Core.clearSSBCounted (cfg : CoreConfig) (c : Core) (aLowestInsnSeq : Nat) :
    Except CoreFault (Core × Nat) := do
  let c' ← c.clearSSBFrom cfg aLowestInsnSeq
  pure (c', remainingSSB aLowestInsnSeq false c.ssb)

variable {cfg : CoreConfig} {c c' : Core} {low n : Nat}

/-- What `clearSSB(low)` is for: the speculative entries from `low` on are gone, the
    requirements of the stores and atomics among them are released, the counters follow,
    nothing else changes, and the number of speculative entries that are left is returned. -/
structure ClearedFrom (cfg : CoreConfig) (low : Nat) (c c' : Core) (returned : Nat) : Prop where
  queue : c'.theMemQueue = c.theMemQueue.filter fun e => !speculativeFrom low e.place
  released : ∀ a, c'.thePermissions.countAt a =
    c.thePermissions.countAt a - tally (Place.needsLine cfg a) (c.places.filter (speculativeFrom low))
  counted : Balanced cfg c'
  rest : c' = { c with
    theMemQueue := c'.theMemQueue
    thePermissions := c'.thePermissions
    theSBCount := c'.theSBCount
    theSBNAWCount := c'.theSBNAWCount }
  returned_eq : returned = c'.ssb.length

/-! ## The count -/

theorem remainingSSB_found (es : List LSQEntry) : remainingSSB low true es = es.length := by
  induction es with
  | nil => rfl
  | cons e es ih =>
    rw [remainingSSB, Bool.not_true, Bool.false_and, if_neg (by decide), ih]
    rfl

/-- The first entry that is found is the only one that is not counted. -/
theorem remainingSSB_some {es : List LSQEntry} (hsome : ∃ e ∈ es, low ≤ e.theSequenceNum) :
    remainingSSB low false es + 1 = es.length := by
  induction es with
  | nil =>
    obtain ⟨e, he, -⟩ := hsome
    cases he
  | cons e es ih =>
    rw [remainingSSB]
    by_cases hfirst : low ≤ e.theSequenceNum
    · rw [if_pos (by simpa using hfirst), remainingSSB_found]
      rfl
    · have hrest : ∃ x ∈ es, low ≤ x.theSequenceNum := by
        obtain ⟨x, hx, hle⟩ := hsome
        rcases List.mem_cons.mp hx with rfl | hx
        · exact absurd hle hfirst
        · exact ⟨x, hx, hle⟩
      rw [if_neg (by simpa using hfirst), ih hrest]
      rfl

/-! ## The parts of the queue -/

theorem mem_ssb {e : LSQEntry} : e ∈ c.ssb ↔ e ∈ c.theMemQueue ∧ e.theQueue = .kSSB := by
  rw [Core.ssb, List.mem_filter, beq_iff_eq]

theorem speculativeFrom_place {e : LSQEntry} :
    speculativeFrom low e.place = true ↔ e.theQueue = .kSSB ∧ low ≤ e.theSequenceNum := by
  rw [speculativeFrom, Bool.and_eq_true, beq_iff_eq, decide_eq_true_eq]
  rfl

/-- The buffer is what is left of it and what is removed from it. -/
theorem ssb_split (hqueue : c'.theMemQueue = c.theMemQueue.filter fun e => !speculativeFrom low e.place) :
    c'.ssb.length + c.ssb.countP (fun e => decide (low ≤ e.theSequenceNum)) = c.ssb.length := by
  have hleft : c'.ssb = c.ssb.filter fun e => !decide (low ≤ e.theSequenceNum) := by
    rw [Core.ssb, Core.ssb, hqueue, List.filter_filter, List.filter_filter]
    refine List.filter_congr fun e _ => ?_
    cases hq : e.theQueue == .kSSB with
    | true => simp [speculativeFrom, LSQEntry.place, beq_iff_eq.mp hq]
    | false => simp
  have htotal : c.ssb.length = _ :=
    List.length_eq_countP_add_countP fun e : LSQEntry => decide (low ≤ e.theSequenceNum)
  rw [hleft, ← List.countP_eq_length_filter]
  simp only [decide_eq_true_eq, decide_not] at htotal
  omega

/-! ## The function -/

theorem unrequireAll_faults {es : List LSQEntry} :
    Yields (fun f => ¬ NoCounter f) (Core.unrequireAll cfg es c) fun c' =>
      c' = { c with thePermissions := c'.thePermissions } := by
  induction es generalizing c with
  | nil => exact .ok rfl
  | cons e es ih =>
    have hone : Yields (fun f => ¬ NoCounter f) (c.thePermissions.unrequire (cfg.line e.thePaddr))
        fun _ => True := by
      rw [Permissions.unrequire]
      cases c.thePermissions.find (cfg.line e.thePaddr) with
      | none => exact .ok trivial
      | some l =>
        refine .ite (fun _ => .error (by decide)) fun _ => .ite (fun _ => ?_) fun _ => .ok trivial
        exact .ite (fun _ => .error (by decide)) fun _ => .ok trivial
    rw [Core.unrequireAll]
    refine .bind (P := fun c₁ => c₁ = { c with thePermissions := c₁.thePermissions }) ?_ ?_
    · refine .ite (fun _ => .bind hone fun p _ => .pure rfl) fun _ => .pure rfl
    · intro c₁ hsame
      refine ih.weaken ?_
      intro c₂ hsame₂
      rw [hsame₂, hsame]

/-- The buffer is cleared but for its entries in the queue, the counters and the permissions. -/
theorem dropSSB_faults {counted erased : List LSQEntry} :
    Yields (fun f => ¬ NoCounter f) (c.dropSSB cfg counted erased) fun c' =>
      c' = { c with
        theMemQueue := c'.theMemQueue
        thePermissions := c'.thePermissions
        theSBCount := c'.theSBCount
        theSBNAWCount := c'.theSBNAWCount } := by
  rw [Core.dropSSB]
  refine .bind unrequireAll_faults ?_
  intro c₁ hsame
  refine .ite (fun _ => .error (by decide)) fun _ => ?_
  refine .ite (fun _ => .ok ?_) fun _ => .error (by decide)
  rw [hsame]

/-- Without an entry from `low` on the whole buffer is erased. -/
theorem clearSSBFrom_none (hnone : ∀ e ∈ c.ssb, e.theSequenceNum < low) :
    c.clearSSBFrom cfg low = c.dropSSB cfg [] c.ssb := by
  have hfound : (c.ssb.dropWhile fun e => decide (e.theSequenceNum < low)) = [] := by
    rw [List.dropWhile_eq_nil_iff]
    intro e he
    simpa using hnone e he
  rw [Core.clearSSBFrom, hfound]
  rfl

/-- Without an entry from `low` on the buffer is emptied. -/
theorem clearSSBFrom_empties (hnone : ∀ e ∈ c.ssb, e.theSequenceNum < low)
    (hok : c.clearSSBFrom cfg low = .ok c') : c'.ssb = [] := by
  rw [clearSSBFrom_none hnone] at hok
  have hqueue := (dropSSB_queue.1 _ hok).1
  rw [Core.ssb, List.filter_eq_nil_iff]
  intro e he hssb
  rw [hqueue] at he
  obtain ⟨hmem, hkept⟩ := List.mem_filter.mp he
  have hin : e ∈ c.ssb := mem_ssb.mpr ⟨hmem, beq_iff_eq.mp hssb⟩
  simp only [Bool.not_eq_true', List.any_eq_false] at hkept
  exact hkept e hin (by simp)

/-- Erasing the whole buffer is not erasing a part of it. -/
theorem not_cleared_of_none (hnone : ∀ e ∈ c.ssb, e.theSequenceNum < low) (hne : c.ssb ≠ [])
    (hok : c.clearSSBFrom cfg low = .ok c') (h : ClearedFrom cfg low c c' n) : False := by
  have hsplit := ssb_split h.queue
  have hcount : c.ssb.countP (fun e => decide (low ≤ e.theSequenceNum)) = 0 := by
    rw [List.countP_eq_zero]
    intro e he
    simpa using hnone e he
  rw [clearSSBFrom_empties hnone hok, hcount] at hsplit
  exact hne (List.length_eq_zero_iff.mp hsplit.symm)

/-- With an entry from `low` on, or none at all, the function does all it is for but count. -/
theorem clearSSBFrom_cleared (hbalanced : Balanced cfg c)
    (hsorted : (c.places.map Place.seq).Pairwise (· < ·))
    (hfound : (∃ p ∈ c.places, speculativeFrom low p = true) ∨ c.ssb = []) :
    ∃ c', c.clearSSBFrom cfg low = .ok c' ∧ ClearedFrom cfg low c c' c'.ssb.length := by
  have hyields := clearSSBFrom_yields hbalanced hsorted hfound
  have hqueue : Yields Tame (c.clearSSBFrom cfg low) _ := clearSSBFrom_queue hsorted hfound
  cases hok : c.clearSSBFrom cfg low with
  | error f =>
    have hno := hyields.2 f hok
    rw [Core.clearSSBFrom] at hok
    exact absurd hno (dropSSB_faults.2 f hok)
  | ok c' =>
    obtain ⟨hbalanced', hplaces, -⟩ := hyields.1 c' hok
    refine ⟨c', rfl, (hqueue.1 c' hok).1, ?_, hbalanced', ?_, rfl⟩
    · intro a
      have hsplit : tally (Place.needsLine cfg a) (c.places.filter (speculativeFrom low)) +
          tally (Place.needsLine cfg a) (c.places.filter fun p => !speculativeFrom low p) =
          tally (Place.needsLine cfg a) c.places := tally_filter_add
      rw [hbalanced'.lines, hplaces, hbalanced.lines]
      omega
    · rw [Core.clearSSBFrom] at hok
      exact dropSSB_faults.1 c' hok

/-- On a core with exact counters `clearSSB(low)` erases the speculative entries from `low`
    on, releases what the stores and atomics among them require and returns how many are
    left exactly when there is one such entry, or none in the whole buffer. -/
theorem clearSSB_exact (hbalanced : Balanced cfg c)
    (hsorted : (c.places.map Place.seq).Pairwise (· < ·)) (low : Nat) :
    (∃ c' returned, c.clearSSBCounted cfg low = .ok (c', returned) ∧
        ClearedFrom cfg low c c' returned) ↔
      c.ssb = [] ∨ c.ssb.countP (fun e => decide (low ≤ e.theSequenceNum)) = 1 := by
  constructor
  · rintro ⟨c', returned, hok, hcleared⟩
    obtain ⟨c₁, hclear, hpair⟩ := bind_eq_ok.mp hok
    obtain ⟨rfl, rfl⟩ := Prod.mk.inj (pure_eq_ok.mp hpair)
    by_cases hsome : ∃ e ∈ c.ssb, low ≤ e.theSequenceNum
    · have hcount := remainingSSB_some hsome
      have hsplit := ssb_split hcleared.queue
      have hreturned := hcleared.returned_eq
      right
      omega
    · left
      by_contra hne
      push Not at hsome
      exact not_cleared_of_none hsome hne hclear hcleared
  · intro hcond
    have hfound : (∃ p ∈ c.places, speculativeFrom low p = true) ∨ c.ssb = [] := by
      rcases hcond with hempty | hone
      · exact .inr hempty
      · obtain ⟨e, he, hle⟩ := List.countP_pos_iff.mp (Nat.lt_of_lt_of_eq Nat.zero_lt_one hone.symm)
        obtain ⟨hmem, hqueue⟩ := mem_ssb.mp he
        exact .inl ⟨e.place, List.mem_map_of_mem hmem,
          speculativeFrom_place.mpr ⟨hqueue, of_decide_eq_true hle⟩⟩
    obtain ⟨c', hok, hcleared⟩ := clearSSBFrom_cleared hbalanced hsorted hfound
    refine ⟨c', remainingSSB low false c.ssb, bind_eq_ok.mpr ⟨c', hok, rfl⟩, ?_⟩
    refine { hcleared with returned_eq := ?_ }
    have hsplit := ssb_split hcleared.queue
    rcases hcond with hempty | hone
    · rw [hempty] at hsplit ⊢
      simp only [List.countP_nil, List.length_nil] at hsplit
      rw [remainingSSB]
      omega
    · have hcount : remainingSSB low false c.ssb + 1 = c.ssb.length := by
        apply remainingSSB_some
        obtain ⟨e, he, hle⟩ := List.countP_pos_iff.mp (Nat.lt_of_lt_of_eq Nat.zero_lt_one hone.symm)
        exact ⟨e, he, of_decide_eq_true hle⟩
      omega

/-- A store and, behind it, a load with a checkpoint have retired. -/
theorem clearSSB_exact_load : ∃ c, Core.Reachable speculativeSC 0#64 c ∧ c.ssb.length = 2 ∧
    ∃ c' returned, c.clearSSBCounted speculativeSC 2 = .ok (c', returned) ∧
      ClearedFrom speculativeSC 2 c c' returned := by
  have hrun : (runWhile (Core.step speculativeSC) (fun _ _ => true) (Core.start 0#64)
      [.dispatch 0#64 .commitStore true (some (.store .kDoubleWord false)),
        .dispatch 4#64 .keep true (some (.load .kDoubleWord)),
        .execute 1 (accessAt 0x80#64), .execute 2 (accessAt 0x100#64), .retire, .retire]).any
      (fun c => decide (c.ssb.length = 2 ∧
        c.ssb.countP (fun e => decide (2 ≤ e.theSequenceNum)) = 1)) = true := by
    decide +kernel
  obtain ⟨c, hc, hend⟩ : ∃ c, Core.Reachable speculativeSC 0#64 c ∧ _ :=
    exists_reaches (fun _ _ _ => trivial) hrun
  obtain ⟨htwo, hcount⟩ := of_decide_eq_true hend
  exact ⟨c, hc, htwo, (clearSSB_exact hc.steady.stocked.balanced hc.steady.stocked.sorted 2).mpr
    (.inr hcount)⟩

/-- A load and a store have retired behind a store. Clearing the buffer from the load on
    leaves the first store, and two entries are reported. -/
theorem clearSSB_counts_removed : ∃ c, Core.Reachable speculativeSC 0#64 c ∧
    ∃ c', c.clearSSBCounted speculativeSC 2 = .ok (c', 2) ∧ c'.ssb.length = 1 := by
  have hrun : (runWhile (Core.step speculativeSC) (fun _ _ => true) (Core.start 0#64)
      [.dispatch 0#64 .commitStore true (some (.store .kDoubleWord false)),
        .dispatch 4#64 .keep true (some (.load .kDoubleWord)),
        .dispatch 8#64 .commitStore true (some (.store .kDoubleWord false)),
        .execute 1 (accessAt 0x80#64), .execute 2 (accessAt 0x100#64),
        .execute 3 (accessAt 0x180#64), .retire, .retire, .retire]).any
      (fun c => match c.clearSSBCounted speculativeSC 2 with
        | .ok (c', returned) => decide (returned = 2 ∧ c'.ssb.length = 1)
        | .error _ => false) = true := by
    decide +kernel
  obtain ⟨c, hc, hend⟩ : ∃ c, Core.Reachable speculativeSC 0#64 c ∧ _ :=
    exists_reaches (fun _ _ _ => trivial) hrun
  refine ⟨c, hc, ?_⟩
  cases hok : c.clearSSBCounted speculativeSC 2 with
  | error f =>
    rw [hok] at hend
    cases hend
  | ok r =>
    obtain ⟨c', returned⟩ := r
    rw [hok] at hend
    obtain ⟨rfl, hnone⟩ := of_decide_eq_true hend
    exact ⟨c', rfl, hnone⟩

end nuArchARM
