import Flexus.UFetch.Lines

/-!
# The bundles of the fetch unit

Since the last squash or resync, what was sent and what is in the bundle are together the
addresses that were taken from the queues, in order.
-/

namespace nuFetch

open Runs

variable {c : FetchConfig}

/-! ## Opcodes of the elements -/

def FetchedOpcode.known (e : FetchedOpcode) : Bool := e.theOpcode != 0

/-- The address that an element of the bundle was made for. -/
def FetchedOpcode.addr (e : FetchedOpcode) : FetchAddr where
  theAddress := e.thePC
  theBPState := e.theBPState

/-- The opcodes that are known, with their addresses. -/
def brought (l : List FetchedOpcode) : List (Nat × Nat) :=
  (l.filter FetchedOpcode.known).map fun e => (e.thePC, e.theOpcode)

/-- The addresses of the elements without an opcode. -/
def waiting (l : List FetchedOpcode) : List Nat :=
  (l.filter fun e => !e.known).map FetchedOpcode.thePC

theorem brought_cons (e : FetchedOpcode) (l : List FetchedOpcode) :
    brought (e :: l) = if e.known then (e.thePC, e.theOpcode) :: brought l else brought l := by
  unfold brought
  rw [List.filter_cons]
  split <;> rfl

theorem waiting_cons (e : FetchedOpcode) (l : List FetchedOpcode) :
    waiting (e :: l) = if e.known then waiting l else e.thePC :: waiting l := by
  unfold waiting
  rw [List.filter_cons]
  cases e.known <;> rfl

@[simp]
theorem brought_append (l l' : List FetchedOpcode) : brought (l ++ l') = brought l ++ brought l' := by
  simp [brought]

@[simp]
theorem waiting_append (l l' : List FetchedOpcode) : waiting (l ++ l') = waiting l ++ waiting l' := by
  simp [waiting]

theorem brought_opened (l : List FetchAddr) : brought (l.map UFetch.FetchAddr.opened) = [] := by
  induction l with
  | nil => rfl
  | cons a l ih =>
    rw [List.map_cons, brought_cons, ih]
    rfl

theorem waiting_opened (l : List FetchAddr) :
    waiting (l.map UFetch.FetchAddr.opened) = l.map FetchAddr.theAddress := by
  induction l with
  | nil => rfl
  | cons a l ih =>
    rw [List.map_cons, waiting_cons, ih]
    rfl

theorem map_addr_opened (l : List FetchAddr) :
    (l.map UFetch.FetchAddr.opened).map FetchedOpcode.addr = l := by
  rw [List.map_map]
  exact List.map_id l

theorem waiting_eq_nil {l : List FetchedOpcode} (h : ∀ e ∈ l, e.known = true) : waiting l = [] := by
  unfold waiting
  rw [List.filter_eq_nil_iff.mpr, List.map_nil]
  intro e he
  rw [h e he]
  exact Bool.false_ne_true

theorem known_of_waiting {l : List FetchedOpcode} (h : waiting l = []) : ∀ e ∈ l, e.theOpcode ≠ 0 := by
  intro e he hzero
  have hmem : e.thePC ∈ waiting l :=
    List.mem_map_of_mem (List.mem_filter.mpr ⟨he, by simp [FetchedOpcode.known, hzero]⟩)
  rw [h] at hmem
  exact List.not_mem_nil hmem

theorem mem_brought {l : List FetchedOpcode} {e : FetchedOpcode} (he : e ∈ l) (hknown : e.known = true) :
    (e.thePC, e.theOpcode) ∈ brought l :=
  List.mem_map_of_mem (f := fun e : FetchedOpcode => (e.thePC, e.theOpcode))
    (List.mem_filter.mpr ⟨he, hknown⟩)

/-- The first element at an address has no opcode yet. -/
def FirstWaits (anAddress : Nat) (l : List FetchedOpcode) : Prop :=
  ∀ e ∈ l.find? (fun e => e.thePC == anAddress), e.theOpcode = 0

instance (anAddress : Nat) (l : List FetchedOpcode) : Decidable (FirstWaits anAddress l) :=
  inferInstanceAs (Decidable (∀ e ∈ l.find? (fun e => e.thePC == anAddress), e.theOpcode = 0))

open UFetch (updateOpcode opcodeOf)

/-- An opcode for the first element at an address, which had none. -/
theorem updateOpcode_spec {anAddress anOpcode : Nat} (hne : anOpcode ≠ 0) {l l' : List FetchedOpcode}
    (hwaits : FirstWaits anAddress l) (h : updateOpcode anAddress anOpcode l = some l') :
    l'.map FetchedOpcode.addr = l.map FetchedOpcode.addr ∧
      (brought l').Perm ((anAddress, anOpcode) :: brought l) ∧
      (waiting l).Perm (anAddress :: waiting l') := by
  induction l generalizing l' with
  | nil => cases h
  | cons e rest ih =>
    unfold updateOpcode at h
    split at h
    · next hpc =>
      have hzero : e.theOpcode = 0 := hwaits e (by simp [hpc])
      have hunknown : e.known = false := by rw [FetchedOpcode.known, hzero]; rfl
      have hknown : FetchedOpcode.known { e with theOpcode := anOpcode } = true := bne_iff_ne.mpr hne
      cases h
      rw [brought_cons, brought_cons, waiting_cons, waiting_cons, hunknown, hknown, if_pos rfl, if_pos rfl]
      subst hpc
      exact ⟨rfl, .refl _, .refl _⟩
    · next hpc =>
      obtain ⟨rest', hrest, rfl⟩ := Option.map_eq_some_iff.mp h
      have hwaitsRest : FirstWaits anAddress rest := by
        intro e' he'
        apply hwaits e'
        rw [List.find?_cons_of_neg (by simpa using hpc)]
        exact he'
      obtain ⟨haddr, hbrought, hwaiting⟩ := ih hwaitsRest hrest
      refine ⟨by rw [List.map_cons, List.map_cons, haddr], ?_, ?_⟩
      · rw [brought_cons, brought_cons]
        split
        · exact (hbrought.cons _).trans (.swap ..)
        · exact hbrought
      · rw [waiting_cons, waiting_cons]
        split
        · exact hwaiting
        · exact (hwaiting.cons _).trans (.swap ..)

theorem updateOpcode_ne_none {anAddress anOpcode : Nat} {l : List FetchedOpcode}
    (h : anAddress ∈ waiting l) : updateOpcode anAddress anOpcode l ≠ none := by
  induction l with
  | nil => cases h
  | cons e rest ih =>
    unfold updateOpcode
    split
    · exact Option.some_ne_none _
    · next hpc =>
      intro hnone
      obtain ⟨e', he', hpc'⟩ := List.mem_map.mp h
      obtain ⟨hmem, hwaits⟩ := List.mem_filter.mp he'
      rcases List.mem_cons.mp hmem with rfl | hrest
      · exact hpc hpc'
      · exact ih (List.mem_map.mpr ⟨e', List.mem_filter.mpr ⟨hrest, hwaits⟩, hpc'⟩)
          (Option.map_eq_none_iff.mp hnone)

theorem opcodeOf_ne_zero (instruction : Option Nat) : opcodeOf instruction ≠ 0 := by
  cases instruction with
  | none => exact Nat.one_ne_zero
  | some opcode =>
    unfold opcodeOf
    dsimp only
    split
    · exact Nat.one_ne_zero
    · next h => exact h

end nuFetch
