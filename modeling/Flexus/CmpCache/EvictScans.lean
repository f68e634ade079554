import Flexus.CmpCache.CacheEvictBuffer
import Flexus.Lib.Runs

/-!
# The scans of the cache evict buffer

Two loops look for the oldest entry that may be written back, and both read the entry
before they ask whether there is one. Here a read past the end of the list is a fault of its
own, next to a failed assertion, and all calls that add entries, mark them or take them out
are told apart.
-/

namespace Runs

variable {σ ε φ : Type*} {step : σ → ε → Except φ σ} {init : σ}

/-- Two conditions that agree wherever an invariant holds, which the second one keeps, are
    met by the same events of a run. -/
theorem eachMeets_congr {I : σ → Prop} {P Q : σ → ε → Prop} {es : List ε}
    (hsame : ∀ s e, I s → (P s e ↔ Q s e))
    (hkeep : ∀ s e s', I s → Q s e → step s e = .ok s' → I s') (hinit : I init) :
    EachMeets step P init es ↔ EachMeets step Q init es := by
  induction es generalizing init with
  | nil => exact Iff.rfl
  | cons e es ih =>
    simp only [EachMeets, hsame init e hinit]
    refine and_congr_right fun hmeets => ?_
    cases hs : step init e with
    | error f => exact Iff.rfl
    | ok s' => exact ih (hkeep init e s' hinit hmeets hs)

end Runs

namespace nCMPCache

open Runs

/-- How a call on the buffer stops. -/
inductive EvictFault where
  | pastEnd
  | assertion
  deriving DecidableEq, Repr

namespace EvictScans

/-- `while ((iter->pending() || !iter->evictable()) && iter != end) ++iter;`
    The condition reads the entry first. -/
def skipUnready : List EvictEntry → Except EvictFault (List EvictEntry)
  | [] => .error .pastEnd
  | e :: rest => if e.pending || !e.evictable then skipUnready rest else .ok (e :: rest)

/-- An empty buffer is asked about before the loop. -/
def evictableReady (b : CacheEvictBuffer) : Except EvictFault Bool :=
  if b.empty then .ok false
  else do
    let iter ← skipUnready b.entries
    pure (!iter.isEmpty)

/-- The entry that was found becomes pending and is counted. -/
def firstNonPending (b : CacheEvictBuffer) : Except EvictFault (CacheEvictBuffer × EvictEntry) := do
  match ← skipUnready b.entries with
  | [] => .error .assertion
  | e :: _ =>
    pure ({ b.modify e.address (fun e => { e with pending := true }) fun _ => rfl with
      thePendingEvicts := b.thePendingEvicts + 1 }, e)

def setEvictable (b : CacheEvictBuffer) (a : MemoryAddress) (val : Bool) : CacheEvictBuffer :=
  b.modify a (fun e => { e with evictable := val }) fun _ => rfl

/-- The front entry leaves; whether it was pending is not asked. -/
def pop (b : CacheEvictBuffer) : Except EvictFault (CacheEvictBuffer × EvictEntry) :=
  match b.entries with
  | [] => .error .assertion
  | e :: _ =>
    if e.evictable then
      .ok ({ b with
        entries := b.entries.tail
        theCurSize := b.theCurSize - 1
        unique := List.map_tail ▸ b.unique.tail }, e)
    else .error .assertion

/-- The entry at an index; a negative index stands for the front. -/
def entryAt (b : CacheEvictBuffer) (index : Int) : Except EvictFault EvictEntry :=
  if index < b.theCurSize then
    match b.entries[index.toNat]? with
    | some e => if e.evictable then .ok e else .error .assertion
    | none => .error .pastEnd
  else .error .assertion

/-- The entry at an index becomes pending, and is not counted. -/
def popAt (b : CacheEvictBuffer) (index : Int) : Except EvictFault (CacheEvictBuffer × EvictEntry) := do
  let e ← entryAt b index
  pure (b.modify e.address (fun e => { e with pending := true }) fun _ => rfl, e)

def removeAt (b : CacheEvictBuffer) (index : Int) : Except EvictFault CacheEvictBuffer := do
  let e ← entryAt b index
  pure (b.remove e.address)

/-- The calls. -/
inductive Call where
  | allocEntry (a : MemoryAddress) (type : MemoryMessageType) (state : CacheState) (evictable : Bool)
  | setEvictable (a : MemoryAddress) (val : Bool)
  | pop
  | popAt (index : Int)
  | firstNonPending
  | removeAt (index : Int)
  | remove (a : MemoryAddress)
  | evictableReady
  deriving DecidableEq, Repr

def step (b : CacheEvictBuffer) : Call → Except EvictFault CacheEvictBuffer
  | .allocEntry a type state evictable => .ok (b.allocEntry a type state evictable)
  | .setEvictable a val => .ok (setEvictable b a val)
  | .pop => Prod.fst <$> pop b
  | .popAt index => Prod.fst <$> popAt b index
  | .firstNonPending => Prod.fst <$> firstNonPending b
  | .removeAt index => removeAt b index
  | .remove a => .ok (b.remove a)
  | .evictableReady => (fun _ => b) <$> evictableReady b

/-- The counters are the numbers of entries and of pending entries. -/
structure Exact (b : CacheEvictBuffer) : Prop where
  size : b.theCurSize = b.entries.length
  pending : b.thePendingEvicts = (b.entries.filter EvictEntry.pending).length

/-- A scan says what it should and reads no entry that is not there. -/
def Answers (b : CacheEvictBuffer) : Call → Prop
  | .evictableReady => evictableReady b = .ok (b.entries.any EvictEntry.ready)
  | .firstNonPending => firstNonPending b ≠ .error .pastEnd ∧
    ∀ e, b.entries.find? EvictEntry.ready = some e → ∃ b', firstNonPending b = .ok (b', e) ∧
      b'.entries = Keyed.alter EvictEntry.address e.address (fun e => { e with pending := true }) b.entries
  | _ => True

/-- A call answers as it should and leaves the counters right. -/
def Right (b : CacheEvictBuffer) (c : Call) : Prop :=
  Answers b c ∧ ∀ b', step b c = .ok b' → Exact b'

/-- What keeps a call right: an entry that leaves by `pop` is not pending, one that `pop` marks
    by its index is pending already, and a scan of a buffer that is not empty has an entry to
    find. -/
def Kept (b : CacheEvictBuffer) : Call → Prop
  | .pop => ∀ e ∈ b.entries.head?, e.evictable = true → e.pending = false
  | .popAt index => ∀ e, entryAt b index = .ok e → e.pending = true
  | .firstNonPending => ∃ e ∈ b.entries, e.ready = true
  | .evictableReady => b.entries = [] ∨ ∃ e ∈ b.entries, e.ready = true
  | _ => True

variable {b b' : CacheEvictBuffer} {a : MemoryAddress} {e : EvictEntry} {es : List EvictEntry}

theorem unready_eq : (e.pending || !e.evictable) = !e.ready := by
  unfold EvictEntry.ready
  cases e.pending <;> cases e.evictable <;> rfl

/-- The loop stops at the oldest entry that may be written back, and runs past the end when
    there is none. -/
theorem skipUnready_of_find (h : es.find? EvictEntry.ready = some e) :
    ∃ rest, skipUnready es = .ok (e :: rest) := by
  induction es with
  | nil => cases h
  | cons y es ih =>
    rw [List.find?_cons] at h
    rw [skipUnready, unready_eq]
    cases hy : y.ready with
    | true =>
      simp only [hy, Option.some.injEq] at h
      exact ⟨es, by rw [h]; rfl⟩
    | false =>
      simp only [hy] at h
      exact ih h

theorem skipUnready_of_none (h : es.find? EvictEntry.ready = none) : skipUnready es = .error .pastEnd := by
  induction es with
  | nil => rfl
  | cons y es ih =>
    rw [List.find?_cons] at h
    rw [skipUnready, unready_eq]
    cases hy : y.ready with
    | true => simp [hy] at h
    | false =>
      simp only [hy] at h
      exact ih h

theorem find_ready_eq_none : es.find? EvictEntry.ready = none ↔ ¬ ∃ e ∈ es, e.ready = true := by
  simp

/-! ## The counters -/

theorem exact_create (aSize : Nat) : Exact (.create aSize) := ⟨rfl, rfl⟩

/-- A change in place of an entry leaves the counters right when it is still pending, or still
    not. -/
theorem Exact.modify {f : EvictEntry → EvictEntry} {hf : ∀ e, (f e).address = e.address} (h : Exact b)
    (hsame : ∀ e, (f e).pending = e.pending) : Exact (b.modify a f hf) := by
  refine ⟨?_, ?_⟩
  · rw [CacheEvictBuffer.modify, Keyed.length_alter]
    exact h.size
  · have hpending : ((b.modify a f hf).entries.filter EvictEntry.pending).length =
        (b.entries.filter EvictEntry.pending).length := by
      simp only [← List.countP_eq_length_filter, CacheEvictBuffer.modify, Keyed.alter, List.countP_map]
      refine List.countP_congr fun e _ => ?_
      rw [Function.comp_apply]
      split
      · rw [hsame]
      · rfl
    rw [hpending]
    exact h.pending

/-- Marking an entry changes the number of pending entries unless it was pending before. -/
theorem pending_mark (hfind : b.find e.address = some e) :
    ((Keyed.alter EvictEntry.address e.address (fun e => { e with pending := true }) b.entries).filter
      EvictEntry.pending).length + (if e.pending then (1 : Int) else 0) =
      (b.entries.filter EvictEntry.pending).length + 1 := by
  have hcount := Keyed.length_filter_alter (f := fun e : EvictEntry => { e with pending := true })
    (p := EvictEntry.pending) b.unique hfind
  rw [hcount, if_pos rfl]
  ring

theorem Exact.allocEntry {type : MemoryMessageType} {state : CacheState} {evictable : Bool} (h : Exact b) :
    Exact (b.allocEntry a type state evictable) := by
  unfold CacheEvictBuffer.allocEntry
  split
  · exact h.modify fun _ => rfl
  · refine ⟨?_, ?_⟩
    · simp [h.size]
    · simp [h.pending]

theorem Exact.remove (h : Exact b) : Exact (b.remove a) := by
  unfold CacheEvictBuffer.remove
  split
  · next e he =>
    refine ⟨?_, ?_⟩
    · rw [Keyed.length_erase b.unique he, h.size]
    · rw [Keyed.length_filter_erase b.unique he, h.pending]
      dsimp only
      split <;> omega
  · exact h

theorem find_of_entryAt {index : Int} (he : entryAt b index = .ok e) : b.find e.address = some e := by
  unfold entryAt at he
  split at he
  · split at he
    · next y hy =>
      split at he
      · cases he
        exact Keyed.lookup_of_mem b.unique (List.mem_of_getElem? hy)
      · cases he
    · cases he
  · cases he

/-- The front entry leaves, and the counters are right after that if it was not pending. -/
theorem right_pop (h : Exact b) : Right b .pop ↔ Kept b .pop := by
  obtain ⟨hsize, hpending⟩ := h
  simp only [Right, Answers, Kept, true_and, step, pop]
  split
  · next hnil => exact iff_of_true (fun _ hok => by cases hok) (by simp [hnil])
  · next e rest hentries =>
    simp only [hentries, List.head?_cons, Option.mem_def, Option.some.injEq, forall_eq']
    split
    · next hevictable =>
      rw [hentries, List.length_cons] at hsize
      rw [hentries, List.filter_cons] at hpending
      simp only [hevictable, forall_true_left]
      constructor
      · intro hright
        have hcount := (hright _ rfl).pending
        simp only [List.tail_cons] at hcount
        cases hp : e.pending with
        | false => rfl
        | true =>
          rw [hp, if_pos rfl, List.length_cons] at hpending
          omega
      · rintro hfree b' hok
        cases hok
        rw [hfree, if_neg Bool.false_ne_true] at hpending
        refine ⟨?_, hpending⟩
        simp only [List.tail_cons]
        omega
    · next hstays =>
      exact iff_of_true (fun _ hok => by cases hok) fun hevictable => absurd hevictable hstays

theorem right_popAt {index : Int} (h : Exact b) : Right b (.popAt index) ↔ Kept b (.popAt index) := by
  simp only [Right, Answers, Kept, true_and, step, popAt]
  cases he : entryAt b index with
  | error f => exact iff_of_true (fun _ hok => by cases hok) (fun _ hok => by cases hok)
  | ok e =>
    have hcount := pending_mark (find_of_entryAt he)
    simp only [Except.ok.injEq, forall_eq']
    constructor
    · intro hright
      have hexact := (hright _ rfl).pending
      have hbefore := h.pending
      simp only [CacheEvictBuffer.modify] at hexact
      by_contra hfree
      rw [if_neg hfree] at hcount
      omega
    · rintro hp b' hok
      cases hok
      rw [hp, if_pos rfl] at hcount
      refine ⟨?_, ?_⟩
      · rw [CacheEvictBuffer.modify, Keyed.length_alter]
        exact h.size
      · have hbefore := h.pending
        simp only [CacheEvictBuffer.modify]
        omega

theorem right_firstNonPending (h : Exact b) : Right b .firstNonPending ↔ Kept b .firstNonPending := by
  simp only [Right, Answers, Kept, step]
  cases hfind : b.entries.find? EvictEntry.ready with
  | none =>
    have hfault : firstNonPending b = .error .pastEnd := by
      rw [firstNonPending, skipUnready_of_none hfind]
      rfl
    refine iff_of_false (fun hright => hright.1.1 hfault) (find_ready_eq_none.mp hfind)
  | some e =>
    obtain ⟨rest, hrest⟩ := skipUnready_of_find hfind
    have hok : firstNonPending b =
        .ok ({ b.modify e.address (fun e => { e with pending := true }) fun _ => rfl with
          thePendingEvicts := b.thePendingEvicts + 1 }, e) := by
      rw [firstNonPending, hrest]
      rfl
    have hmem := List.mem_of_find?_eq_some hfind
    have hready := List.find?_some hfind
    have hfree : e.pending = false := by
      simp only [EvictEntry.ready, Bool.and_eq_true, Bool.not_eq_true'] at hready
      exact hready.2
    have hcount := pending_mark (Keyed.lookup_of_mem b.unique hmem)
    rw [hfree] at hcount
    refine iff_of_true ⟨⟨by rw [hok]; simp, ?_⟩, ?_⟩ ⟨e, hmem, hready⟩
    · rintro x hx
      cases hx
      exact ⟨_, hok, rfl⟩
    · rintro b' hb'
      rw [hok] at hb'
      cases hb'
      refine ⟨?_, ?_⟩
      · rw [CacheEvictBuffer.modify, Keyed.length_alter]
        exact h.size
      · have hbefore := h.pending
        simp only [CacheEvictBuffer.modify]
        simp only [Bool.false_eq_true, if_false, add_zero] at hcount
        omega

theorem right_evictableReady (h : Exact b) : Right b .evictableReady ↔ Kept b .evictableReady := by
  have hexact : ∀ b', step b .evictableReady = .ok b' → Exact b' := by
    intro b' hok
    obtain ⟨_, _, rfl⟩ := map_eq_ok.mp hok
    exact h
  simp only [Right, Answers, Kept]
  rw [and_iff_left hexact, evictableReady]
  have hempty : b.empty = true ↔ b.entries = [] := by
    simp only [CacheEvictBuffer.empty, h.size, beq_iff_eq, Nat.cast_eq_zero, List.length_eq_zero_iff]
  split
  · next hnil =>
    have hentries := hempty.mp hnil
    exact iff_of_true (by rw [hentries]; rfl) (.inl hentries)
  · next hsome =>
    have hentries : b.entries ≠ [] := fun hnil => hsome (hempty.mpr hnil)
    rw [or_iff_right hentries]
    cases hfind : b.entries.find? EvictEntry.ready with
    | none =>
      rw [skipUnready_of_none hfind]
      exact iff_of_false (fun hok => by cases hok) (find_ready_eq_none.mp hfind)
    | some e =>
      obtain ⟨rest, hrest⟩ := skipUnready_of_find hfind
      have hready : ∃ e ∈ b.entries, e.ready = true :=
        ⟨e, List.mem_of_find?_eq_some hfind, List.find?_some hfind⟩
      rw [hrest, List.any_eq_true.mpr hready]
      exact iff_of_true rfl hready

theorem right_iff {c : Call} (h : Exact b) : Right b c ↔ Kept b c := by
  cases c with
  | allocEntry a type state evictable =>
    refine iff_of_true ⟨trivial, fun b' hok => ?_⟩ trivial
    cases hok
    exact h.allocEntry
  | setEvictable a val =>
    refine iff_of_true ⟨trivial, fun b' hok => ?_⟩ trivial
    cases hok
    exact h.modify fun _ => rfl
  | pop => exact right_pop h
  | popAt index => exact right_popAt h
  | firstNonPending => exact right_firstNonPending h
  | removeAt index =>
    refine iff_of_true ⟨trivial, fun b' hok => ?_⟩ trivial
    obtain ⟨e, _, hpure⟩ := bind_eq_ok.mp hok
    obtain rfl := pure_eq_ok.mp hpure
    exact h.remove
  | remove a =>
    refine iff_of_true ⟨trivial, fun b' hok => ?_⟩ trivial
    cases hok
    exact h.remove
  | evictableReady => exact right_evictableReady h

/-- In a run of calls on a new buffer every call answers as it should and leaves the counters
    right, and no scan reads past the end, exactly when each call meets `Kept`. -/
theorem calls_right_iff (aSize : Nat) (cs : List Call) :
    EachMeets step Right (.create aSize) cs ↔ EachMeets step Kept (.create aSize) cs := by
  refine eachMeets_congr (I := Exact) (fun b c h => right_iff h) (fun b c b' h hkept hok => ?_)
    (exact_create aSize)
  exact ((right_iff h).mpr hkept).2 b' hok

/-- One block is written back and idle time asks for another one: the scan looks past the
    only entry. -/
theorem not_calls_right :
    ¬ ∀ (aSize : Nat) (cs : List Call), EachMeets step Right (.create aSize) cs := by
  intro hall
  have hcalls := hall 4 [.allocEntry 64 .EvictDirty .Modified true, .firstNonPending, .evictableReady]
  have hlast := hcalls.2.2.1.1
  cases hlast

end EvictScans

end nCMPCache
