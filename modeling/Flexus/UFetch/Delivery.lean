import Flexus.UFetch.Bundles

/-!
# Instruction delivery

Every element leaves the fetch unit once, in the order of the addresses and with the opcode that
a translation brought for its address.
-/

namespace nuFetch

open Runs

variable {c : FetchConfig}

/-! ## The end of the queue -/

namespace UFetch

variable {s s' : UFetch c} {i : Nat} {translateVirtualAddress : Nat → Nat → Nat}

/-- A line is in the cache, or its address is known to have no translation. -/
def LineHits (s : UFetch c) (translateVirtualAddress : Nat → Nat → Nat) (anIndex key : Nat) : Prop :=
  s.theI.has (c.keyOf (translateVirtualAddress anIndex (c.addrOf key))) = true ∨
    key = s.theLastVTagSet ∧
      (s.theLastPhysical = 0 ∨ s.theI.has (c.keyOf s.theLastPhysical) = true)

instance (translateVirtualAddress : Nat → Nat → Nat) (anIndex key : Nat) :
    Decidable (s.LineHits translateVirtualAddress anIndex key) :=
  inferInstanceAs (Decidable (_ ∨ _ ∧ (_ ∨ _)))

/-- What stops the loop over the addresses before the queue ends: its bound, the limit on the
    lines of a cycle, or a line that misses. -/
def StopsEarly (s : UFetch c) (translateVirtualAddress : Nat → Nat → Nat) (anIndex remaining_fetch : Nat) :
    Prop :=
  remaining_fetch ≤ (s.threads anIndex).theFAQ.length ∨
    c.MaxFetchLines <
      ((s.threads anIndex).theFAQ.map fun a => c.blockAddr a.theAddress).dedup.length ∨
    c.PerfectICache = false ∧ ∃ a ∈ (s.threads anIndex).theFAQ,
      ¬ s.LineHits translateVirtualAddress anIndex (c.keyOf a.theAddress)

instance (translateVirtualAddress : Nat → Nat → Nat) (anIndex remaining_fetch : Nat) :
    Decidable (s.StopsEarly translateVirtualAddress anIndex remaining_fetch) :=
  inferInstanceAs (Decidable (_ ∨ _ ∨ _ ∧ ∃ a ∈ (s.threads anIndex).theFAQ, ¬ _))

theorem issueFetch_eq_error {anAddress : Nat} {f : FetchFault} (h : s.issueFetch anAddress = .error f) :
    f = .zeroAddress := by
  unfold issueFetch at h
  split at h
  · exact (Except.error.inj h).symm
  · cases h

theorem prefetchNext_eq_error {f : FetchFault} (h : s.prefetchNext translateVirtualAddress i = .error f) :
    f = .zeroAddress := by
  unfold prefetchNext at h
  split at h
  · cases h
  · split at h
    · cases h
    · split at h
      · dsimp only at h
        split at h
        · cases h
        · split at h
          · cases h
          · exact issueFetch_eq_error h
      · cases h

/-- The assertions of a lookup. -/
def ofLookup (f : FetchFault) : Prop := f = .zeroAddress ∨ f = .secondMiss ∨ f = .failedTranslation

theorem icacheMiss_eq_error {tagset paddr : Nat} {f : FetchFault}
    (h : s.icacheMiss translateVirtualAddress i tagset paddr = .error f) : ofLookup f := by
  unfold icacheMiss at h
  split at h
  · exact .inr (.inl (Except.error.inj h).symm)
  · dsimp only at h
    split at h
    · exact .inl (prefetchNext_eq_error h)
    · rcases Runs.bind_eq_error.mp h with hfetch | ⟨sFetch, -, hprefetch⟩
      · exact .inl (issueFetch_eq_error hfetch)
      · exact .inl (prefetchNext_eq_error hprefetch)

theorem icacheAccess_eq_error {tagset paddr : Nat} {f : FetchFault}
    (h : s.icacheAccess translateVirtualAddress i tagset paddr = .error f) : ofLookup f := by
  unfold icacheAccess at h
  dsimp only at h
  split at h
  · split at h
    · exact .inl (prefetchNext_eq_error (Runs.map_eq_error.mp h))
    · cases h
  · exact icacheMiss_eq_error (Runs.map_eq_error.mp h)

theorem icacheLookup_eq_error {vaddr : Nat} {f : FetchFault}
    (h : s.icacheLookup translateVirtualAddress i vaddr = .error f) : ofLookup f := by
  unfold icacheLookup at h
  dsimp only at h
  by_cases hknown : c.keyOf vaddr = s.theLastVTagSet
  · simp only [if_pos hknown] at h
    split at h
    · cases h
    · exact icacheAccess_eq_error h
  · simp only [if_neg hknown] at h
    split at h
    · exact .inr (.inr (Except.error.inj h).symm)
    · exact icacheAccess_eq_error h

/-- A line that hits after another one has been looked up would have hit before. -/
theorem lineHits_before {key k : Nat} {hit : Bool}
    (h : s.icacheLookup translateVirtualAddress i (c.addrOf key) = .ok (hit, s'))
    (hhit : s'.LineHits translateVirtualAddress i k) :
    s.LineHits translateVirtualAddress i k := by
  rcases looked_icacheLookup h with ⟨-, -, rfl⟩ | ⟨paddr, hpaddr, hlooked, hne, -⟩
  · exact hhit
  · have hhas : ∀ k, s'.theI.has k = s.theI.has k := hlooked.has
    unfold LineHits at hhit ⊢
    rw [hhas, hhas, hlooked.lastTag, hlooked.lastPhysical] at hhit
    simp only [keepTranslation, FetchConfig.keyOf_addrOf] at hhit hpaddr
    rcases hhit with hin | ⟨rfl, hzero | hin⟩
    · exact .inl hin
    · exact absurd hzero hne
    · rcases hpaddr with ⟨hkey, rfl⟩ | rfl
      · exact .inr ⟨hkey, .inr hin⟩
      · exact .inl hin

theorem lineHits_of_hit {key : Nat}
    (h : s.icacheLookup translateVirtualAddress i (c.addrOf key) = .ok (true, s')) :
    s.LineHits translateVirtualAddress i key := by
  rcases looked_icacheLookup h with ⟨hkey, hzero, -⟩ | ⟨paddr, hpaddr, -, -, hin⟩
  · rw [FetchConfig.keyOf_addrOf] at hkey
    exact .inr ⟨hkey, .inl hzero⟩
  · rw [FetchConfig.keyOf_addrOf] at hpaddr
    rcases hpaddr with ⟨hkey, rfl⟩ | rfl
    · exact .inr ⟨hkey, .inr hin.symm⟩
    · exact .inl hin.symm

/-- The loop comes to the end of the queue while it quiesces, with `lines` available. -/
structure RanOut (s : UFetch c) (translateVirtualAddress : Nat → Nat → Nat) (anIndex : Nat)
    (quiescing : Bool) (remaining_fetch : Nat) (available_lines lines : List Nat) : Prop where
  quiesces : quiescing = true
  short : (s.threads anIndex).theFAQ.length < remaining_fetch
  nodup : lines.Nodup
  bound : lines.length ≤ c.MaxFetchLines
  subset : available_lines ⊆ lines
  covers : ∀ a ∈ (s.threads anIndex).theFAQ, c.blockAddr a.theAddress ∈ lines
  hits : ∀ b ∈ lines, b ∈ available_lines ∨ c.PerfectICache = true ∨
    s.LineHits translateVirtualAddress anIndex (c.keyOf b)

variable {quiescing : Bool} {remaining_fetch : Nat} {available_lines lines : List Nat}
  {fetch_addr : FetchAddr} {rest : List FetchAddr}

theorem faq_takeAddress (hfaq : (s.threads i).theFAQ = fetch_addr :: rest) :
    ((s.takeAddress i fetch_addr).threads i).theFAQ = rest := by
  have htook := (took_takeAddress hfaq).faq
  rw [hfaq] at htook
  exact (List.cons.inj htook).2.symm

/-- One more address in front of the queue, of a line that is available. -/
theorem RanOut.cons_available (hfaq : (s.threads i).theFAQ = fetch_addr :: rest)
    (hmem : c.blockAddr fetch_addr.theAddress ∈ available_lines)
    (h : (s.takeAddress i fetch_addr).RanOut translateVirtualAddress i quiescing remaining_fetch
      available_lines lines) :
    s.RanOut translateVirtualAddress i quiescing (remaining_fetch + 1) available_lines lines where
  quiesces := h.quiesces
  short := by
    have hshort := h.short
    rw [faq_takeAddress hfaq] at hshort
    rw [hfaq]
    exact Nat.succ_lt_succ hshort
  nodup := h.nodup
  bound := h.bound
  subset := h.subset
  covers := by
    have hcovers := h.covers
    rw [faq_takeAddress hfaq] at hcovers
    rw [hfaq]
    intro a ha
    rcases List.mem_cons.mp ha with rfl | hrest
    · exact h.subset hmem
    · exact hcovers a hrest
  hits := h.hits

/-- The line of the first address became available before the others were taken. -/
theorem RanOut.of_cons {line : Nat} (hline : c.PerfectICache = true ∨
      s.LineHits translateVirtualAddress i (c.keyOf line))
    (h : s.RanOut translateVirtualAddress i quiescing remaining_fetch (line :: available_lines) lines) :
    s.RanOut translateVirtualAddress i quiescing remaining_fetch available_lines lines :=
  { h with
    subset := fun _ hb => h.subset (List.mem_cons_of_mem _ hb)
    hits := by
      intro b hb
      rcases h.hits b hb with hmem | hthen
      · rcases List.mem_cons.mp hmem with rfl | hbefore
        · exact .inr hline
        · exact .inl hbefore
      · exact .inr hthen }

/-- What hits after a lookup would have hit before. -/
theorem RanOut.before {key : Nat} {hit : Bool}
    (hlook : s.icacheLookup translateVirtualAddress i (c.addrOf key) = .ok (hit, s'))
    (h : s'.RanOut translateVirtualAddress i quiescing remaining_fetch available_lines lines) :
    s.RanOut translateVirtualAddress i quiescing remaining_fetch available_lines lines := by
  have hfaq : (s.threads i).theFAQ = (s'.threads i).theFAQ := (took_icacheLookup hlook).faq
  exact { h with
    short := by rw [hfaq]; exact h.short
    covers := by rw [hfaq]; exact h.covers
    hits := by
      intro b hb
      rcases h.hits b hb with hmem | hperfect | hhit
      · exact .inl hmem
      · exact .inr (.inl hperfect)
      · exact .inr (.inr (lineHits_before hlook hhit)) }

/-- Apart from the lookups, the loop faults at the end of the queue only. -/
theorem fetchLoop_eq_error {f : FetchFault} (hnodup : available_lines.Nodup)
    (hbound : available_lines.length ≤ c.MaxFetchLines)
    (h : s.fetchLoop translateVirtualAddress i quiescing remaining_fetch available_lines = .error f) :
    ofLookup f ∨ f = .emptyFAQ ∧
      ∃ lines, s.RanOut translateVirtualAddress i quiescing remaining_fetch available_lines lines := by
  induction remaining_fetch generalizing available_lines s with
  | zero => cases h
  | succ remaining_fetch ih =>
    unfold fetchLoop at h
    split at h
    · next hempty =>
      split at h
      · next hquiescing =>
        refine .inr ⟨(Except.error.inj h).symm, available_lines, hquiescing, ?_, hnodup, hbound,
          List.Subset.refl _, ?_, fun b hb => .inl hb⟩
        · rw [hempty]
          exact Nat.succ_pos _
        · rw [hempty]
          exact fun a ha => absurd ha List.not_mem_nil
      · cases h
    · next fetch_addr rest hfaq =>
      dsimp only at h
      split at h
      · next hmem =>
        rcases ih hnodup hbound h with hlookup | ⟨hf, lines, hran⟩
        · exact .inl hlookup
        · exact .inr ⟨hf, lines, hran.cons_available hfaq hmem⟩
      next hnew =>
      split at h
      · cases h
      next hroom =>
      have hnodup' : (c.blockAddr fetch_addr.theAddress :: available_lines).Nodup :=
        List.nodup_cons.mpr ⟨hnew, hnodup⟩
      have hbound' : (c.blockAddr fetch_addr.theAddress :: available_lines).length ≤ c.MaxFetchLines := by
        rw [List.length_cons]
        omega
      split at h
      · next hperfect =>
        rcases ih hnodup' hbound' h with hlookup | ⟨hf, lines, hran⟩
        · exact .inl hlookup
        · exact .inr ⟨hf, lines,
            (hran.cons_available hfaq List.mem_cons_self).of_cons (.inl hperfect)⟩
      · rcases Runs.bind_eq_error.mp h with hlook | ⟨⟨hit, sLine⟩, hlook, hthen⟩
        · exact .inl (icacheLookup_eq_error hlook)
        have hfaqLine : (sLine.threads i).theFAQ = fetch_addr :: rest := by
          rw [← hfaq]
          exact (took_icacheLookup hlook).faq.symm
        dsimp only at hthen
        split at hthen
        · next hhit =>
          rcases ih hnodup' hbound' hthen with hlookup | ⟨hf, lines, hran⟩
          · exact .inl hlookup
          have hline : s.LineHits translateVirtualAddress i (c.keyOf (c.blockAddr fetch_addr.theAddress)) := by
            rw [FetchConfig.keyOf_blockAddr]
            rw [hhit] at hlook
            exact lineHits_of_hit hlook
          have hbefore := (hran.cons_available hfaqLine List.mem_cons_self).before hlook
          exact .inr ⟨hf, lines, hbefore.of_cons (.inr hline)⟩
        · cases hthen

/-- A loop that something stops early does not come to the end of the queue. -/
theorem not_ranOut (hstops : s.StopsEarly translateVirtualAddress i remaining_fetch) :
    ¬ s.RanOut translateVirtualAddress i true remaining_fetch [] lines := by
  intro h
  rcases hstops with hlong | hlines | ⟨hperfect, a, ha, hmiss⟩
  · exact absurd h.short (by omega)
  · have hsub : ((s.threads i).theFAQ.map fun a => c.blockAddr a.theAddress).dedup ⊆ lines := by
      intro b hb
      obtain ⟨a, ha, rfl⟩ := List.mem_map.mp (List.mem_dedup.mp hb)
      exact h.covers a ha
    have hle := ((List.nodup_dedup _).subperm hsub).length_le
    exact absurd h.bound (by omega)
  · rcases h.hits _ (h.covers a ha) with hmem | hthen | hhit
    · exact List.not_mem_nil hmem
    · rw [hperfect] at hthen
      cases hthen
    · rw [FetchConfig.keyOf_blockAddr] at hhit
      exact hmiss hhit

end UFetch

end nuFetch
