import Flexus.CmpCache.Copies

/-!
# Where the directory keeps a block

A block has one way of its directory set, or it is on its way out through the directory evict
buffer.
-/

namespace nCMPCache

open Runs

/-- A way that nobody shares and no request holds. -/
def DirBlock.unused (b : DirBlock) : Prop := b.state.noSharers = true ∧ b.isProtected = false

namespace StdDirectory

variable {cfg : CMPCacheInfo} {d : StdDirectory} {a : MemoryAddress}

/-- The ways carry block addresses, a way that is in use belongs to the set of its block,
    and of two ways with one tag the second is unused and carries the tag of block zero. -/
structure WellPlaced (cfg : CMPCacheInfo) (d : StdDirectory) : Prop where
  aligned : ∀ i w, cfg.blockAddress (d.theSets i w).tag = (d.theSets i w).tag
  home : ∀ i w, ¬ (d.theSets i w).unused → makeSet cfg (d.theSets i w).tag = i
  unique : ∀ i v w, v < w → w < cfg.theDirAssociativity →
    (d.theSets i v).tag = (d.theSets i w).tag → (d.theSets i w).tag = 0 ∧ (d.theSets i w).unused

/-- An empty directory is well placed. -/
theorem wellPlaced_create (cfg : CMPCacheInfo) : WellPlaced cfg (create cfg) := by
  have hunused : ∀ i w, ((create cfg).theSets i w).unused := by
    intro i w
    refine ⟨?_, rfl⟩
    simp [create, SimpleDirectoryState.noSharers, SimpleDirectoryState.countSharers,
      SimpleDirectoryState.create, List.count_replicate]
  exact ⟨fun i w => by simp [create, CMPCacheInfo.blockAddress],
    fun i w h => absurd (hunused i w) h, fun i v w _ _ _ => ⟨rfl, hunused i w⟩⟩

/-- A lookup finds the first way with the tag, so the ways before it have other tags. -/
theorem tag_ne_of_lt_way {v w : Nat} (hway : d.way cfg a = some w) (hvw : v < w) :
    (d.theSets (makeSet cfg a) v).tag ≠ cfg.blockAddress a := by
  have hfirst := (List.find?_range_eq_some.mp hway).2.2 v hvw
  simpa using hfirst

/-- Changing the entry of a block, but for its tag, leaves the directory well placed. -/
theorem WellPlaced.modify {f : DirBlock → DirBlock} (h : WellPlaced cfg d)
    (hf : ∀ b, (f b).tag = b.tag) : WellPlaced cfg (d.modify cfg a f) := by
  cases hway : d.way cfg a with
  | none =>
    rw [modify_of_way_none hway]
    exact h
  | some u =>
    have htag : ∀ i w, ((d.modify cfg a f).theSets i w).tag = (d.theSets i w).tag := by
      intro i w
      rw [modify_theSets hway]
      split
      · next hiw => rw [hf, hiw.1, hiw.2]
      · rfl
    refine ⟨fun i w => ?_, fun i w hused => ?_, fun i v w hvw hw heq => ?_⟩
    · rw [htag]
      exact h.aligned i w
    · rw [htag]
      rw [modify_theSets hway] at hused
      split at hused
      · next hiw =>
        rw [hiw.1, hiw.2, (way_spec hway).2, makeSet, CMPCacheInfo.blockAddress_blockAddress]
        rfl
      · exact h.home i w hused
    · rw [htag, htag] at heq
      obtain ⟨hzero, hunused⟩ := h.unique i v w hvw hw heq
      rw [htag, modify_theSets hway, if_neg]
      · exact ⟨hzero, hunused⟩
      · -- the way that changed is the first with its tag, and this one is not
        rintro ⟨rfl, rfl⟩
        exact tag_ne_of_lt_way hway hvw (heq.trans (way_spec hway).2)

/-- A block may take the way of an unprotected victim when it has none. -/
theorem WellPlaced.set {w : Nat} {dir : SimpleDirectoryState} (h : WellPlaced cfg d)
    (haligned : cfg.blockAddress a = a) (hnone : d.lookup cfg a = none) :
    WellPlaced cfg (d.set (makeSet cfg a) w { d.theSets (makeSet cfg a) w with tag := a, state := dir }) := by
  have hsets : ∀ j v, (d.set (makeSet cfg a) w
      { d.theSets (makeSet cfg a) w with tag := a, state := dir }).theSets j v =
      if j = makeSet cfg a ∧ v = w then { d.theSets (makeSet cfg a) w with tag := a, state := dir }
      else d.theSets j v := fun _ _ => rfl
  have hnew : ∀ v < cfg.theDirAssociativity, (d.theSets (makeSet cfg a) v).tag ≠ a := by
    intro v hv
    have hother := way_eq_none (lookup_eq_none.mp hnone) hv
    rwa [haligned] at hother
  refine ⟨fun i v => ?_, fun i v hused => ?_, fun i u v huv hv heq => ?_⟩
  · rw [hsets]
    split
    · exact haligned
    · exact h.aligned i v
  · rw [hsets] at hused ⊢
    split
    · next hiv => exact hiv.1.symm
    · next hiv =>
      rw [if_neg hiv] at hused
      exact h.home i v hused
  · rw [hsets, hsets] at heq
    by_cases hu : i = makeSet cfg a ∧ u = w
    · have hvw : ¬ (i = makeSet cfg a ∧ v = w) := fun hv' => by omega
      rw [if_pos hu, if_neg hvw, hu.1] at heq
      exact absurd heq.symm (hnew v hv)
    · by_cases hv' : i = makeSet cfg a ∧ v = w
      · rw [if_neg hu, if_pos hv', hv'.1] at heq
        exact absurd heq (hnew u (huv.trans hv))
      · rw [if_neg hu, if_neg hv'] at heq
        rw [hsets, if_neg hv']
        exact h.unique i u v huv hv heq

end StdDirectory

namespace Policy

variable {cfg : CMPCacheInfo} {s s' : Policy cfg} {a : MemoryAddress} {type : MemoryMessageType}
  {w : Causes}

/-- The directory is well placed, its evict buffer holds block addresses, and no block is
    in both. -/
structure Resident (s : Policy cfg) : Prop where
  placed : s.theDirectory.WellPlaced cfg
  buffered : ∀ {x d}, s.theDirEvictBuffer.find x = some d → cfg.blockAddress x = x
  apart : ∀ {x}, s.theDirectory.lookup cfg x ≠ none → s.theDirEvictBuffer.find (cfg.blockAddress x) = none

/-- What happens to the directory and its evict buffer, and the causes this has to have. -/
inductive DirMove (w : Causes) (s s' : Policy cfg) : Prop
  | entry {a : MemoryAddress} : OneEntry cfg a s.theDirectory s'.theDirectory →
      s'.theDirEvictBuffer = s.theDirEvictBuffer → DirMove w s s'
  | protect {a : MemoryAddress} : s'.theDirectory = s.theDirectory.setProtected cfg a true →
      s'.theDirEvictBuffer = s.theDirEvictBuffer → DirMove w s s'
  | unprotect {a : MemoryAddress} : w.frees a → s'.theDirectory = s.theDirectory.setProtected cfg a false →
      s'.theDirEvictBuffer = s.theDirEvictBuffer → DirMove w s s'
  | claimed {a : MemoryAddress} {type : MemoryMessageType} : cfg.blockAddress a = a → Claimed s type a s' →
      (∀ d, s.theDirEvictBuffer.find a = some d → d.invalidatesPending = 0) →
      DirMove w s s'
  | buffer : s'.theDirectory = s.theDirectory →
      (∀ {x d'}, s'.theDirEvictBuffer.find x = some d' → ∃ d, s.theDirEvictBuffer.find x = some d) →
      (∀ {x d}, s.theDirEvictBuffer.find x = some d → d.invalidatesPending ≠ 0 → ¬ w.invalidated x →
        ∃ d', s'.theDirEvictBuffer.find x = some d' ∧ d'.invalidatesPending ≠ 0) →
      (∀ {x d'}, s'.theDirEvictBuffer.find x = some d' → 0 < d'.invalidatesPending →
        (∃ d, s.theDirEvictBuffer.find x = some d ∧ 0 < d.invalidatesPending) ∨ w.recalls x) →
      DirMove w s s'

/-- The victim of an allocation that goes to the evict buffer is gone from the directory. -/
theorem victim_left {d' : StdDirectory} {w : Nat} {dir : SimpleDirectoryState}
    (hplaced : s.theDirectory.WellPlaced cfg) (hw : s.theDirectory.pickVictim cfg a = some w)
    (hshared : (s.theDirectory.theSets (StdDirectory.makeSet cfg a) w).state.noSharers = false)
    (haligned : cfg.blockAddress a = a) (hnone : s.theDirectory.lookup cfg a = none)
    (hd' : d' = s.theDirectory.set (StdDirectory.makeSet cfg a) w
      { s.theDirectory.theSets (StdDirectory.makeSet cfg a) w with tag := a, state := dir }) :
    s.theDirectory.lookup cfg (s.theDirectory.theSets (StdDirectory.makeSet cfg a) w).tag ≠ none ∧
      d'.lookup cfg (s.theDirectory.theSets (StdDirectory.makeSet cfg a) w).tag = none := by
  obtain ⟨hlt, hunprotected, hfewest⟩ := StdDirectory.pickVictim_spec hw
  generalize hv : s.theDirectory.theSets (StdDirectory.makeSet cfg a) w = victim at *
  have hused : ¬ (s.theDirectory.theSets (StdDirectory.makeSet cfg a) w).unused := by
    rw [hv]
    intro hunused
    rw [hunused.1] at hshared
    cases hshared
  have hhome := hplaced.home _ _ hused
  have hvaligned := hplaced.aligned (StdDirectory.makeSet cfg a) w
  rw [hv] at hhome hvaligned
  have htag : ∀ v < cfg.theDirAssociativity, v ≠ w →
      (s.theDirectory.theSets (StdDirectory.makeSet cfg a) v).tag ≠ victim.tag := by
    intro v hvlt hvw heq
    rcases Nat.lt_or_gt_of_ne hvw with hlt' | hgt
    · exact hused (hplaced.unique _ v w hlt' hlt (by rw [hv]; exact heq)).2
    · -- a second way with the tag is unused, and would have been the victim
      have hunused := (hplaced.unique _ w v hgt hvlt (by rw [hv]; exact heq.symm)).2
      have hle := hfewest v hvlt hunused.2
      have hzero : (s.theDirectory.theSets (StdDirectory.makeSet cfg a) v).state.countSharers = 0 := by
        simpa [SimpleDirectoryState.noSharers] using hunused.1
      have hpos : victim.state.countSharers ≠ 0 := by
        simpa [SimpleDirectoryState.noSharers] using hshared
      omega
  have hset : StdDirectory.makeSet cfg victim.tag = StdDirectory.makeSet cfg a := hhome
  constructor
  · intro hnone'
    have hother := StdDirectory.way_eq_none (StdDirectory.lookup_eq_none.mp hnone') hlt
    rw [hset, hv, hvaligned] at hother
    exact hother rfl
  · rw [StdDirectory.lookup_eq_none, StdDirectory.way, List.find?_eq_none]
    intro v hvmem
    have hvlt := List.mem_range.mp hvmem
    rw [hset, hvaligned, hd']
    simp only [StdDirectory.set, true_and, beq_iff_eq]
    split
    · have hother := StdDirectory.way_eq_none (StdDirectory.lookup_eq_none.mp hnone) hlt
      rw [hv, haligned] at hother
      exact Ne.symm hother
    · next hvw => exact htag v hvlt hvw

/-- A block other than the new one that is found after an allocation was found before. -/
theorem lookup_ne_none_of_set {d : StdDirectory} {w : Nat} {block : DirBlock} {x : MemoryAddress}
    (htag : block.tag ≠ cfg.blockAddress x)
    (h : (d.set (StdDirectory.makeSet cfg a) w block).lookup cfg x ≠ none) : d.lookup cfg x ≠ none := by
  intro hnone
  refine h (StdDirectory.lookup_eq_none.mpr (List.find?_eq_none.mpr fun v hv => ?_))
  have hother := StdDirectory.way_eq_none (StdDirectory.lookup_eq_none.mp hnone) (List.mem_range.mp hv)
  simp only [StdDirectory.set, beq_iff_eq]
  split
  · exact htag
  · exact hother

theorem Claimed.resident (hresident : Resident s) (haligned : cfg.blockAddress a = a)
    (h : Claimed s type a s') : Resident s' := by
  cases h with
  | kept hsame _ =>
    rw [hsame]
    exact hresident
  | @allocated victim hnone hallocate hbuffer =>
    obtain ⟨w, hw, hd', hfound, hvictim, _⟩ := StdDirectory.allocate_spec hnone haligned hallocate
    have hinsert : ∀ {x d}, (insertVictim s.theDirEvictBuffer victim).find x = some d →
        (∃ d, s.theDirEvictBuffer.find x = some d) ∨
          (s.theDirectory.theSets (StdDirectory.makeSet cfg a) w).state.noSharers = false ∧
          x = (s.theDirectory.theSets (StdDirectory.makeSet cfg a) w).tag := by
      intro x d hx
      rw [hvictim] at hx
      split at hx
      · exact .inl ⟨d, hx⟩
      · next hshared =>
        rw [insertVictim, DirEvictBuffer.find_insert] at hx
        cases hold : s.theDirEvictBuffer.find x with
        | some d' => exact .inl ⟨d', rfl⟩
        | none =>
          rw [hold, Option.none_or] at hx
          split at hx
          · next htag => exact .inr ⟨by simpa using hshared, htag.symm⟩
          · cases hx
    refine ⟨hd' ▸ hresident.placed.set haligned hnone, fun {x d} hx => ?_, fun {x} hx => ?_⟩
    · rw [hbuffer] at hx
      split at hx
      · cases hx
      · rcases hinsert hx with ⟨d', hd⟩ | ⟨_, rfl⟩
        · exact hresident.buffered hd
        · exact hresident.placed.aligned _ _
    · rw [hbuffer]
      split
      · rfl
      · next hxa =>
        have hbefore : s.theDirectory.lookup cfg x ≠ none :=
          lookup_ne_none_of_set (fun h => hxa h.symm) (hd' ▸ hx)
        cases hin : (insertVictim s.theDirEvictBuffer victim).find (cfg.blockAddress x) with
        | none => rfl
        | some d =>
          rcases hinsert hin with ⟨d', hd⟩ | ⟨hshared, htag⟩
          · rw [hresident.apart hbefore] at hd
            cases hd
          · have hleft := (victim_left hresident.placed hw hshared haligned hnone hd').2
            rw [← htag, StdDirectory.lookup_blockAddress] at hleft
            exact absurd hleft hx

theorem DirMove.resident (hresident : Resident s) (h : DirMove w s s') : Resident s' := by
  have hmodify : ∀ {b f}, s'.theDirectory = s.theDirectory.modify cfg b f →
      (∀ block : DirBlock, (f block).tag = block.tag) → s'.theDirEvictBuffer = s.theDirEvictBuffer →
      Resident s' := by
    intro b f hdir hf hbuffer
    refine ⟨hdir ▸ hresident.placed.modify hf, fun hx => hresident.buffered (hbuffer ▸ hx), ?_⟩
    intro x hx
    rw [hbuffer]
    refine hresident.apart fun hnone => hx ?_
    rw [hdir, StdDirectory.lookup_eq_none, StdDirectory.way_modify hf]
    exact StdDirectory.lookup_eq_none.mp hnone
  cases h with
  | entry hentry hbuffer =>
    generalize hd' : s'.theDirectory = d' at hentry
    cases hentry with
    | same =>
      refine ⟨hd' ▸ hresident.placed, fun hx => hresident.buffered (hbuffer ▸ hx), fun {x} hx => ?_⟩
      rw [hbuffer]
      exact hresident.apart (hd' ▸ hx)
    | sharers dir => exact hmodify hd' (fun _ => rfl) hbuffer
  | protect hdir hbuffer => exact hmodify hdir (fun _ => rfl) hbuffer
  | unprotect _ hdir hbuffer => exact hmodify hdir (fun _ => rfl) hbuffer
  | claimed haligned hclaimed _ => exact hclaimed.resident hresident haligned
  | buffer hdir hfound _ _ =>
    refine ⟨hdir ▸ hresident.placed, fun hx => ?_, fun {x} hx => ?_⟩
    · obtain ⟨d, hd⟩ := hfound hx
      exact hresident.buffered hd
    · cases hin : s'.theDirEvictBuffer.find (cfg.blockAddress x) with
      | none => rfl
      | some d' =>
        obtain ⟨d, hd⟩ := hfound hin
        rw [hresident.apart (hdir ▸ hx)] at hd
        cases hd

end Policy

end nCMPCache
