import Flexus.MemQueue.DoLoad

namespace nuArchARM

/-- The load `L` takes at least one byte from the store `U`: both touch it, and
    no store between them, not annulled, writes it again. -/
structure DependsOn (q : memq_t) (U L : MemQueueEntry) : Prop where
  mem : L ∈ q.entries
  load : L.isLoad = true
  resolved : L.thePaddr ≠ kUnresolved
  bucket : L.thePaddr_aligned = U.thePaddr_aligned
  younger : U.theSequenceNum < L.theSequenceNum
  live : U.isLiveStore = true
  byte : ∃ a, U.touches a ∧ L.touches a ∧ ∀ V ∈ q.entries, U.theSequenceNum < V.theSequenceNum →
    V.theSequenceNum < L.theSequenceNum → V.isLiveStore = true → ¬ V.touches a

/-- After `updateDependantLoads` every load that depended on the store has been
    visited, or has been moved out of the bucket by an older load it depends on. -/
def Resnooped (S : Surroundings) (c : CoreImpl) (U : MemQueueEntry) : Prop :=
  ∀ L, DependsOn c.theMemQueue U L →
    (∃ v ∈ (updateDependantLoads S c U.theSequenceNum).2, v.load = L.theSequenceNum) ∨
    ∀ L' ∈ (updateDependantLoads S c U.theSequenceNum).1.theMemQueue.entries,
      L'.theSequenceNum = L.theSequenceNum → L'.thePaddr_aligned ≠ U.thePaddr_aligned

/-- Between the store and each load that depends on it lies no plain store that
    overlaps the store, and neither of the two leaves its 16-byte window. -/
def NoMaskingStore (q : memq_t) (U : MemQueueEntry) : Prop :=
  ∀ L, DependsOn q U L → U.InWindow ∧ L.InWindow ∧
    ∀ V ∈ q.entries, V.thePaddr_aligned = U.thePaddr_aligned →
      U.theSequenceNum < V.theSequenceNum → V.theSequenceNum < L.theSequenceNum →
      V.isLiveStore = true → V.isLoad = false → intersects U V = false

/-- Surroundings in which nothing waits for any load. -/
def Surroundings.still : Surroundings where
  squash _ c := c
  satisfy _ c := c
  wakeBlocked _ c := c
  squash_reaction _ _ := .refl (fun e => ⟨.refl e, fun _ => rfl⟩) _
  satisfy_reaction _ _ := .refl (fun e => ⟨.refl e, fun _ => rfl⟩) _
  wakeBlocked_issued _ _ := .refl (R := OnlyIssued) (fun _ => rfl) _

namespace SameAccess

variable {e e' : MemQueueEntry}

theorem isLoad_eq (h : SameAccess e e') : e'.isLoad = e.isLoad := by
  rw [MemQueueEntry.isLoad, MemQueueEntry.isLoad, h.op]

theorem isLiveStore_eq (h : SameAccess e e') : e'.isLiveStore = e.isLiveStore := by
  rw [Bool.eq_iff_iff, MemQueueEntry.isLiveStore_iff, MemQueueEntry.isLiveStore_iff,
    MemQueueEntry.isStore, MemQueueEntry.isStore, h.op, h.annulled]

/-- An entry that is still in a bucket of resolved addresses has kept its address. -/
theorem of_bucket (h : SameAccess e e') {key : PhysicalMemoryAddress} (hkey : key ≠ kUnresolved)
    (hbucket : e'.thePaddr_aligned = key) :
    e.thePaddr_aligned = key ∧ e'.thePaddr = e.thePaddr := by
  obtain ⟨hpaddr, haligned⟩ | ⟨_, hunresolved⟩ := h.addr
  · exact ⟨haligned ▸ hbucket, hpaddr⟩
  · exact absurd (hbucket.symm.trans hunresolved) hkey

theorem intersects_eq (h : SameAccess e e') (hpaddr : e'.thePaddr = e.thePaddr)
    (haligned : e'.thePaddr_aligned = e.thePaddr_aligned) (U : MemQueueEntry) :
    intersects U e' = intersects U e := by
  simp only [intersects, makeMask, offset, h.size, hpaddr, haligned]

end SameAccess

section Scan

variable {S : Surroundings} {U : MemQueueEntry}

/-- A relation kept by every visit from `n` on is kept by the whole loop. -/
theorem scanDependants_related {R : MemQueueEntry → MemQueueEntry → Prop} {n : Nat}
    (hrefl : ∀ e, R e e) (htrans : ∀ x y z, R x y → R y z → R x z)
    (hload : ∀ c s cached, n ≤ s → Related R c (doLoad S c s cached).1) (fuel : Nat) (c : CoreImpl)
    (cached : SnoopState) {iter : Option MemQueueEntry}
    (hiter : ∀ entry, iter = some entry → n ≤ entry.theSequenceNum) :
    Related R c (scanDependants S U fuel c cached iter).1 := by
  have hbound : ∀ (q : memq_t) (a : PhysicalMemoryAddress) (s : Nat) (entry : MemQueueEntry),
      q.lowerBound a s = some entry → s ≤ entry.theSequenceNum := by
    intro q a s entry hfound
    have hsel := List.find?_some hfound
    simp only [Bool.and_eq_true, decide_eq_true_eq] at hsel
    exact hsel.2
  induction fuel generalizing c cached iter with
  | zero => exact .refl hrefl c
  | succ fuel ih =>
    cases iter with
    | none => exact .refl hrefl c
    | some entry =>
      have hentry := hiter entry rfl
      rw [scanDependants]
      dsimp only
      split
      case isTrue =>
        refine (hload c _ _ hentry).trans htrans (ih _ _ ?_)
        intro again hagain
        obtain ⟨next, hnext, hagain⟩ := Option.bind_eq_some_iff.mp hagain
        have h1 := hbound _ _ _ _ hnext
        have h2 := hbound _ _ _ _ hagain
        omega
      split
      case isTrue => exact .refl hrefl c
      case isFalse =>
        refine ih _ _ ?_
        intro next hnext
        have h1 := hbound _ _ _ _ hnext
        omega

theorem scanDependants_sameAccess (fuel : Nat) (c : CoreImpl) (cached : SnoopState)
    (iter : Option MemQueueEntry) : Related SameAccess c (scanDependants S U fuel c cached iter).1 :=
  scanDependants_related (n := 0) SameAccess.refl @SameAccess.trans
    (fun c s cached _ => doLoad_sameAccess S c s cached) fuel c cached (fun _ _ => Nat.zero_le _)

theorem lowerBound_eq_some {q : memq_t} {a : PhysicalMemoryAddress} {s : Nat} {e : MemQueueEntry}
    (h : q.lowerBound a s = some e) : e ∈ q.entries ∧ e.thePaddr_aligned = a ∧
      s ≤ e.theSequenceNum ∧ ∀ x ∈ q.entries, x.thePaddr_aligned = a → s ≤ x.theSequenceNum →
        e.theSequenceNum ≤ x.theSequenceNum := by
  have hsome := List.find?_some h
  simp only [Bool.and_eq_true, beq_iff_eq, decide_eq_true_eq] at hsome
  refine ⟨List.mem_of_find?_eq_some h, hsome.1, hsome.2, ?_⟩
  intro x hx hbucket hle
  obtain ⟨_, before, after, hsplit, hfirst⟩ := List.find?_eq_some_iff_append.mp h
  rw [hsplit] at hx
  have hordered := q.ordered
  rw [hsplit, List.pairwise_append] at hordered
  obtain ⟨_, htail, _⟩ := hordered
  rw [List.mem_append, List.mem_cons] at hx
  obtain hbefore | rfl | hafter := hx
  · have hnot := hfirst x hbefore
    simp [hbucket, hle] at hnot
  · exact le_rfl
  · exact (List.rel_of_pairwise_cons htail hafter).le

theorem lowerBound_eq_none {q : memq_t} {a : PhysicalMemoryAddress} {s : Nat}
    (h : q.lowerBound a s = none) {x : MemQueueEntry} (hx : x ∈ q.entries)
    (hbucket : x.thePaddr_aligned = a) : x.theSequenceNum < s := by
  have hnot := List.find?_eq_none.mp h x hx
  simpa [hbucket] using hnot

/-- Entries never enter a bucket during a visit, so searching again from the
    next entry is searching again from just after the visited one. -/
theorem lowerBound_again {c c' : CoreImpl} (h : Related SameAccess c c')
    {key : PhysicalMemoryAddress} (hkey : key ≠ kUnresolved) (s : Nat) :
    ((c.theMemQueue.lowerBound key s).bind fun next =>
      c'.theMemQueue.lowerBound key next.theSequenceNum) = c'.theMemQueue.lowerBound key s := by
  have hback : ∀ x ∈ c'.theMemQueue.entries, x.thePaddr_aligned = key →
      ∃ e ∈ c.theMemQueue.entries, e.thePaddr_aligned = key ∧
        e.theSequenceNum = x.theSequenceNum := by
    intro x hx hbucket
    obtain ⟨e, he, hsame⟩ := h.exists_of_mem_right hx
    exact ⟨e, he, (hsame.of_bucket hkey hbucket).1, hsame.seq.symm⟩
  cases hnext : c.theMemQueue.lowerBound key s with
  | none =>
    symm
    refine List.find?_eq_none.mpr ?_
    intro x hx hsel
    simp only [Bool.and_eq_true, beq_iff_eq, decide_eq_true_eq] at hsel
    obtain ⟨e, he, hbucket, hseq⟩ := hback x hx hsel.1
    have := lowerBound_eq_none hnext he hbucket
    omega
  | some next =>
    obtain ⟨hmem, hbucket, hle, hmin⟩ := lowerBound_eq_some hnext
    change c'.theMemQueue.entries.find? _ = c'.theMemQueue.entries.find? _
    apply List.find?_congr
    intro x hx
    by_cases hx' : x.thePaddr_aligned = key
    · obtain ⟨e, he, hebucket, heseq⟩ := hback x hx hx'
      have hiff : next.theSequenceNum ≤ x.theSequenceNum ↔ s ≤ x.theSequenceNum := by
        constructor
        · exact fun h => hle.trans h
        · intro h
          rw [← heseq] at h ⊢
          exact hmin e he hebucket h
      simp [hx', hiff]
    · have hne : (x.thePaddr_aligned == key) = false := by simpa using hx'
      simp only [hne, Bool.false_and]

/-- The number of entries from the iterator's position on: what is left of the loop. -/
def remaining (q : memq_t) (s : Nat) : Nat :=
  (q.entries.map MemQueueEntry.theSequenceNum).countP fun n => decide (s ≤ n)

theorem remaining_related {c c' : CoreImpl} (h : Related SameAccess c c') (s : Nat) :
    remaining c'.theMemQueue s = remaining c.theMemQueue s := by
  have hseqs : c'.theMemQueue.entries.map MemQueueEntry.theSequenceNum =
      c.theMemQueue.entries.map MemQueueEntry.theSequenceNum := by
    have hpairs := h.entries.imp fun _ _ (hsame : SameAccess _ _) => hsame.seq.symm
    rw [← List.forall₂_eq_eq_eq, List.forall₂_map_right_iff, List.forall₂_map_left_iff]
    exact hpairs.flip.imp fun _ _ hseq => hseq.symm
  rw [remaining, remaining, hseqs]

theorem remaining_lt {q : memq_t} {s : Nat} {e : MemQueueEntry} (he : e ∈ q.entries)
    (hs : s ≤ e.theSequenceNum) : remaining q (e.theSequenceNum + 1) < remaining q s := by
  have hmem : e.theSequenceNum ∈ q.entries.map MemQueueEntry.theSequenceNum :=
    List.mem_map_of_mem he
  obtain ⟨before, after, hsplit⟩ := List.append_of_mem hmem
  have hmono : ∀ l : List Nat, (l.countP fun n => decide (e.theSequenceNum + 1 ≤ n)) ≤
      l.countP fun n => decide (s ≤ n) := by
    intro l
    apply List.countP_mono_left
    intro n _ hn
    simp only [decide_eq_true_eq] at hn ⊢
    omega
  have hbefore := hmono before
  have hafter := hmono after
  rw [remaining, remaining, hsplit, List.countP_append, List.countP_append,
    List.countP_cons_of_neg (by simp), List.countP_cons_of_pos (by simpa using hs)]
  omega

/-- An entry outside the bucket stays outside, whatever the loop does. -/
theorem scanDependants_outside (hkey : U.thePaddr_aligned ≠ kUnresolved) {l : Nat} {c : CoreImpl}
    (hout : ∀ e ∈ c.theMemQueue.entries, e.theSequenceNum = l →
      e.thePaddr_aligned ≠ U.thePaddr_aligned) (fuel : Nat) (cached : SnoopState)
    (iter : Option MemQueueEntry) :
    ∀ e ∈ (scanDependants S U fuel c cached iter).1.theMemQueue.entries,
      e.theSequenceNum = l → e.thePaddr_aligned ≠ U.thePaddr_aligned := by
  intro e' he' hseq' hbucket'
  obtain ⟨e, he, hsame⟩ := (scanDependants_sameAccess fuel c cached iter).exists_of_mem_right he'
  exact hout e he (hsame.seq ▸ hseq') (hsame.of_bucket hkey hbucket').1

/-- Running the loop from `s` on reaches the load `l` unless it leaves the bucket
    first, provided no entry before it ends the loop. -/
theorem scanDependants_reaches (hkey : U.thePaddr_aligned ≠ kUnresolved) {l : Nat} (fuel : Nat)
    (c : CoreImpl) (cached : SnoopState) {s : Nat} (hs : s ≤ l)
    (hfuel : remaining c.theMemQueue s ≤ fuel)
    (hload : ∀ e ∈ c.theMemQueue.entries, e.theSequenceNum = l →
      e.thePaddr_aligned = U.thePaddr_aligned → e.isLoad = true ∧ intersects U e = true)
    (hclear : ∀ e ∈ c.theMemQueue.entries, e.thePaddr_aligned = U.thePaddr_aligned →
      s ≤ e.theSequenceNum → e.theSequenceNum < l → e.isLiveStore = true → e.isLoad = false →
      intersects U e = false) :
    (∃ v ∈ (scanDependants S U fuel c cached
        (c.theMemQueue.lowerBound U.thePaddr_aligned s)).2, v.load = l) ∨
      ∀ e ∈ (scanDependants S U fuel c cached
        (c.theMemQueue.lowerBound U.thePaddr_aligned s)).1.theMemQueue.entries,
        e.theSequenceNum = l → e.thePaddr_aligned ≠ U.thePaddr_aligned := by
  induction fuel generalizing c cached s with
  | zero =>
    refine .inr (scanDependants_outside hkey ?_ _ _ _)
    intro e he hseq
    have hlt := remaining_lt he (hseq ▸ hs)
    omega
  | succ fuel ih =>
    cases hiter : c.theMemQueue.lowerBound U.thePaddr_aligned s with
    | none =>
      refine .inr (scanDependants_outside hkey ?_ _ _ _)
      intro e he hseq hbucket
      have hlt := lowerBound_eq_none hiter he hbucket
      omega
    | some entry =>
      obtain ⟨hentry, hbucket, hle, hmin⟩ := lowerBound_eq_some hiter
      have hless := remaining_lt hentry hle
      by_cases hpast : l < entry.theSequenceNum
      · refine .inr (scanDependants_outside hkey ?_ _ _ _)
        intro e he hseq hebucket
        have hfirst := hmin e he hebucket (hseq ▸ hs)
        omega
      rw [scanDependants]
      dsimp only
      split
      case isTrue hvisit =>
        by_cases hhere : entry.theSequenceNum = l
        · exact .inl ⟨_, List.mem_cons_self, hhere⟩
        have hsame := doLoad_sameAccess S c entry.theSequenceNum cached
        rw [lowerBound_again hsame hkey]
        have hrest := ih (doLoad S c entry.theSequenceNum cached).1
          (doLoad S c entry.theSequenceNum cached).2 (s := entry.theSequenceNum + 1) (by omega)
          (by rw [remaining_related hsame]; omega) ?_ ?_
        · obtain ⟨v, hv, hvl⟩ | hleft := hrest
          · exact .inl ⟨v, List.mem_cons_of_mem _ hv, hvl⟩
          · exact .inr hleft
        · intro e' he' hseq' hbucket'
          obtain ⟨e, he, hee⟩ := hsame.exists_of_mem_right he'
          obtain ⟨hb, hp⟩ := hee.of_bucket hkey hbucket'
          rw [hee.isLoad_eq, hee.intersects_eq hp (hbucket'.trans hb.symm)]
          exact hload e he (hee.seq ▸ hseq') hb
        · intro e' he' hbucket' hle' hlt' hlive' hplain'
          obtain ⟨e, he, hee⟩ := hsame.exists_of_mem_right he'
          obtain ⟨hb, hp⟩ := hee.of_bucket hkey hbucket'
          rw [hee.seq] at hle' hlt'
          rw [hee.intersects_eq hp (hbucket'.trans hb.symm)]
          exact hclear e he hb (by omega) hlt' (hee.isLiveStore_eq ▸ hlive')
            (hee.isLoad_eq ▸ hplain')
      case isFalse hpass =>
        have hne : entry.theSequenceNum ≠ l := by
          intro hhere
          obtain ⟨hl, hi⟩ := hload entry hentry hhere hbucket
          exact hpass (by simp [hl, hi])
        split
        case isTrue hstop =>
          simp only [Bool.and_eq_true] at hstop
          obtain ⟨⟨hstore, hlive⟩, hinter⟩ := hstop
          have hplain : entry.isLoad = false := by simpa [hinter] using hpass
          have := hclear entry hentry hbucket hle (by omega)
            (by simp [MemQueueEntry.isLiveStore, hstore, hlive]) hplain
          simp [hinter] at this
        case isFalse hgo =>
          exact ih c cached (s := entry.theSequenceNum + 1) (by omega) (by omega) hload
            (fun e he hb hle' => hclear e he hb (by omega))

/-- Every visited entry was, when the loop started from `c`, a load of the bucket
    from the iterator on that intersects the store. -/
theorem scanDependants_visits (hkey : U.thePaddr_aligned ≠ kUnresolved) (fuel : Nat) (c : CoreImpl)
    (cached : SnoopState) (s : Nat) {v : Visit}
    (hv : v ∈ (scanDependants S U fuel c cached
      (c.theMemQueue.lowerBound U.thePaddr_aligned s)).2) :
    Related SameAccess c v.before ∧ ∃ e ∈ c.theMemQueue.entries, e.theSequenceNum = v.load ∧
      s ≤ e.theSequenceNum ∧ e.thePaddr_aligned = U.thePaddr_aligned ∧ e.isLoad = true ∧
      intersects U e = true := by
  induction fuel generalizing c cached s with
  | zero => simp [scanDependants] at hv
  | succ fuel ih =>
    cases hiter : c.theMemQueue.lowerBound U.thePaddr_aligned s with
    | none => simp [hiter, scanDependants] at hv
    | some entry =>
      obtain ⟨hentry, hbucket, hle, -⟩ := lowerBound_eq_some hiter
      rw [hiter, scanDependants] at hv
      dsimp only at hv
      split at hv
      case isTrue hvisit =>
        have hsame := doLoad_sameAccess S c entry.theSequenceNum cached
        rw [lowerBound_again hsame hkey, List.mem_cons] at hv
        obtain rfl | hv := hv
        · simp only [Bool.and_eq_true] at hvisit
          exact ⟨.refl SameAccess.refl c, entry, hentry, rfl, hle, hbucket, hvisit⟩
        · obtain ⟨hbefore, e', he', hseq', hle', hb', hl', hi'⟩ := ih _ _ _ hv
          obtain ⟨e, he, hee⟩ := hsame.exists_of_mem_right he'
          obtain ⟨hb, hp⟩ := hee.of_bucket hkey hb'
          refine ⟨hsame.trans @SameAccess.trans hbefore, e, he, ?_, ?_, hb, ?_, ?_⟩
          · rw [← hseq', hee.seq]
          · rw [hee.seq] at hle'
            omega
          · rw [← hee.isLoad_eq, hl']
          · rw [← hee.intersects_eq hp (hb'.trans hb.symm), hi']
      case isFalse =>
        split at hv
        case isTrue => simp at hv
        case isFalse =>
          obtain ⟨hbefore, e, he, hseq, hle', hrest⟩ := ih _ _ _ hv
          exact ⟨hbefore, e, he, hseq, by omega, hrest⟩

/-- Nothing moves in still surroundings. -/
def SamePlace (e e' : MemQueueEntry) : Prop :=
  SameAccess e e' ∧ e'.thePaddr = e.thePaddr ∧ e'.thePaddr_aligned = e.thePaddr_aligned

theorem SamePlace.refl (e : MemQueueEntry) : SamePlace e e :=
  ⟨.refl e, rfl, rfl⟩

theorem SamePlace.trans (x y z : MemQueueEntry) (hxy : SamePlace x y) (hyz : SamePlace y z) :
    SamePlace x z :=
  ⟨hxy.1.trans hyz.1, hyz.2.1.trans hxy.2.1, hyz.2.2.trans hxy.2.2⟩

theorem doLoad_still (c : CoreImpl) (s : Nat) (cached : SnoopState) :
    Related SamePlace c (doLoad .still c s cached).1 := by
  have hresults : ∀ e e', OnlyResults e e' → SamePlace e e' := by
    intro e e' h
    refine ⟨h.sameAccess, ?_⟩
    rw [OnlyResults] at h
    rw [h]
    exact ⟨rfl, rfl⟩
  exact doLoad_related SamePlace.refl SamePlace.trans
    (fun e e' h => hresults e e' h.onlyResults) (fun e e' _ h => hresults e e' h)
    (fun c => .refl SamePlace.refl c) (fun c => .refl SamePlace.refl c) c cached

/-- In still surroundings the loop never gets past a plain store that overlaps
    the updated one. -/
theorem scanDependants_stops (hkey : U.thePaddr_aligned ≠ kUnresolved) (fuel : Nat) (c : CoreImpl)
    (cached : SnoopState) {s : Nat} {V : MemQueueEntry} (hV : V ∈ c.theMemQueue.entries)
    (hbucket : V.thePaddr_aligned = U.thePaddr_aligned) (hs : s ≤ V.theSequenceNum)
    (hlive : V.isLiveStore = true) (hplain : V.isLoad = false) (hinter : intersects U V = true) :
    ∀ v ∈ (scanDependants .still U fuel c cached
      (c.theMemQueue.lowerBound U.thePaddr_aligned s)).2, v.load < V.theSequenceNum := by
  induction fuel generalizing c cached s V with
  | zero => simp [scanDependants]
  | succ fuel ih =>
    intro v hv
    cases hiter : c.theMemQueue.lowerBound U.thePaddr_aligned s with
    | none => simp [hiter, scanDependants] at hv
    | some entry =>
      obtain ⟨hentry, -, -, hmin⟩ := lowerBound_eq_some hiter
      have hle := hmin V hV hbucket hs
      rw [hiter, scanDependants] at hv
      dsimp only at hv
      by_cases hat : entry = V
      · subst hat
        rw [MemQueueEntry.isLiveStore] at hlive
        simp [hplain, hlive, hinter] at hv
      have hbefore : entry.theSequenceNum < V.theSequenceNum := by
        refine lt_of_le_of_ne hle ?_
        exact fun heq => hat (memq_t.eq_of_seq hentry hV heq)
      split at hv
      case isTrue hvisit =>
        have hsame := doLoad_sameAccess .still c entry.theSequenceNum cached
        rw [lowerBound_again hsame hkey, List.mem_cons] at hv
        obtain rfl | hv := hv
        · exact hbefore
        · obtain ⟨V', hV', hVV, hp, ha⟩ :=
            (doLoad_still c entry.theSequenceNum cached).exists_of_mem hV
          rw [← hVV.seq]
          refine ih _ _ hV' (ha.trans hbucket) ?_ (hVV.isLiveStore_eq.trans hlive)
            (hVV.isLoad_eq.trans hplain) ((hVV.intersects_eq hp ha U).trans hinter) v hv
          rw [hVV.seq]
          omega
      case isFalse =>
        split at hv
        case isTrue => simp at hv
        case isFalse => exact ih c cached hV hbucket (by omega) hlive hplain hinter v hv

end Scan

theorem key_ne_unresolved {q : memq_t} {U : MemQueueEntry} (hU : U ∈ q.entries)
    (hresolved : U.thePaddr ≠ kUnresolved) : U.thePaddr_aligned ≠ kUnresolved := by
  intro hkey
  have hbase := (q.aligned U hU hresolved).toNat_eq
  rw [hkey] at hbase
  have hall : kUnresolved.toNat = 2 ^ 64 - 1 := rfl
  omega

/-- `updateDependantLoads` of a resolved store is its loop from just after the store. -/
theorem updateDependantLoads_eq {c : CoreImpl} {U : MemQueueEntry} (S : Surroundings)
    (hU : U ∈ c.theMemQueue.entries) (hresolved : U.thePaddr ≠ kUnresolved ∧ U.thePaddr ≠ kInvalid) :
    updateDependantLoads S c U.theSequenceNum =
      scanDependants S U c.theMemQueue.entries.length c none
        (c.theMemQueue.lowerBound U.thePaddr_aligned (U.theSequenceNum + 1)) := by
  have hfind : c.theMemQueue.find U.theSequenceNum = some U :=
    memq_t.find_eq_some.mpr ⟨hU, rfl⟩
  rw [updateDependantLoads, hfind]
  simp [hresolved.1, hresolved.2]

/-- `updateDependantLoads` re-snoops every load that depends on the store,
    whatever the dependants of the loads do in between, exactly when no plain
    store that overlaps the updated one lies between it and such a load, and
    none of the accesses leaves its window. -/
theorem updateDependantLoads_resnoops_iff (c : CoreImpl) (U : MemQueueEntry)
    (hU : U ∈ c.theMemQueue.entries)
    (hresolved : U.thePaddr ≠ kUnresolved ∧ U.thePaddr ≠ kInvalid) :
    (∀ S, Resnooped S c U) ↔ NoMaskingStore c.theMemQueue U := by
  have hkey := key_ne_unresolved hU hresolved.1
  have hUaligned := c.theMemQueue.aligned U hU hresolved.1
  constructor
  · intro hall L hL
    have hstill := hall .still L hL
    rw [updateDependantLoads_eq .still hU hresolved] at hstill
    -- In still surroundings the load is still in the bucket, so it was visited.
    obtain ⟨v, hv, hvl⟩ | hgone := hstill
    case inr =>
      obtain ⟨L', hL', hsame⟩ := (scanDependants_related (U := U) (n := 0) SamePlace.refl
        SamePlace.trans (fun c s cached _ => doLoad_still c s cached) _ c _
        (fun _ _ => Nat.zero_le _)).exists_of_mem hL.mem
      exact absurd (hsame.2.2.trans hL.bucket) (hgone L' hL' hsame.1.seq)
    obtain ⟨-, e, he, hseq, -, hbucket, -, hinter⟩ := scanDependants_visits hkey _ c _ _ hv
    have heL : e = L := memq_t.eq_of_seq he hL.mem (hseq.trans hvl)
    subst heL
    have hLaligned := c.theMemQueue.aligned e he hL.resolved
    obtain ⟨hUwin, hLwin⟩ := inWindow_of_intersects hUaligned hLaligned hinter
    refine ⟨hUwin, hLwin, ?_⟩
    intro V hV hVbucket hVyounger hVolder hVlive hVplain
    by_contra hoverlap
    have hstops := scanDependants_stops hkey _ c none hV hVbucket (by omega) hVlive hVplain
      (by simpa using hoverlap) v hv
    omega
  · intro hcond S L hL
    obtain ⟨hUwin, hLwin, hclear⟩ := hcond L hL
    obtain ⟨a, hUa, hLa, -⟩ := hL.byte
    have hinter : intersects U L = true :=
      (intersects_iff_touches hL.bucket.symm hUwin hLwin).mpr ⟨a, hUa, hLa⟩
    rw [updateDependantLoads_eq S hU hresolved]
    refine scanDependants_reaches hkey _ c none (by have := hL.younger; omega) ?_ ?_ ?_
    · refine List.countP_le_length.trans ?_
      rw [List.length_map]
    · intro e he hseq hbucket
      obtain rfl := memq_t.eq_of_seq he hL.mem hseq
      exact ⟨hL.load, hinter⟩
    · intro e he hbucket hle hlt hlive hplain
      exact hclear e he hbucket (by omega) hlt hlive hplain

/-- A double word store followed by a load of its first word. -/
def storeThenLoad : CoreImpl where
  theMemQueue := {
    entries := [
      { (MemQueueEntry.create 1 .kStore .kDoubleWord false).setPaddr 0x1000#64 with
        theValue := some 7#128 },
      (MemQueueEntry.create 2 .kLoad .kWord true).setPaddr 0x1000#64]
    ordered := by decide
    aligned := by decide
    native := by decide }
  thePartialSnoopersOutstanding := 0
  thePartialSnoopLoads := 0
  theSpeculativeOrder := false

theorem noMaskingStore_storeThenLoad :
    NoMaskingStore storeThenLoad.theMemQueue
      { (MemQueueEntry.create 1 .kStore .kDoubleWord false).setPaddr 0x1000#64 with
        theValue := some 7#128 } := by
  intro L hL
  have hmem := hL.mem
  have hyounger := hL.younger
  simp only [storeThenLoad, List.mem_cons, List.not_mem_nil, or_false] at hmem
  obtain rfl | rfl := hmem
  · exact absurd hyounger (by decide)
  · refine ⟨by decide, by decide, ?_⟩
    intro V hV _ hafter hbefore
    simp only [storeThenLoad, List.mem_cons, List.not_mem_nil, or_false] at hV
    obtain rfl | rfl := hV
    · exact absurd hafter (by decide)
    · exact absurd hbefore (by decide)

theorem updateDependantLoads_resnoops_storeThenLoad :
    NoMaskingStore storeThenLoad.theMemQueue
      { (MemQueueEntry.create 1 .kStore .kDoubleWord false).setPaddr 0x1000#64 with
        theValue := some 7#128 } ∧
    ∀ S, Resnooped S storeThenLoad
      { (MemQueueEntry.create 1 .kStore .kDoubleWord false).setPaddr 0x1000#64 with
        theValue := some 7#128 } := by
  refine ⟨noMaskingStore_storeThenLoad, ?_⟩
  exact (updateDependantLoads_resnoops_iff storeThenLoad _ (by decide) (by decide)).mpr
    noMaskingStore_storeThenLoad

/-- A double word store, a store to its first word, and a load of its second word. -/
def maskedLoad : CoreImpl where
  theMemQueue := {
    entries := [
      (MemQueueEntry.create 1 .kStore .kDoubleWord false).setPaddr 0x1000#64,
      (MemQueueEntry.create 2 .kStore .kWord false).setPaddr 0x1000#64,
      (MemQueueEntry.create 3 .kLoad .kWord true).setPaddr 0x1004#64]
    ordered := by decide
    aligned := by decide
    native := by decide }
  thePartialSnoopersOutstanding := 0
  thePartialSnoopLoads := 0
  theSpeculativeOrder := false

/-- The loop ends at the store to the first word although the load takes all its
    bytes from the updated store. -/
theorem updateDependantLoads_misses_maskedLoad :
    ¬ ∀ (S : Surroundings) (c : CoreImpl) (U : MemQueueEntry), U ∈ c.theMemQueue.entries →
      U.thePaddr ≠ kUnresolved ∧ U.thePaddr ≠ kInvalid → Resnooped S c U := by
  intro hall
  have hres := hall .still maskedLoad
    ((MemQueueEntry.create 1 .kStore .kDoubleWord false).setPaddr 0x1000#64) (by decide) (by decide)
    ((MemQueueEntry.create 3 .kLoad .kWord true).setPaddr 0x1004#64)
    ⟨by decide, by decide, by decide, by decide, by decide, by decide, 0x1004#64, by decide,
      by decide, by decide⟩
  revert hres
  decide

end nuArchARM
