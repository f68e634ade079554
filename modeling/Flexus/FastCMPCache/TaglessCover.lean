import Flexus.FastCMPCache.TaglessDirectory

/-!
# What the tagless directory forgets

Every run keeps the bits of the blocks that the caches hold, as long as each hash function stays
within its partition.
-/

namespace nFastCMPCache

open nCMPCache (MemoryMessageType)

namespace TaglessSystem

open TaglessDirectory

variable {n : Nat} {d : TaglessSizes} {s s' : TaglessSystem n} {dir dir' : TaglessDirectory n}
  {index i : Fin n} {address addr ref : Nat} {entry : TaglessLookupResult n} {tags : List Nat}

/-- The exact entries belong to their blocks, their sharers hold the block, and the buckets
    of a block have the bits of all caches that hold it. -/
structure Covered (d : TaglessSizes) (s : TaglessSystem n) : Prop where
  known : ∀ addr ref, trueStateOf d s.dir addr = some ref →
    (s.dir.theEntries ref).theAddress = addr ∧ ref < s.dir.created
  recorded : ∀ addr ref i, trueStateOf d s.dir addr = some ref →
    (s.dir.theEntries ref).theSharers.isSharer i = true → addr ∈ s.held i
  bits : ∀ i addr, addr ∈ s.held i → ∀ q ∈ d.bucketsOf addr, s.dir.bit i q = true

theorem trueStateOf_congr (h : ∀ q, dir'.precise q addr = dir.precise q addr) :
    trueStateOf d dir' addr = trueStateOf d dir addr := by
  unfold trueStateOf
  split
  · rfl
  · exact h _

/-- One exact entry changes, no bucket learns or forgets a block, and the buckets keep the
    bits of the blocks that are held afterwards. -/
theorem Covered.change (h : s.Covered d) (hcurrent : trueStateOf d s.dir address = some ref)
    {f : BlockDirectoryEntry n → BlockDirectoryEntry n} {held : Fin n → List Nat}
    (hprecise : ∀ q a, dir.precise q a = s.dir.precise q a)
    (hstates : SameStates (s.dir.modifyEntry ref f) dir) (haddress : ∀ e, (f e).theAddress = e.theAddress)
    (hothers : ∀ i a, a ≠ address → a ∈ s.held i → a ∈ held i)
    (hself : ∀ i, (f (s.dir.theEntries ref)).theSharers.isSharer i = true → address ∈ held i)
    (hbits : ∀ i a, a ∈ held i → ∀ q ∈ d.bucketsOf a, dir.bit i q = true) :
    ({ dir := dir, held := held } : TaglessSystem n).Covered d := by
  have hentries : dir.theEntries = Function.update s.dir.theEntries ref (f (s.dir.theEntries ref)) :=
    hstates.entries
  have hcreated : dir.created = s.dir.created := hstates.created
  have htrue : ∀ a, trueStateOf d dir a = trueStateOf d s.dir a := fun a =>
    trueStateOf_congr fun q => hprecise q a
  have howner : ∀ a r, trueStateOf d s.dir a = some r → r = ref → a = address := by
    rintro a r ha rfl
    rw [← (h.known a r ha).1, (h.known address r hcurrent).1]
  refine ⟨fun a r ha => ?_, fun a r i ha hsharer => ?_, hbits⟩
  · rw [htrue] at ha
    obtain ⟨hold, hlt⟩ := h.known a r ha
    refine ⟨?_, hcreated ▸ hlt⟩
    rw [hentries]
    rcases eq_or_ne r ref with rfl | hne
    · rw [Function.update_self, haddress, hold]
    · rw [Function.update_of_ne hne, hold]
  · rw [htrue] at ha
    change (dir.theEntries r).theSharers.isSharer i = true at hsharer
    rw [hentries] at hsharer
    rcases eq_or_ne r ref with rfl | hne
    · rw [Function.update_self] at hsharer
      rw [howner a r ha rfl]
      exact hself i hsharer
    · rw [Function.update_of_ne hne] at hsharer
      have hdiff : a ≠ address := by
        rintro rfl
        exact hne (Option.some.inj (ha.symm.trans hcurrent))
      exact hothers i a hdiff (h.recorded a r i ha hsharer)

/-- Clearing the bits that are not needed spares all blocks the cache still holds. -/
theorem bit_clear (hnarrow : d.Narrow) (hpos : 0 < d.theNumBuckets)
    (hentry : entry.theBuckets = d.bucketsOf address) (hexact : Exact d s index address tags)
    {q : Nat × Nat} (hbit : dir.bit i q = true) (hheld : addr ∈ s.held i) (hq : q ∈ d.bucketsOf addr)
    (hne : i = index → addr ≠ address) :
    (dir.clearUnneeded d index entry address tags).bit i q = true := by
  refine bit_clearUnneeded hbit fun hi x hx hplace => ?_
  rw [hentry] at hx
  obtain ⟨hslot, hx2⟩ := TaglessSizes.mem_zip_bucketsOf hx
  obtain ⟨slot', hslot', hq'⟩ := TaglessSizes.mem_bucketsOf.mp hq
  have hsame : (d.get_set address, d.bucketIndex address x.1) =
      (d.get_set addr, d.bucketIndex addr slot') := by rw [← hx2, hplace, hq']
  obtain ⟨hset, hindex⟩ := Prod.mk.inj hsame
  have hother := hne hi
  have htag : addr ∈ tags := hexact.2 addr (hi ▸ hheld) hset.symm hother
  exact TaglessSizes.needed_of_shared hnarrow hpos hother htag hslot hslot' hindex.symm

theorem mem_lose (dir : TaglessDirectory n) : addr ∈ (s.lose index address dir).held i ↔
    addr ∈ s.held i ∧ (i = index → addr ≠ address) := by
  unfold lose
  rcases eq_or_ne i index with rfl | hne
  · simp
  · simp [hne]

theorem mem_gain (dir : TaglessDirectory n) : addr ∈ (s.gain index address dir).held i ↔
    addr ∈ s.held i ∨ (i = index ∧ addr = address) := by
  unfold gain
  rcases eq_or_ne i index with rfl | hne
  · simp [or_comm]
  · simp [hne]

/-- A cache leaves the sharers of a block: its bits that other blocks need stay. -/
theorem Covered.removeSharer (h : s.Covered d) (hnarrow : d.Narrow) (hpos : 0 < d.theNumBuckets)
    (hcurrent : Current d s.dir entry address) (hexact : Exact d s index address tags) :
    (s.lose index address (s.dir.removeSharer d index entry address tags)).Covered d := by
  have hbits : ∀ i a, (a ∈ s.held i ∧ (i = index → a ≠ address)) → ∀ q ∈ d.bucketsOf a,
      (s.dir.removeSharer d index entry address tags).bit i q = true := by
    rintro i a ⟨hheld, hne⟩ q hq
    have hbit := h.bits i a hheld q hq
    unfold TaglessDirectory.removeSharer
    split
    · exact bit_clear hnarrow hpos hcurrent.1 hexact (by simpa using hbit) hheld hq hne
    · exact hbit
  refine h.change (f := (·.removeSharer index)) hcurrent.2 (fun q a => ?_) ?_ (fun _ => rfl)
    (fun i a hne ha => (mem_lose s.dir).mpr ⟨ha, fun _ => hne⟩) (fun i hi => ?_)
    fun i a ha => hbits i a ((mem_lose s.dir).mp ha)
  · unfold TaglessDirectory.removeSharer
    split <;> simp
  · unfold TaglessDirectory.removeSharer
    split
    · exact sameStates_clearUnneeded
    · exact .refl _
  · have hsharer : i ≠ index ∧ (s.dir.theEntries entry.theTrueState).theSharers.isSharer i = true := by
      simpa [BlockDirectoryEntry.removeSharer] using hi
    exact (mem_lose s.dir).mpr
      ⟨h.recorded address _ i hcurrent.2 hsharer.2, fun heq => absurd heq hsharer.1⟩

theorem Covered.addSharer (h : s.Covered d) (hcurrent : Current d s.dir entry address) :
    (s.gain index address (s.dir.addSharer index entry)).Covered d := by
  refine h.change (f := (·.addSharer index)) hcurrent.2 (fun q a => ?_) ?_ (fun _ => rfl)
    (fun i a _ ha => (mem_gain s.dir).mpr (.inl ha)) (fun i hi => ?_) (fun i a ha q hq => ?_)
  · unfold TaglessDirectory.addSharer
    rw [precise_modifyEntry]
    exact foldl_keeps (fun dir => dir.precise q a) (fun _ _ _ => precise_modifySharers) s.dir
  · have hsame : SameStates s.dir (entry.theBuckets.foldl (modifySharers (·.addSharer index)) s.dir) :=
      SameStates.foldl sameStates_modifySharers _ _
    refine ⟨?_, hsame.created⟩
    unfold TaglessDirectory.addSharer modifyEntry
    rw [hsame.entries]
  · have hsharer : i = index ∨ (s.dir.theEntries entry.theTrueState).theSharers.isSharer i = true := by
      simpa [BlockDirectoryEntry.addSharer] using hi
    refine (mem_gain s.dir).mpr ?_
    rcases hsharer with heq | hold
    · exact .inr ⟨heq, rfl⟩
    · exact .inl (h.recorded address _ i hcurrent.2 hold)
  · unfold TaglessDirectory.addSharer
    rw [bit_modifyEntry, bit_foldl_addSharer, Bool.or_eq_true]
    rcases (mem_gain s.dir).mp ha with hold | ⟨rfl, rfl⟩
    · exact .inr (h.bits i a hold q hq)
    · rw [hcurrent.1]
      exact .inl (decide_eq_true ⟨hq, rfl⟩)

theorem current_addSharer : Current d (dir.addSharer index entry) entry address ↔ Current d dir entry address := by
  have hprecise : ∀ q, (dir.addSharer index entry).precise q address = dir.precise q address := by
    intro q
    unfold TaglessDirectory.addSharer
    rw [precise_modifyEntry]
    exact foldl_keeps (fun dir => dir.precise q address) (fun _ _ _ => precise_modifySharers) dir
  unfold Current
  rw [trueStateOf_congr hprecise]

theorem Covered.makeSharerExclusive (h : s.Covered d) (hcurrent : Current d s.dir entry address)
    (hok : s.dir.makeSharerExclusive index entry = some dir) :
    ({ s with dir := dir } : TaglessSystem n).Covered d := by
  obtain ⟨e, he, rfl⟩ := Option.map_eq_some_iff.mp hok
  have hsame : e = { s.dir.theEntries entry.theTrueState with theState := .OneSharer } := by
    unfold BlockDirectoryEntry.makeExclusive at he
    split at he
    · exact (Option.some.inj he).symm
    · cases he
  subst hsame
  exact h.change (f := fun e => { e with theState := .OneSharer }) hcurrent.2 (fun _ _ => rfl) (.refl _)
    (fun _ => rfl) (fun _ _ _ ha => ha) (fun i hi => h.recorded address _ i hcurrent.2 hi) h.bits

theorem Covered.addExclusiveSharer (h : s.Covered d) (hcurrent : Current d s.dir entry address)
    (hok : s.dir.addExclusiveSharer index entry = some dir) : (s.gain index address dir).Covered d :=
  (h.addSharer hcurrent).makeSharerExclusive (current_addSharer.mpr hcurrent) hok

/-- The buckets may forget blocks, and lose bits that no block needs. -/
theorem Covered.forget (h : s.Covered d) (hsame : SameStates s.dir dir)
    (htrue : ∀ a r, trueStateOf d dir a = some r → trueStateOf d s.dir a = some r)
    (hbits : ∀ i a, a ∈ s.held i → ∀ q ∈ d.bucketsOf a, dir.bit i q = true) :
    ({ s with dir := dir } : TaglessSystem n).Covered d := by
  refine ⟨fun a r ha => ?_, fun a r i ha hi => ?_, hbits⟩
  · change (dir.theEntries r).theAddress = a ∧ r < dir.created
    rw [hsame.entries, hsame.created]
    exact h.known a r (htrue a r ha)
  · change (dir.theEntries r).theSharers.isSharer i = true at hi
    rw [hsame.entries] at hi
    exact h.recorded a r i (htrue a r ha) hi

theorem precise_erase {places : List (Nat × Nat)} {q : Nat × Nat}
    (h : (places.foldl (modifyPrecise address fun _ => none) dir).precise q addr = some ref) :
    dir.precise q addr = some ref := by
  induction places generalizing dir with
  | nil => exact h
  | cons p places ih =>
    have hone := ih h
    rw [precise_modifyPrecise] at hone
    split at hone
    · cases hone
    · exact hone

theorem Covered.erase (h : s.Covered d) (places : List (Nat × Nat)) :
    ({ s with dir := places.foldl (modifyPrecise address fun _ => none) s.dir } : TaglessSystem n).Covered d := by
  refine h.forget (SameStates.foldl sameStates_modifyPrecise _ _) (fun a r ha => ?_) fun i a ha q hq => ?_
  · unfold trueStateOf at ha ⊢
    cases hplaces : d.bucketsOf a with
    | nil =>
      rw [hplaces] at ha
      cases ha
    | cons first rest =>
      rw [hplaces] at ha
      exact precise_erase ha
  · rw [← h.bits i a ha q hq]
    exact foldl_keeps (fun dir => dir.bit i q) (fun _ _ _ => bit_modifyPrecise) s.dir

/-- Clearing the bits that a cache does not need after it lost the block. -/
theorem Covered.clearUnneeded (h : s.Covered d) (hnarrow : d.Narrow) (hpos : 0 < d.theNumBuckets)
    (hentry : entry.theBuckets = d.bucketsOf address) (hlost : address ∉ s.held index)
    (hexact : Exact d s index address tags) :
    ({ s with dir := s.dir.clearUnneeded d index entry address tags } : TaglessSystem n).Covered d := by
  refine h.forget sameStates_clearUnneeded (fun a r ha => ?_) fun i a ha q hq => ?_
  · rw [← ha]
    exact (trueStateOf_congr fun q => precise_clearUnneeded).symm
  · refine bit_clear hnarrow hpos hentry hexact (h.bits i a ha q hq) ha hq ?_
    rintro rfl rfl
    exact hlost ha

theorem Exact.lose (hexact : Exact d s index address tags) :
    Exact d (s.lose index address dir) index address tags := by
  refine ⟨fun tag htag => ?_, fun tag hheld => hexact.2 tag ((mem_lose dir).mp hheld).1⟩
  rcases hexact.1 tag htag with heq | ⟨hheld, hset⟩
  · exact .inl heq
  · by_cases heq : tag = address
    · exact .inl heq
    · exact .inr ⟨(mem_lose dir).mpr ⟨hheld, fun _ => heq⟩, hset⟩

theorem Covered.evict {request response : MemoryMessageType} (h : s.Covered d) (hnarrow : d.Narrow)
    (hpos : 0 < d.theNumBuckets) (hevict : request.isEvictType = true)
    (hcurrent : Current d s.dir entry address) (hexact : Exact d s index address tags)
    (hok : s.dir.processRequestResponse d index request response entry address tags = some dir) :
    (s.lose index address dir).Covered d := by
  have hbase : (operations d n tags).processRequestResponse index request response entry address s.dir =
      some (s.dir.removeSharer d index entry address tags) := by
    unfold SharerOperations.processRequestResponse
    cases request <;> first | rfl | cases hevict
  obtain ⟨removed, hremoved, rfl⟩ := Option.map_eq_some_iff.mp hok
  rw [hbase] at hremoved
  obtain rfl := Option.some.inj hremoved
  have hlost := h.removeSharer hnarrow hpos hcurrent hexact
  have hgone : ∀ dir, address ∉ (s.lose index address dir).held index := fun dir hmem =>
    ((mem_lose dir).mp hmem).2 rfl rfl
  rw [if_pos hevict]
  dsimp only
  split
  · exact (hlost.erase entry.theBuckets).clearUnneeded hnarrow hpos hcurrent.1 (hgone _) hexact.lose
  · exact hlost.clearUnneeded hnarrow hpos hcurrent.1 (hgone _) hexact.lose

theorem precise_createEntry {places : List (Nat × Nat)} {q : Nat × Nat} :
    (dir.createEntry address places).precise q addr =
      if q ∈ places ∧ addr = address then (dir.precise q addr).or (some dir.created) else dir.precise q addr := by
  have hfold : ∀ (dir' : TaglessDirectory n),
      (places.foldl (modifyPrecise address fun known => known.or (some dir.created)) dir').precise q addr =
        if q ∈ places ∧ addr = address then (dir'.precise q addr).or (some dir.created)
        else dir'.precise q addr := by
    induction places with
    | nil => simp
    | cons p places ih =>
      intro dir'
      rw [List.foldl_cons, ih, precise_modifyPrecise]
      by_cases haddr : addr = address
      · subst haddr
        by_cases hq : q = p
        · subst hq
          simp
        · simp [hq]
      · simp [haddr]
  exact hfold _

/-- A new exact entry has no sharers. -/
theorem Covered.createEntry (h : s.Covered d) (hunknown : trueStateOf d s.dir address = none)
    (hbuckets : d.bucketsOf address ≠ []) :
    trueStateOf d (s.dir.createEntry address (d.bucketsOf address)) address = some s.dir.created ∧
      ({ s with dir := s.dir.createEntry address (d.bucketsOf address) } : TaglessSystem n).Covered d := by
  have hentries : (s.dir.createEntry address (d.bucketsOf address)).theEntries =
      Function.update s.dir.theEntries s.dir.created (.new address) :=
    (SameStates.foldl sameStates_modifyPrecise _ _).entries
  have hcreated : (s.dir.createEntry address (d.bucketsOf address)).created = s.dir.created + 1 :=
    (SameStates.foldl sameStates_modifyPrecise _ _).created
  have hother : ∀ a, a ≠ address →
      trueStateOf d (s.dir.createEntry address (d.bucketsOf address)) a = trueStateOf d s.dir a := by
    intro a hne
    refine trueStateOf_congr fun q => ?_
    rw [precise_createEntry, if_neg fun hand => hne hand.2]
  have hnew : trueStateOf d (s.dir.createEntry address (d.bucketsOf address)) address = some s.dir.created := by
    unfold trueStateOf at hunknown ⊢
    cases hplaces : d.bucketsOf address with
    | nil => exact absurd hplaces hbuckets
    | cons first rest =>
      rw [hplaces] at hunknown
      have hnone : s.dir.precise first address = none := hunknown
      change (s.dir.createEntry address (first :: rest)).precise first address = some s.dir.created
      rw [precise_createEntry, if_pos ⟨List.mem_cons_self, rfl⟩, hnone, Option.none_or]
  have hold : ∀ a r, a ≠ address →
      trueStateOf d (s.dir.createEntry address (d.bucketsOf address)) a = some r →
        trueStateOf d s.dir a = some r ∧ r ≠ s.dir.created := by
    intro a r hne ha
    rw [hother a hne] at ha
    exact ⟨ha, Nat.ne_of_lt (h.known a r ha).2⟩
  refine ⟨hnew, ⟨fun a r ha => ?_, fun a r i ha hi => ?_, fun i a ha q hq => ?_⟩⟩
  · change ((s.dir.createEntry address (d.bucketsOf address)).theEntries r).theAddress = a ∧
      r < (s.dir.createEntry address (d.bucketsOf address)).created
    rw [hentries, hcreated]
    by_cases heq : a = address
    · subst heq
      obtain rfl := Option.some.inj (hnew.symm.trans ha)
      rw [Function.update_self]
      exact ⟨rfl, Nat.lt_succ_self _⟩
    · obtain ⟨hbefore, hne⟩ := hold a r heq ha
      rw [Function.update_of_ne hne]
      exact ⟨(h.known a r hbefore).1, Nat.lt_succ_of_lt (h.known a r hbefore).2⟩
  · change ((s.dir.createEntry address (d.bucketsOf address)).theEntries r).theSharers.isSharer i = true at hi
    rw [hentries] at hi
    by_cases heq : a = address
    · subst heq
      obtain rfl := Option.some.inj (hnew.symm.trans ha)
      rw [Function.update_self] at hi
      cases hi
    · obtain ⟨hbefore, hne⟩ := hold a r heq ha
      rw [Function.update_of_ne hne] at hi
      exact h.recorded a r i hbefore hi
  · rw [← h.bits i a ha q hq]
    exact foldl_keeps (fun dir => dir.bit i q) (fun _ _ _ => bit_modifyPrecise) _

theorem isSharer_foldl_inter {e : BlockDirectoryEntry n} {places : List (Nat × Nat)}
    (he : e.theSharers.isSharer i = true) (hplaces : ∀ q ∈ places, dir.bit i q = true) :
    (places.foldl (fun e place => e.inter (dir.bucket place).theTaglessEntry) e).theSharers.isSharer i =
      true := by
  induction places generalizing e with
  | nil => exact he
  | cons p places ih =>
    refine ih ?_ fun q hq => hplaces q (List.mem_cons_of_mem _ hq)
    change (e.theSharers.inter (dir.bucket p).theTaglessEntry.theSharers).isSharer i = true
    rw [SharingVector.isSharer_inter, he, Bool.true_and]
    exact hplaces p List.mem_cons_self

/-- A lookup leaves the block with an exact entry, and returns the sharers that the buckets of
    the block have in common. -/
theorem Covered.lookup {found : TaglessDirectory n × SharingVector n × SharingState × TaglessLookupResult n}
    (h : s.Covered d) (hok : s.dir.lookup d address = some found) :
    ({ s with dir := found.1 } : TaglessSystem n).Covered d ∧
      trueStateOf d found.1 address = some found.2.2.2.theTrueState ∧
        ∀ i, (∀ q ∈ d.bucketsOf address, s.dir.bit i q = true) → found.2.1.isSharer i = true := by
  obtain ⟨⟨dir', block⟩, hfind, rfl⟩ := Option.map_eq_some_iff.mp hok
  unfold findOrCreateEntry at hfind
  split at hfind
  · split at hfind
    · cases hfind
    · next first rest hplaces =>
      have hcommon : ∀ i, (∀ q ∈ d.bucketsOf address, s.dir.bit i q = true) →
          (rest.foldl (fun e place => e.inter (s.dir.bucket place).theTaglessEntry)
            (s.dir.bucket first).theTaglessEntry).theSharers.isSharer i = true := by
        intro i hall
        rw [hplaces] at hall
        exact isSharer_foldl_inter (hall first List.mem_cons_self) fun q hq => hall q (List.mem_cons_of_mem _ hq)
      have htrue : trueStateOf d s.dir address = (s.dir.bucket first).thePreciseDirectory address := by
        unfold trueStateOf
        rw [hplaces]
      dsimp only at hfind
      split at hfind
      · next ref hknown =>
        obtain ⟨rfl, rfl⟩ := Prod.mk.inj (Option.some.inj hfind)
        exact ⟨h, htrue.trans hknown, hcommon⟩
      · next hunknown =>
        obtain ⟨rfl, rfl⟩ := Prod.mk.inj (Option.some.inj hfind)
        have hcreate := h.createEntry (htrue.trans hunknown) (by rw [hplaces]; exact List.cons_ne_nil _ _)
        rw [hplaces] at hcreate
        exact ⟨hcreate.2, hcreate.1, hcommon⟩
  · cases hfind

theorem Covered.step {e : TaglessEvent n} (h : s.Covered d) (hnarrow : d.Narrow) (hpos : 0 < d.theNumBuckets)
    (hmeets : Meets d s e) (hok : step d s e = .ok s') : s'.Covered d := by
  cases e with
  | lookup address =>
    simp only [TaglessSystem.step] at hok
    split at hok
    · next found hfound =>
      obtain rfl := Except.ok.inj hok
      exact (h.lookup hfound).1
    · cases hok
  | addSharer index entry address =>
    obtain rfl := Except.ok.inj hok
    exact h.addSharer hmeets
  | addExclusiveSharer index entry address =>
    simp only [TaglessSystem.step] at hok
    split at hok
    · next dir hdir =>
      obtain rfl := Except.ok.inj hok
      exact h.addExclusiveSharer hmeets hdir
    · cases hok
  | makeSharerExclusive index entry address =>
    simp only [TaglessSystem.step] at hok
    split at hok
    · next dir hdir =>
      obtain rfl := Except.ok.inj hok
      exact h.makeSharerExclusive hmeets hdir
    · cases hok
  | failedSnoop index entry address tags =>
    obtain rfl := Except.ok.inj hok
    exact h.removeSharer hnarrow hpos hmeets.1 hmeets.2
  | removeSharer index entry address tags =>
    obtain rfl := Except.ok.inj hok
    exact h.removeSharer hnarrow hpos hmeets.1 hmeets.2
  | evict index request response entry address tags =>
    simp only [TaglessSystem.step] at hok
    split at hok
    · next dir hdir =>
      obtain rfl := Except.ok.inj hok
      exact h.evict hnarrow hpos hmeets.1 hmeets.2.1 hmeets.2.2 hdir
    · cases hok

theorem covered_start : (start : TaglessSystem n).Covered d := by
  have hnone : ∀ a, trueStateOf d (TaglessDirectory.create : TaglessDirectory n) a = none := by
    intro a
    unfold trueStateOf
    split <;> rfl
  refine ⟨fun a r ha => ?_, fun a r i ha _ => ?_, fun i a ha => absurd ha List.not_mem_nil⟩
  · cases (hnone a).symm.trans ha
  · cases (hnone a).symm.trans ha

theorem Covered.overapproximates (h : s.Covered d) : Overapproximates d s.dir := by
  intro address found hfound i hsharer
  obtain ⟨hafter, htrue, hcommon⟩ := h.lookup hfound
  exact hcommon i (h.bits i address (hafter.recorded address _ i htrue hsharer))

theorem covered_of_reachable (hnarrow : d.Narrow) (hpos : 0 < d.theNumBuckets) (h : Reachable d s) :
    s.Covered d :=
  h.invariant covered_start fun _ _ _ hcovered hmeets hok => hcovered.step hnarrow hpos hmeets hok

end TaglessSystem

namespace TaglessConfig

open TaglessSystem Runs

variable {c : TaglessConfig}

/-- The directory of an accepted configuration is sound exactly when its policies keep to the
    partitions, and no prime is looked for past the end of the table. -/
theorem sound_iff_confined (haccepted : c.init ≠ .error .assertion) :
    c.Sound ↔ c.Confined ∧
      ((∃ p ∈ c.theHashPolicyList, p.isPrime = true) → c.theNumBuckets < 7919) := by
  rw [← exists_init_iff haccepted]
  constructor
  · rintro ⟨d, hinit, hin, -⟩
    refine ⟨fun d' hinit' => ?_, d, hinit⟩
    obtain rfl := Except.ok.inj (hinit.symm.trans hinit')
    have hnarrow := (inPartition_iff hinit).mp hin
    have h := leads_of_init hinit
    cases hpart : c.thePartitioned with
    | false => exact .inl rfl
    | true =>
      refine .inr (.inr fun p hp _ addr => ?_)
      exact hnarrow (h.partitioned.trans hpart) p (h.fns ▸ hp) addr
  · rintro ⟨hconfined, d, hinit⟩
    have hnarrow := narrow_of_confined hconfined hinit
    have hpos := (leads_of_init hinit).buckets_pos
    exact ⟨d, hinit, (inPartition_iff hinit).mpr hnarrow,
      fun n s hs => (covered_of_reachable hnarrow hpos hs).overapproximates⟩

/-- Two partitions of eight buckets, one for each of two masking functions. -/
def twoMasks : TaglessConfig where
  theBlockSize := 64
  theNumSets := 1
  theNumBuckets := 8
  thePartitioned := true
  theUpdateOnSnoop := true
  theHashXORShift := 0
  theRotation := 0
  theHashPolicyList := [.simple, .xor]

theorem sound_iff_confined_twoMasks : twoMasks.init ≠ .error .assertion ∧ (twoMasks.Sound ↔ twoMasks.Confined ∧
    ((∃ p ∈ twoMasks.theHashPolicyList, p.isPrime = true) → twoMasks.theNumBuckets < 7919)) :=
  ⟨by decide +kernel, sound_iff_confined (by decide +kernel)⟩

/-- Two partitions that the second policy narrows to seven buckets. -/
def maskAndPrime : TaglessConfig where
  theBlockSize := 64
  theNumSets := 1
  theNumBuckets := 8
  thePartitioned := true
  theUpdateOnSnoop := false
  theHashXORShift := 0
  theRotation := 0
  theHashPolicyList := [.simple, .prime]

def maskAndPrimeSizes : TaglessSizes :=
  { maskAndPrime.sizes with theNumBuckets := 7, hash_fns := [.simple, .prime] }

def entryOf (addr ref : Nat) : TaglessLookupResult 1 where
  theBuckets := maskAndPrimeSizes.bucketsOf addr
  theTrueState := ref
  theTaglessState := .new 0

/-- The cache gets two blocks and evicts the first. -/
def forgettingRun : List (TaglessEvent 1) :=
  [.lookup 448, .addSharer 0 (entryOf 448 0) 448, .lookup 896, .addSharer 0 (entryOf 896 1) 896,
    .evict 0 .EvictClean .EvictAck (entryOf 448 0) 448 [896]]

def forgets (s : TaglessSystem 1) : Bool :=
  (s.dir.lookup maskAndPrimeSizes 896).any fun found =>
    (found.1.theEntries found.2.2.2.theTrueState).theSharers.isSharer 0 && !found.2.1.isSharer 0

/-- The first function finds a bucket in the partition of the second one, and the eviction of
    the one block clears the bit that the other block has there. -/
theorem narrowed_partition_forgets : maskAndPrime.init = .ok maskAndPrimeSizes ∧
    (¬ maskAndPrimeSizes.InPartition) ∧
      (∃ s : TaglessSystem 1, Reachable maskAndPrimeSizes s ∧ ¬ Overapproximates maskAndPrimeSizes s.dir) ∧
        ¬ maskAndPrime.Sound := by
  have hinit : maskAndPrime.init = .ok maskAndPrimeSizes := by decide +kernel
  have hout : ¬ maskAndPrimeSizes.InPartition := by
    intro hin
    have hlt := (hin 448 (.simple, 0) (by decide)).2.2 rfl
    revert hlt
    decide
  have hrun : (runWhile (step maskAndPrimeSizes) (fun s e => decide (Meets maskAndPrimeSizes s e)) start
      forgettingRun).any forgets = true := by decide +kernel
  obtain ⟨s, hreach, hforgets⟩ := exists_reaches (fun _ _ h => of_decide_eq_true h) hrun
  refine ⟨hinit, hout, ⟨s, hreach, fun hover => ?_⟩, fun hsound => ?_⟩
  · obtain ⟨found, hfound, hlost⟩ := (Option.any_eq_true _ _).mp hforgets
    rw [Bool.and_eq_true] at hlost
    have hkept := hover 896 found hfound 0 hlost.1
    rw [hkept] at hlost
    cases hlost.2
  · obtain ⟨d, hd, hin, -⟩ := hsound
    obtain rfl := Except.ok.inj (hinit.symm.trans hd)
    exact hout hin

end TaglessConfig

end nFastCMPCache
