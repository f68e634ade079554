import Flexus.UFetch.Fetch
import Flexus.Lib.Runs

/-!
# What a cycle of the fetch unit changes

Looking up lines queues fetches and reorders the sets of the cache. Taking addresses moves a
prefix of a queue to the end of the bundle, with a translation for each of its addresses.
-/

namespace nuFetch

namespace UFetch

variable {c : FetchConfig} {s s' s'' : UFetch c} {i : Nat}

/-- Nothing but fetches of absent blocks is queued, and the contents of the cache stay. -/
structure OnlyFetches (s s' : UFetch c) : Prop where
  has : ∀ k, s'.theI.has k = s.theI.has k
  evicts : s'.theEvictSet = s.theEvictSet
  snoops : s'.theSnoopQueue = s.theSnoopQueue
  replies : s'.theReplyQueue = s.theReplyQueue
  misses : ∃ l, s'.theMissQueue = s.theMissQueue ++ l ∧
    ∀ t ∈ l, t.msg.type = .FetchReq ∧ s.theI.has (c.keyOf t.msg.address) = false

theorem OnlyFetches.refl (s : UFetch c) : OnlyFetches s s :=
  ⟨fun _ => rfl, rfl, rfl, rfl, [], by rw [List.append_nil], by simp⟩

theorem OnlyFetches.trans (h : OnlyFetches s s') (h' : OnlyFetches s' s'') : OnlyFetches s s'' := by
  obtain ⟨l, hmisses, hl⟩ := h.misses
  obtain ⟨l', hmisses', hl'⟩ := h'.misses
  refine ⟨fun k => by rw [h'.has, h.has], by rw [h'.evicts, h.evicts], by rw [h'.snoops, h.snoops],
    by rw [h'.replies, h.replies], l ++ l', by rw [hmisses', hmisses, List.append_assoc], ?_⟩
  intro t ht
  rcases List.mem_append.mp ht with hmem | hmem
  · exact hl t hmem
  · exact ⟨(hl' t hmem).1, h.has _ ▸ (hl' t hmem).2⟩

/-- The queues of addresses, the bundle and the translations stay as well. -/
structure Looked (s s' : UFetch c) : Prop extends OnlyFetches s s' where
  faq : ∀ j, (s'.threads j).theFAQ = (s.threads j).theFAQ
  bundle : s'.theBundle = s.theBundle
  translations : s'.TranslationsFromTLB = s.TranslationsFromTLB
  lastTag : s'.theLastVTagSet = s.theLastVTagSet
  lastPhysical : s'.theLastPhysical = s.theLastPhysical

theorem Looked.refl (s : UFetch c) : Looked s s :=
  { OnlyFetches.refl s with
    faq := fun _ => rfl, bundle := rfl, translations := rfl, lastTag := rfl, lastPhysical := rfl }

theorem Looked.trans (h : Looked s s') (h' : Looked s' s'') : Looked s s'' :=
  { h.toOnlyFetches.trans h'.toOnlyFetches with
    faq := fun j => by rw [h'.faq, h.faq]
    bundle := by rw [h'.bundle, h.bundle]
    translations := by rw [h'.translations, h.translations]
    lastTag := by rw [h'.lastTag, h.lastTag]
    lastPhysical := by rw [h'.lastPhysical, h.lastPhysical] }

theorem looked_lookup (anAddress : Nat) : Looked s (s.lookup anAddress).2 :=
  { Looked.refl s with has := fun _ => SimCache.has_lookup }

theorem looked_modifyThread {f : Thread → Thread} (hf : ∀ t, (f t).theFAQ = t.theFAQ) :
    Looked s (s.modifyThread i f) :=
  { Looked.refl s with
    faq := by
      intro j
      simp only [modifyThread]
      by_cases h : j = i
      · rw [h, Function.update_self, hf]
      · rw [Function.update_of_ne h] }

theorem looked_issueFetch {anAddress : Nat} (h : s.issueFetch anAddress = .ok s')
    (hout : s.theI.has (c.keyOf anAddress) = false) : Looked s s' := by
  unfold issueFetch at h
  split at h
  · cases h
  · cases h
    exact { Looked.refl s with misses := ⟨[fetchMessage anAddress], rfl, by simp [fetchMessage, hout]⟩ }

variable {translateVirtualAddress : Nat → Nat → Nat}

theorem looked_prefetchNext (h : s.prefetchNext translateVirtualAddress i = .ok s') : Looked s s' := by
  unfold prefetchNext at h
  split at h
  · cases h
    exact .refl s
  · split at h
    · cases h
      exact .refl s
    · split at h
      · dsimp only at h
        split at h
        · cases h
          exact looked_modifyThread fun _ => rfl
        · split at h
          · cases h
            exact (looked_lookup _).trans (looked_modifyThread fun _ => rfl)
          · next hmiss =>
            have hout := SimCache.lookup_fst.symm.trans (Bool.eq_false_iff.mpr hmiss)
            have hfetch := looked_issueFetch h (SimCache.has_lookup.trans hout)
            refine Looked.trans ?_ hfetch
            exact (looked_lookup _).trans (looked_modifyThread fun _ => rfl)
      · cases h
        exact .refl s

theorem looked_icacheMiss {tagset paddr : Nat}
    (h : s.icacheMiss translateVirtualAddress i tagset paddr = .ok s')
    (hout : s.theI.has (c.keyOf paddr) = false) : Looked s s' := by
  unfold icacheMiss at h
  split at h
  · cases h
  · dsimp only at h
    have hmissed := looked_modifyThread (s := s) (i := i) (f := fun t =>
      { t with theIcacheMiss := some (c.blockAddr paddr), theIcachePrefetch := none }) fun _ => rfl
    split at h
    · exact hmissed.trans (looked_prefetchNext h)
    · obtain ⟨sFetch, hfetch, hprefetch⟩ := Runs.bind_eq_ok.mp h
      have hnext := looked_prefetchNext hprefetch
      refine Looked.trans ?_ hnext
      have hissued := looked_issueFetch hfetch (by rwa [FetchConfig.keyOf_blockAddr])
      exact (hmissed.trans hissued).trans (looked_modifyThread fun _ => rfl)

theorem looked_icacheAccess {tagset paddr : Nat} {hit : Bool}
    (h : s.icacheAccess translateVirtualAddress i tagset paddr = .ok (hit, s')) :
    Looked s s' ∧ hit = s.theI.has (c.keyOf paddr) := by
  have hfst : (s.lookup paddr).1 = s.theI.has (c.keyOf paddr) := SimCache.lookup_fst
  have hsnd : Looked s (s.lookup paddr).2 := looked_lookup paddr
  unfold icacheAccess at h
  dsimp only at h
  rw [hfst] at h
  split at h
  · next hin =>
    split at h
    · obtain ⟨sNext, hnext, heq⟩ := Runs.map_eq_ok.mp h
      cases heq
      exact ⟨hsnd.trans (looked_prefetchNext hnext), hin.symm⟩
    · cases h
      exact ⟨hsnd, hin.symm⟩
  · next hout =>
    obtain ⟨sMiss, hmiss, heq⟩ := Runs.map_eq_ok.mp h
    cases heq
    have hfalse := Bool.eq_false_iff.mpr hout
    exact ⟨hsnd.trans (looked_icacheMiss hmiss (SimCache.has_lookup.trans hfalse)), hfalse.symm⟩

/-- The translation of a line is kept for the next lookup. -/
def keepTranslation (s : UFetch c) (tagset paddr : Nat) : UFetch c :=
  { s with theLastPhysical := paddr, theLastVTagSet := tagset }

/-- A lookup works with the physical address of its line, unless the line has none. -/
theorem looked_icacheLookup {vaddr : Nat} {hit : Bool}
    (h : s.icacheLookup translateVirtualAddress i vaddr = .ok (hit, s')) :
    (c.keyOf vaddr = s.theLastVTagSet ∧ s.theLastPhysical = 0 ∧ s' = s) ∨
      ∃ paddr, (c.keyOf vaddr = s.theLastVTagSet ∧ paddr = s.theLastPhysical ∨
          paddr = translateVirtualAddress i vaddr) ∧
        Looked (s.keepTranslation (c.keyOf vaddr) paddr) s' ∧
        paddr ≠ 0 ∧ hit = s.theI.has (c.keyOf paddr) := by
  unfold icacheLookup at h
  dsimp only at h
  by_cases hknown : c.keyOf vaddr = s.theLastVTagSet
  · simp only [if_pos hknown] at h
    split at h
    · next hzero =>
      cases h
      exact .inl ⟨hknown, hzero, rfl⟩
    · next hne =>
      obtain ⟨hthen, hhit⟩ := looked_icacheAccess h
      refine .inr ⟨s.theLastPhysical, .inl ⟨hknown, rfl⟩, ?_, hne, hhit⟩
      rw [hknown]
      exact hthen
  · simp only [if_neg hknown] at h
    split at h
    · cases h
    · next hne =>
      obtain ⟨hthen, hhit⟩ := looked_icacheAccess h
      exact .inr ⟨_, .inr rfl, hthen, hne, hhit⟩

/-! ## Taking addresses -/

/-- The addresses `l` went from the queue of a thread to the bundle. -/
structure Took (i : Nat) (l : List FetchAddr) (s s' : UFetch c) : Prop extends OnlyFetches s s' where
  faq : (s.threads i).theFAQ = l ++ (s'.threads i).theFAQ
  bundle : s'.theBundle = s.theBundle ++ l.map FetchAddr.opened
  translations : s'.TranslationsFromTLB.map Translation.theVaddr =
    s.TranslationsFromTLB.map Translation.theVaddr ++ l.map FetchAddr.theAddress

variable {l l' : List FetchAddr}

theorem Took.refl (s : UFetch c) : Took i [] s s :=
  { OnlyFetches.refl s with
    faq := rfl
    bundle := (List.append_nil _).symm
    translations := (List.append_nil _).symm }

theorem Took.trans (h : Took i l s s') (h' : Took i l' s' s'') : Took i (l ++ l') s s'' :=
  { h.toOnlyFetches.trans h'.toOnlyFetches with
    faq := by rw [h.faq, h'.faq, List.append_assoc]
    bundle := by rw [h'.bundle, h.bundle, List.map_append, List.append_assoc]
    translations := by rw [h'.translations, h.translations, List.map_append, List.append_assoc] }

theorem Looked.took (h : Looked s s') : Took i [] s s' :=
  { h.toOnlyFetches with
    faq := (h.faq i).symm
    bundle := by rw [h.bundle, List.map_nil, List.append_nil]
    translations := by rw [h.translations, List.map_nil, List.append_nil] }

theorem took_icacheLookup {vaddr : Nat} {hit : Bool}
    (h : s.icacheLookup translateVirtualAddress i vaddr = .ok (hit, s')) : Took i [] s s' := by
  rcases looked_icacheLookup h with ⟨-, -, rfl⟩ | ⟨paddr, -, hlooked, -⟩
  · exact .refl _
  · have hkept : Took i [] s (s.keepTranslation (c.keyOf vaddr) paddr) := { Took.refl s with }
    exact hkept.trans hlooked.took

theorem took_takeAddress {fetch_addr : FetchAddr} {rest : List FetchAddr}
    (hfaq : (s.threads i).theFAQ = fetch_addr :: rest) :
    Took i [fetch_addr] s (s.takeAddress i fetch_addr) :=
  { OnlyFetches.refl s with
    faq := by
      have hthread : (s.takeAddress i fetch_addr).threads i =
          { s.threads i with theFAQ := (s.threads i).theFAQ.tail } := Function.update_self ..
      rw [hthread, hfaq]
      rfl
    bundle := rfl
    translations := List.map_append }

/-- The loop takes a prefix of the queue. -/
theorem took_fetchLoop {quiescing : Bool} {remaining_fetch : Nat} {available_lines : List Nat}
    (h : s.fetchLoop translateVirtualAddress i quiescing remaining_fetch available_lines = .ok s') :
    ∃ l, Took i l s s' := by
  induction remaining_fetch generalizing available_lines s with
  | zero =>
    cases h
    exact ⟨[], .refl _⟩
  | succ remaining_fetch ih =>
    unfold fetchLoop at h
    split at h
    · split at h
      · cases h
      · cases h
        exact ⟨[], .refl _⟩
    · next fetch_addr rest hfaq =>
      have htake := took_takeAddress hfaq
      dsimp only at h
      split at h
      · obtain ⟨l, hl⟩ := ih h
        exact ⟨_, htake.trans hl⟩
      split at h
      · cases h
        exact ⟨[], .refl _⟩
      split at h
      · obtain ⟨l, hl⟩ := ih h
        exact ⟨_, htake.trans hl⟩
      · obtain ⟨⟨hit, sLine⟩, hline, hthen⟩ := Runs.bind_eq_ok.mp h
        have hlooked := took_icacheLookup (i := i) hline
        dsimp only at hthen
        split at hthen
        · obtain ⟨l, hl⟩ := ih hthen
          have hfaqLine : (sLine.threads i).theFAQ = fetch_addr :: rest := by
            rw [← hfaq, hlooked.faq, List.nil_append]
          exact ⟨_, (hlooked.trans (took_takeAddress hfaqLine)).trans hl⟩
        · cases hthen
          exact ⟨[], hlooked⟩

/-- A cycle takes a prefix of the queue, and the front of the bundle leaves it. -/
theorem took_doFetch {available_fiq : Nat} {quiescing : Bool} {sent : List FetchedOpcode}
    (h : s.doFetch translateVirtualAddress i available_fiq quiescing = .ok (s', sent)) :
    ∃ l sTook, Took i l s sTook ∧
      ((s', sent) = sTook.processBundle ∨ (s', sent) = (sTook, [])) := by
  unfold doFetch at h
  split at h
  · cases h
    exact ⟨[], s, .refl s, .inr rfl⟩
  · split at h
    · obtain ⟨sTook, hloop, heq⟩ := Runs.map_eq_ok.mp h
      obtain ⟨l, hl⟩ := took_fetchLoop hloop
      exact ⟨l, sTook, hl, .inl heq.symm⟩
    · cases h
      exact ⟨[], s, .refl s, .inl rfl⟩

end UFetch

end nuFetch
