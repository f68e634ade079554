import Mathlib.Data.List.TakeWhile
import Flexus.UFetch.Delivery

/-!
# Runs of the fetch unit

The fetch unit together with what it took, sent and was told since the last squash or resync.
-/

namespace nuFetch

open Runs

variable {c : FetchConfig}

namespace UFetch

variable {s s' : UFetch c} {out : Sent}

/-- The bundle and the translations stay. -/
structure SameBundle (s s' : UFetch c) : Prop where
  bundle : s'.theBundle = s.theBundle
  translations : s'.TranslationsFromTLB = s.TranslationsFromTLB

theorem SameBundle.refl (s : UFetch c) : SameBundle s s := ⟨rfl, rfl⟩

theorem SameBundle.trans {s'' : UFetch c} (h : SameBundle s s') (h' : SameBundle s' s'') : SameBundle s s'' :=
  ⟨by rw [h'.bundle, h.bundle], by rw [h'.translations, h.translations]⟩

theorem sameBundle_queueSnoopMessage (aTransport : MemoryTransport) (aType : nCMPCache.MemoryMessageType)
    (aContainsData : Bool) : SameBundle s (s.queueSnoopMessage aTransport aType aContainsData) := by
  unfold queueSnoopMessage
  dsimp only
  split <;> exact ⟨rfl, rfl⟩

theorem sameBundle_ackFill {aTransport : MemoryTransport} (h : s.ackFill aTransport = .ok s') :
    SameBundle s s' := by
  unfold ackFill at h
  split at h
  · split at h
    · cases h
    · cases h
      exact sameBundle_queueSnoopMessage ..
  · cases h
    exact .refl s

theorem sameBundle_insert (anAddress : Nat) : SameBundle s (s.insert anAddress).2 := by
  unfold UFetch.insert
  dsimp only
  split <;> exact ⟨rfl, rfl⟩

theorem sameBundle_issueEvict {anAddress : Nat} (h : s.issueEvict anAddress = .ok s') :
    SameBundle s s' := by
  unfold issueEvict at h
  split at h
  · split at h
    · cases h
    · split at h <;> · cases h; exact ⟨rfl, rfl⟩
  · cases h
    exact .refl s

theorem sameBundle_fill {aTransport : MemoryTransport} (h : s.fill aTransport = .ok s') :
    SameBundle s s' := by
  obtain ⟨sEvict, hevict, hack⟩ := Runs.bind_eq_ok.mp h
  refine ((sameBundle_insert _).trans (sameBundle_issueEvict hevict)).trans ?_
  exact ⟨(sameBundle_ackFill hack).bundle, (sameBundle_ackFill hack).translations⟩

theorem sameBundle_answerForward {aTransport : MemoryTransport} {had : Bool}
    {reply : nCMPCache.MemoryMessageType} (h : s.answerForward aTransport had reply = .ok s') :
    SameBundle s s' := by
  unfold answerForward at h
  split at h
  · cases h
  · split at h <;> · cases h; exact sameBundle_queueSnoopMessage ..

theorem sameBundle_fetchReply {aTransport : MemoryTransport} (h : s.fetchReply aTransport = .ok s') :
    SameBundle s s' := by
  have hlookup : ∀ a, SameBundle s (s.lookup a).2 := fun _ => ⟨rfl, rfl⟩
  have hinval : ∀ a, SameBundle s (s.inval a).2 := fun _ => ⟨rfl, rfl⟩
  unfold fetchReply at h
  dsimp only at h
  split at h
  case h_1 | h_2 | h_3 | h_4 | h_5 => exact sameBundle_fill h
  case h_6 =>
    cases h
    exact (hinval _).trans (sameBundle_queueSnoopMessage ..)
  case h_7 | h_8 =>
    cases h
    exact sameBundle_queueSnoopMessage ..
  case h_9 | h_10 => exact (hlookup _).trans (sameBundle_answerForward h)
  case h_11 => exact (hinval _).trans (sameBundle_answerForward h)
  case h_12 =>
    split at h
    · cases h
    · cases h
      exact (hinval _).trans (sameBundle_queueSnoopMessage ..)
  case h_13 =>
    split at h
    · cases h
      exact ⟨rfl, rfl⟩
    · cases h
  case h_14 => cases h

/-- The assertions about messages from memory. -/
def ofReply (f : FetchFault) : Prop :=
  f = .noDestination ∨ f = .evictOutstanding ∨ f = .evictNotFound ∨ f = .unhandledMessage

theorem fill_eq_error {aTransport : MemoryTransport} {f : FetchFault}
    (h : s.fill aTransport = .error f) : ofReply f := by
  rcases Runs.bind_eq_error.mp h with hevict | ⟨sEvict, -, hack⟩
  · unfold issueEvict at hevict
    split at hevict
    · split at hevict
      · exact .inr (.inl (Except.error.inj hevict).symm)
      · split at hevict <;> cases hevict
    · cases hevict
  · unfold ackFill at hack
    split at hack
    · split at hack
      · exact .inl (Except.error.inj hack).symm
      · cases hack
    · cases hack

theorem answerForward_eq_error {aTransport : MemoryTransport} {had : Bool}
    {reply : nCMPCache.MemoryMessageType} {f : FetchFault}
    (h : s.answerForward aTransport had reply = .error f) : ofReply f := by
  unfold answerForward at h
  split at h
  · exact .inl (Except.error.inj h).symm
  · split at h <;> cases h

theorem fetchReply_eq_error {aTransport : MemoryTransport} {f : FetchFault}
    (h : s.fetchReply aTransport = .error f) : ofReply f := by
  unfold fetchReply at h
  dsimp only at h
  split at h
  all_goals first
    | exact fill_eq_error h
    | exact answerForward_eq_error h
    | (cases h; exact .inr (.inr (.inr rfl)))
    | cases h
    | (split at h <;> cases h; first
        | exact .inl rfl
        | exact .inr (.inr (.inl rfl)))

/-- The outstanding translation that a reply is for. -/
def asked (s : UFetch c) (theID : Nat) : Option Translation :=
  s.TranslationsFromTLB.find? fun tr => tr.theID == theID

end UFetch

/-- The fetch unit with what happened since the last squash or resync: the addresses that were
    taken from the queues, the elements that were sent, and the opcodes that the replies
    brought for their addresses. -/
structure Stream (c : FetchConfig) where
  unit : UFetch c
  taken : List FetchAddr := []
  sent : List FetchedOpcode := []
  reads : List (Nat × Nat) := []

namespace Stream

def start (theI : SimCache c) : Stream c where
  unit := .start theI

/-- The addresses that are gone from the front of a queue. -/
def gone (before after : List FetchAddr) : List FetchAddr :=
  before.take (before.length - after.length)

/-- A step of the unit, as it is seen from around it. -/
def note (st : Stream c) (unit : UFetch c) (out : Sent) : Event → Stream c
  | .SquashIn _ => { unit := unit }
  | .ResyncIn => { unit := unit }
  | .iTranslationIn theID instruction =>
    { st with
      unit := unit
      reads := st.reads ++
        (st.unit.asked theID).toList.map fun tr => (tr.theVaddr, UFetch.opcodeOf instruction) }
  | .uFetchDrive td .. =>
    { st with
      unit := unit
      taken := st.taken ++ gone (st.unit.threads td).theFAQ (unit.threads td).theFAQ
      sent := st.sent ++ out.bundle }
  | _ => { st with unit := unit }

def step (st : Stream c) (e : Event) : Except FetchFault (Stream c) :=
  (st.unit.step e).map fun (unit, out) => st.note unit out e

/-- A reply finds the first element at its address without an opcode, and while the simulator
    quiesces something stops the loop over the addresses before their queue ends. -/
def Meets (st : Stream c) : Event → Prop
  | .iTranslationIn theID _ =>
    ∀ tr ∈ st.unit.asked theID, FirstWaits tr.theVaddr st.unit.theBundle
  | .uFetchDrive td available_fiq quiescing translateVirtualAddress .. =>
    quiescing = true → (st.unit.threads td).theIcacheMiss = none →
      st.unit.theBundle.length < c.MissQueueSize →
      st.unit.StopsEarly translateVirtualAddress td (min available_fiq c.MaxFetchInstructions)
  | _ => True

instance decidableMeets (st : Stream c) : ∀ e, Decidable (st.Meets e)
  | .iTranslationIn theID _ =>
    inferInstanceAs (Decidable (∀ tr ∈ st.unit.asked theID, FirstWaits tr.theVaddr st.unit.theBundle))
  | .uFetchDrive td available_fiq quiescing translateVirtualAddress .. =>
    inferInstanceAs (Decidable (quiescing = true → (st.unit.threads td).theIcacheMiss = none →
      st.unit.theBundle.length < c.MissQueueSize →
      st.unit.StopsEarly translateVirtualAddress td (min available_fiq c.MaxFetchInstructions)))
  | .FetchAddressIn .. | .SquashIn _ | .ResyncIn | .FetchMissIn _ => .isTrue trivial

/-- Nothing was skipped or repeated, every reply gave its opcode to an element of its own, and
    the other elements have a translation on its way. -/
structure Delivers (st : Stream c) : Prop where
  in_order : (st.sent ++ st.unit.theBundle).map FetchedOpcode.addr = st.taken
  known : ∀ e ∈ st.sent, e.known = true
  reads : (brought (st.sent ++ st.unit.theBundle)).Perm st.reads
  outstanding : (waiting st.unit.theBundle).Perm (st.unit.TranslationsFromTLB.map Translation.theVaddr)

variable {st st' : Stream c} {e : Event}

theorem delivers_start (theI : SimCache c) : (start theI).Delivers :=
  ⟨rfl, by simp [start], .refl _, .refl _⟩

/-- Steps that neither touch the bundle nor what is noted. -/
theorem Delivers.same (hst : st.Delivers) {unit : UFetch c} (h : UFetch.SameBundle st.unit unit) :
    Delivers { st with unit := unit } where
  in_order := by rw [h.bundle]; exact hst.in_order
  known := hst.known
  reads := by rw [h.bundle]; exact hst.reads
  outstanding := by rw [h.bundle, h.translations]; exact hst.outstanding

theorem gone_append (l l' : List FetchAddr) : gone (l ++ l') l' = l := by
  unfold gone
  rw [List.length_append, Nat.add_sub_cancel, List.take_left]

/-- A reply to a translation that was asked for. -/
theorem Delivers.answer (hst : st.Delivers) {tr : Translation} {instruction : Option Nat}
    {unit : UFetch c} (hmem : tr ∈ st.unit.TranslationsFromTLB)
    (hwaits : FirstWaits tr.theVaddr st.unit.theBundle)
    (h : st.unit.getFetchResponse tr instruction = .ok unit) :
    Delivers { st with
      unit := unit, reads := st.reads ++ [(tr.theVaddr, UFetch.opcodeOf instruction)] } := by
  unfold UFetch.getFetchResponse at h
  split at h
  · next bundle hupdate =>
    cases h
    obtain ⟨haddr, hbrought, hwaiting⟩ := updateOpcode_spec (opcodeOf_ne_zero _) hwaits hupdate
    refine ⟨?_, hst.known, ?_, ?_⟩
    · rw [← hst.in_order, List.map_append, List.map_append, haddr]
    · have hreads := hst.reads
      rw [brought_append] at hreads ⊢
      refine (hbrought.append_left _).trans ?_
      refine List.perm_middle.trans ?_
      exact (hreads.cons _).trans (List.perm_append_singleton _ _).symm
    · have herase := (List.perm_cons_erase hmem).map Translation.theVaddr
      exact ((hwaiting.symm.trans hst.outstanding).trans herase).cons_inv
  · cases h

/-- A cycle: the addresses `l` are taken, and the front of the bundle leaves. -/
theorem Delivers.drive (hst : st.Delivers) {i : Nat} {l : List FetchAddr} {sTook unit : UFetch c}
    {sent : List FetchedOpcode} (htook : UFetch.Took i l st.unit sTook)
    (hsent : sent ++ unit.theBundle = sTook.theBundle) (hknown : ∀ e ∈ sent, e.known = true)
    (htranslations : unit.TranslationsFromTLB = sTook.TranslationsFromTLB) :
    Delivers { st with unit := unit, taken := st.taken ++ l, sent := st.sent ++ sent } where
  in_order := by
    rw [List.append_assoc, hsent, htook.bundle, ← List.append_assoc, List.map_append, hst.in_order,
      map_addr_opened]
  known := by
    intro e he
    rcases List.mem_append.mp he with hbefore | hnow
    · exact hst.known e hbefore
    · exact hknown e hnow
  reads := by
    rw [List.append_assoc, hsent, htook.bundle, ← List.append_assoc, brought_append, brought_opened,
      List.append_nil]
    exact hst.reads
  outstanding := by
    have hall : waiting sTook.theBundle = waiting unit.theBundle := by
      rw [← hsent, waiting_append, waiting_eq_nil hknown, List.nil_append]
    rw [htranslations, htook.translations, ← hall, htook.bundle, waiting_append, waiting_opened]
    exact hst.outstanding.append_right _

theorem Delivers.push (hst : st.Delivers) {theID : Nat} {instruction : Option Nat}
    {unit : UFetch c} (hmeets : ∀ tr ∈ st.unit.asked theID, FirstWaits tr.theVaddr st.unit.theBundle)
    (h : st.unit.pushTranslation theID instruction = .ok unit) (out : Sent) :
    (st.note unit out (.iTranslationIn theID instruction)).Delivers := by
  unfold UFetch.pushTranslation at h
  unfold note
  dsimp only
  split at h
  · next tr hfind =>
    have hasked : st.unit.asked theID = some tr := hfind
    rw [hasked]
    exact hst.answer (List.mem_of_find?_eq_some hfind) (hmeets tr hasked) h
  · next hfind =>
    have hasked : st.unit.asked theID = none := hfind
    cases h
    rw [hasked, Option.toList_none, List.map_nil, List.append_nil]
    exact hst

theorem processBundle_spec {s unit : UFetch c} {sent : List FetchedOpcode}
    (h : (unit, sent) = s.processBundle) :
    sent ++ unit.theBundle = s.theBundle ∧ (∀ e ∈ sent, e.known = true) ∧
      unit.TranslationsFromTLB = s.TranslationsFromTLB ∧ unit.threads = s.threads := by
  cases h
  exact ⟨List.takeWhile_append_dropWhile, fun e he => List.mem_takeWhile_imp he, rfl, rfl⟩

/-- What a cycle takes and sends. -/
theorem drive_spec {s unit : UFetch c} {out : Sent} {i available_fiq : Nat} {quiescing : Bool}
    {translateVirtualAddress : Nat → Nat → Nat} {missRoom snoopRoom replyRoom : Nat}
    (h : s.drive i available_fiq quiescing translateVirtualAddress missRoom snoopRoom replyRoom =
      .ok (unit, out)) :
    ∃ l sTook, UFetch.Took i l s sTook ∧ out.bundle ++ unit.theBundle = sTook.theBundle ∧
      (∀ e ∈ out.bundle, e.known = true) ∧
      unit.TranslationsFromTLB = sTook.TranslationsFromTLB ∧ unit.threads = sTook.threads := by
  obtain ⟨⟨sFetch, sent⟩, hfetch, heq⟩ := Runs.map_eq_ok.mp h
  obtain ⟨l, sTook, htook, hsent⟩ := UFetch.took_doFetch hfetch
  cases heq
  refine ⟨l, sTook, htook, ?_⟩
  rcases hsent with hprocessed | hnothing
  · have hspec := processBundle_spec hprocessed
    exact hspec
  · cases hnothing
    exact ⟨rfl, by simp, rfl, rfl⟩

/-- Every step that meets the condition keeps what was delivered. -/
theorem Delivers.step (hst : st.Delivers) (hmeets : st.Meets e) (h : st.step e = .ok st') :
    st'.Delivers := by
  obtain ⟨⟨unit, out⟩, hunit, rfl⟩ := Runs.map_eq_ok.mp h
  cases e with
  | FetchAddressIn anIndex theFetches =>
    cases hunit
    exact hst.same ⟨rfl, rfl⟩
  | SquashIn anIndex =>
    cases hunit
    exact ⟨rfl, by simp [note], .refl _, .refl _⟩
  | ResyncIn =>
    cases hunit
    exact ⟨rfl, by simp [note], .refl _, .refl _⟩
  | iTranslationIn theID instruction =>
    obtain ⟨sPush, hpush, heq⟩ := Runs.map_eq_ok.mp hunit
    cases heq
    exact hst.push hmeets hpush _
  | FetchMissIn aTransport =>
    obtain ⟨sReply, hreply, heq⟩ := Runs.map_eq_ok.mp hunit
    cases heq
    exact hst.same (UFetch.sameBundle_fetchReply hreply)
  | uFetchDrive td available_fiq quiescing translateVirtualAddress missRoom snoopRoom replyRoom =>
    obtain ⟨l, sTook, htook, hsent, hknown, htranslations, hthreads⟩ := drive_spec hunit
    unfold note
    dsimp only
    rw [hthreads, htook.faq, gone_append]
    exact hst.drive htook hsent hknown htranslations

/-- The assertion about the bundle holds, and no address is taken from an empty queue. -/
theorem Delivers.step_error (hst : st.Delivers) (hmeets : st.Meets e) {f : FetchFault}
    (h : st.step e = .error f) : f ≠ .emptyFAQ ∧ f ≠ .noBundleEntry := by
  have hunit := Runs.map_eq_error.mp h
  cases e with
  | FetchAddressIn anIndex theFetches => cases hunit
  | SquashIn anIndex => cases hunit
  | ResyncIn => cases hunit
  | iTranslationIn theID instruction =>
    have hpush := Runs.map_eq_error.mp hunit
    unfold UFetch.pushTranslation at hpush
    split at hpush
    · next tr hfind =>
      have hmem : tr.theVaddr ∈ waiting st.unit.theBundle :=
        hst.outstanding.mem_iff.mpr (List.mem_map_of_mem (List.mem_of_find?_eq_some hfind))
      unfold UFetch.getFetchResponse at hpush
      split at hpush
      · cases hpush
      · next hnone => exact absurd hnone (updateOpcode_ne_none hmem)
    · cases hpush
  | FetchMissIn aTransport =>
    rcases UFetch.fetchReply_eq_error (Runs.map_eq_error.mp hunit) with rfl | rfl | rfl | rfl
    all_goals exact ⟨nofun, nofun⟩
  | uFetchDrive td available_fiq quiescing translateVirtualAddress missRoom snoopRoom replyRoom =>
    have hfetch := Runs.map_eq_error.mp hunit
    unfold UFetch.doFetch at hfetch
    split at hfetch
    · cases hfetch
    next hmiss =>
    split at hfetch
    · next hstart =>
      have hloop := Runs.map_eq_error.mp hfetch
      rcases UFetch.fetchLoop_eq_error List.nodup_nil (Nat.zero_le _) hloop with
        hlookup | ⟨-, lines, hran⟩
      · rcases hlookup with rfl | rfl | rfl
        all_goals exact ⟨nofun, nofun⟩
      · have hquiesces := hran.quiesces
        subst hquiesces
        exact absurd hran (UFetch.not_ranOut (hmeets rfl (not_not.mp hmiss) hstart.1))
    · cases hfetch

theorem delivers_of_reaches {theI : SimCache c} (h : Reaches step Meets (start theI) st) :
    st.Delivers :=
  h.invariant (delivers_start theI) fun _ _ _ hbefore hmeets hok => hbefore.step hmeets hok

/-- What was sent is a prefix of what was taken. Every element was sent with an opcode that a
    reply brought for its address, the replies belong one to one to the elements with an opcode,
    an element has none only while a translation is outstanding, and neither the assertion
    about the bundle fails nor is an address taken from an empty queue. -/
theorem delivered_in_order (theI : SimCache c) (h : Reaches step Meets (start theI) st) :
    st.sent.map FetchedOpcode.addr <+: st.taken ∧
      (st.sent ++ st.unit.theBundle).map FetchedOpcode.addr = st.taken ∧
      (∀ e ∈ st.sent, e.theOpcode ≠ 0 ∧ (e.thePC, e.theOpcode) ∈ st.reads) ∧
      (brought (st.sent ++ st.unit.theBundle)).Perm st.reads ∧
      (st.unit.TranslationsFromTLB = [] → ∀ e ∈ st.unit.theBundle, e.theOpcode ≠ 0) ∧
      ∀ e f, st.Meets e → st.step e = .error f → f ≠ .emptyFAQ ∧ f ≠ .noBundleEntry := by
  have hst := delivers_of_reaches h
  refine ⟨?_, hst.in_order, ?_, hst.reads, ?_, fun e f hmeets herror => hst.step_error hmeets herror⟩
  · rw [← hst.in_order, List.map_append]
    exact List.prefix_append _ _
  · intro e he
    have hknown := hst.known e he
    refine ⟨bne_iff_ne.mp hknown, hst.reads.mem_iff.mp ?_⟩
    exact mem_brought (List.mem_append_left _ he) hknown
  · intro hnone
    have hperm := hst.outstanding
    rw [hnone, List.map_nil] at hperm
    exact known_of_waiting hperm.eq_nil

/-- A fetch unit with one thread that always finds its lines. -/
def perfect : FetchConfig where
  MaxFetchLines := 2
  MaxFetchInstructions := 10
  theIndexShift := 6
  PerfectICache := true
  PrefetchEnabled := false
  CleanEvict := false
  Size := 65536
  Associativity := 4
  MissQueueSize := 4
  Threads := 1
  SendAcks := false
  UseReplyChannel := false
  EvictOnSnoop := true
  associativity_pos := Nat.zero_lt_succ (nat_lit 3)

/-- Two addresses go through the unit, the second reply first. -/
theorem delivered_in_order_two :
    ∃ st : Stream perfect, Reaches step Meets (start .empty) st ∧
      st.sent.length = 2 ∧ st.sent.map FetchedOpcode.addr <+: st.taken := by
  have hrun : (runWhile step (fun st e => decide (st.Meets e)) (start (c := perfect) .empty)
      [.FetchAddressIn 0 [⟨0x1000, 0⟩, ⟨0x1004, 0⟩], .uFetchDrive 0 10 false (fun _ vaddr => vaddr) 4 4 4,
        .iTranslationIn 1 (some 0xd503201f), .iTranslationIn 0 none,
        .uFetchDrive 0 10 false (fun _ vaddr => vaddr) 4 4 4]).any
      (fun st => decide (st.sent.length = 2)) = true := by decide +kernel
  obtain ⟨st, hreach, hend⟩ := exists_reaches (fun _ _ h => of_decide_eq_true h) hrun
  exact ⟨st, hreach, of_decide_eq_true hend, (delivered_in_order .empty hreach).1⟩

/-- Both replies go to the first of two elements at one address, and the second never gets an
    opcode. While the simulator quiesces, an address is taken from an empty queue. -/
theorem repeated_address_starves :
    (∃ st : Stream perfect, Reaches step Anything (start .empty) st ∧
      st.unit.TranslationsFromTLB = [] ∧ ∃ e ∈ st.unit.theBundle, e.theOpcode = 0) ∧
    (start (c := perfect) .empty).step (.uFetchDrive 0 10 true (fun _ vaddr => vaddr) 4 4 4) =
      .error .emptyFAQ := by
  refine ⟨?_, rfl⟩
  have hrun : (runWhile step (fun _ _ => true) (start (c := perfect) .empty)
      [.FetchAddressIn 0 [⟨0x1000, 0⟩, ⟨0x1000, 1⟩], .uFetchDrive 0 10 false (fun _ vaddr => vaddr) 4 4 4,
        .iTranslationIn 0 (some 0xd503201f), .iTranslationIn 1 (some 0xd503201f)]).any
      (fun st => decide (st.unit.TranslationsFromTLB = [] ∧ ∃ e ∈ st.unit.theBundle, e.theOpcode = 0)) =
        true := by decide +kernel
  obtain ⟨st, hreach, hend⟩ := exists_reaches (fun st e _ => (trivial : Anything st e)) hrun
  exact ⟨st, hreach, of_decide_eq_true hend⟩

end Stream

end nuFetch
