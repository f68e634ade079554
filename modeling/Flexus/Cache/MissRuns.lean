import Mathlib.Data.List.TakeWhile
import Flexus.Cache.MissAccounting

/-!
# The accounting of misses over a run

The events that were processed, with those that wait behind them, are in the order of their
cycles at all times, and every end has its start before it.
-/

namespace nCache

open Census Runs

/-! ## What a call does to the table -/

namespace MissTracker

variable {m m' : MissTracker} {view : Nat → TransactionTracker} {e : MissEvent} {now : Nat} {tracker : Option Nat}

/-- An event of the present cycle comes last. -/
theorem insert_eq (h : ∀ x ∈ m.theMissTable, x.theCycle ≤ e.theCycle) :
    m.insert e = { m with theMissTable := m.theMissTable ++ [e] } := by
  have hall : ∀ x ∈ m.theMissTable, decide (x.theCycle ≤ e.theCycle) = true := by simpa using h
  rw [insert, List.dropWhile_eq_nil_iff.mpr hall, List.takeWhile_eq_self_iff.mpr hall]

theorem retype_split {t : Nat} (type : eMissType) {l : List MissEvent}
    (h : (l.find? fun e => e.theTracker = t) = some e) :
    ∃ before rest, l = before ++ e :: rest ∧
      retype t type l = before ++ { e with theType := type } :: rest := by
  induction l with
  | nil => cases h
  | cons x l ih =>
    rw [List.find?_cons] at h
    by_cases ht : x.theTracker = t
    · rw [decide_eq_true ht] at h
      obtain rfl := Option.some.inj h
      exact ⟨[], l, rfl, by rw [retype, if_pos ht, List.nil_append]⟩
    · rw [decide_eq_false ht] at h
      obtain ⟨before, rest, hl, hretype⟩ := ih h
      exact ⟨x :: before, rest, by rw [hl, List.cons_append], by rw [retype, if_neg ht, hretype, List.cons_append]⟩

theorem finishTypes_spec (t : TransactionTracker) :
    (finishTypes t).1.starts = true ∧ (finishTypes t).2.starts = false ∧
      (finishTypes t).2.kind = (finishTypes t).1.kind ∧ (finishTypes t).1.kind ≠ .Unknown := by
  rw [finishTypes]
  split
  · decide
  · split <;> decide

/-- A finished miss that is not in the table changes nothing. Otherwise its start gets a type and
    its end comes last. -/
theorem settle_cases (h : m.settle view now tracker = .ok m')
    (hcycles : ∀ x ∈ m.theMissTable, x.theCycle ≤ now) :
    (m' = m ∧ (tracker.toList.filter fun t => (m.find t).isSome) = []) ∨
    ∃ e before rest, m.theMissTable = before ++ e :: rest ∧ e.theType = .kStart_Unknown ∧
      (tracker.toList.filter fun t => (m.find t).isSome) = [e.theTracker] ∧
      m' = { m with
        theMissTable := before ++ { e with theType := (finishTypes (view e.theTracker)).1 } :: rest ++
          [⟨(finishTypes (view e.theTracker)).2, now, e.theTracker⟩] } := by
  cases tracker with
  | none => exact .inl ⟨(Except.ok.inj h).symm, rfl⟩
  | some t =>
    rw [settle] at h
    split at h
    · next hfind => exact .inl ⟨(Except.ok.inj h).symm, by simp [hfind]⟩
    · next e hfind =>
      rw [find] at hfind
      obtain rfl : e.theTracker = t := by simpa using List.find?_some hfind
      split at h
      · next htype =>
        obtain ⟨before, rest, htable, hretype⟩ := retype_split (finishTypes (view e.theTracker)).1 hfind
        rw [hretype, insert_eq] at h
        · exact .inr ⟨e, before, rest, htable, htype, by simp [find, hfind], (Except.ok.inj h).symm⟩
        · intro x hx
          simp only [htable, List.mem_append, List.mem_cons] at hcycles hx
          obtain hx | rfl | hx := hx
          · exact hcycles x (.inl hx)
          · exact hcycles e (.inr (.inl rfl))
          · exact hcycles x (.inr (.inr hx))
      · cases h

end MissTracker

/-! ## What holds in a run -/

/-- The statistics are the numbers of the misses that were counted. -/
structure MissCounters.Counts (c : MissCounters) (classified : List (Nat × Bool × MissClass)) : Prop where
  theMisses : c.theMisses = classified.length
  theMisses_of : ∀ system, c.theMisses_of system = classified.countP fun x => x.2.1 = system
  theMisses_by : ∀ system cls, c.theMisses_by system cls = classified.countP fun x => x.2 = (system, cls)

theorem MissCounters.Counts.count {c : MissCounters} {classified : List (Nat × Bool × MissClass)}
    (h : c.Counts classified) (tracker : Nat) (system : Bool) (cls : MissClass) :
    (c.count system cls).Counts (classified ++ [(tracker, system, cls)]) where
  theMisses := by rw [MissCounters.count, h.theMisses, List.length_append, List.length_singleton]
  theMisses_of s := by
    simp only [MissCounters.count, h.theMisses_of, List.countP_append, List.countP_singleton, decide_eq_true_eq]
    split
    · next hs => rw [if_pos hs.symm]
    · next hs => rw [if_neg (Ne.symm hs), Nat.add_zero]
  theMisses_by s k := by
    simp only [MissCounters.count, h.theMisses_by, List.countP_append, List.countP_singleton, decide_eq_true_eq]
    split
    · next hs => rw [if_pos hs.symm]
    · next hs => rw [if_neg (Ne.symm hs), Nat.add_zero]

namespace MissHistory

def events (s : MissHistory) : List MissEvent := s.processed ++ s.tracker.theMissTable

/-- The trackers of contended misses. -/
def contended (s : MissHistory) : List Nat := (s.classified.filter fun c => c.2.2 = .CohContend).map Prod.fst

/-- The events that are accounted for. -/
def counted (s : MissHistory) (es : List MissEvent) : List MissEvent := es.filter fun e => e.theTracker ∉ s.contended

/-- The events in order, and what the variables, the statistics and the history say of them. -/
structure Sound (s : MissHistory) : Prop where
  orderly : Orderly (marks s.events)
  once : ((entered (marks s.events)).map fun a => a.key.1).Nodup
  started : ∀ e ∈ s.events, e.theTracker ∈ s.started
  cycles : ∀ e ∈ s.events, e.theCycle ≤ s.cycle
  waiting : ∀ e ∈ s.tracker.theMissTable, e.theTracker ∉ s.contended
  accounts : s.tracker.Accounts (s.counted s.processed)
  classes : s.classified.map (fun c => (c.1, c.2.2.kind)) = (entered (marks s.processed)).map Mark.key
  counters : s.tracker.counters.Counts s.classified
  finished : ∀ f ∈ s.finished, f.2 ≠ .Unknown ∧ f ∈ (entered (marks s.events)).map Mark.key
  inits : [] :: s.seen.map Prod.fst = s.processed.inits
  seen : ∀ v ∈ s.seen, v.2.Accounts (s.counted v.1)

variable {s : MissHistory} {e : MissEvent} {es : List MissEvent} {now t : Nat}

theorem marks_append (es es' : List MissEvent) : marks (es ++ es') = marks es ++ marks es' := List.map_append

theorem mem_marks {a : Mark (Nat × MissKind)} : a ∈ marks es ↔ ∃ e ∈ es, e.mark = a := List.mem_map

/-- No end is of an unknown kind. -/
theorem left_known {a : Mark (Nat × MissKind)} (h : a ∈ left (marks es)) : a.key.2 ≠ .Unknown := by
  obtain ⟨hmem, hleaves⟩ := mem_left.mp h
  obtain ⟨⟨type, cycle, tracker⟩, -, rfl⟩ := mem_marks.mp hmem
  cases type with
  | kStart_Unknown | kStart_Coherence | kStart_WrongPath | kStart_NonCoherence => cases hleaves
  | kEnd_Coherence | kEnd_NonCoherence | kEnd_WrongPath => exact fun hkind => nomatch hkind

/-- The start of a tracker is its only one, and every mark of the tracker is of its kind. -/
theorem Sound.unique (h : s.Sound) (he : e ∈ s.events) (hstarts : e.theType.starts = true)
    {a : Mark (Nat × MissKind)} (ha : a ∈ marks s.events) (hkey : a.key.1 = e.theTracker) :
    a.key = e.mark.key ∧ (a.enters = true → a = e.mark) := by
  have hmark : e.mark ∈ entered (marks s.events) := mem_entered.mpr ⟨mem_marks.mpr ⟨e, he, rfl⟩, hstarts⟩
  have honly : ∀ b ∈ entered (marks s.events), b.key.1 = e.theTracker → b = e.mark := fun b hb hkey =>
    List.inj_on_of_nodup_map h.once hb hmark hkey
  cases henters : a.enters with
  | true =>
    have hsame := honly a (mem_entered.mpr ⟨ha, henters⟩) hkey
    exact ⟨congrArg Mark.key hsame, fun _ => hsame⟩
  | false =>
    obtain ⟨b, hb, hkeys⟩ := h.orderly.known a (mem_left.mpr ⟨ha, henters⟩)
    rw [← hkeys] at hkey ⊢
    exact ⟨congrArg Mark.key (honly b hb hkey), fun h => nomatch h⟩

/-- A classified miss was started. -/
theorem Sound.contended_started (h : s.Sound) (ht : t ∈ s.contended) : t ∈ s.started := by
  obtain ⟨c, hc, rfl⟩ := List.mem_map.mp ht
  have hkey : (c.1, c.2.2.kind) ∈ (entered (marks s.processed)).map Mark.key :=
    h.classes ▸ List.mem_map_of_mem (List.mem_of_mem_filter hc)
  obtain ⟨a, ha, hkey⟩ := List.mem_map.mp hkey
  obtain ⟨e, he, rfl⟩ := mem_marks.mp (mem_entered.mp ha).1
  have htracker : e.theTracker = c.1 := congrArg Prod.fst hkey
  exact htracker ▸ h.started e (List.mem_append_left _ he)

theorem sound_empty : empty.Sound where
  orderly := ⟨.nil, .nil, .nil, nofun, .nil⟩
  once := .nil
  started := nofun
  cycles := nofun
  waiting := nofun
  accounts := ⟨.empty, .empty, .empty⟩
  classes := rfl
  counters := ⟨rfl, fun _ => rfl, fun _ _ => rfl⟩
  finished := nofun
  inits := rfl
  seen := nofun

/-! ## The calls -/

theorem Sound.le_now (h : s.Sound) (hnow : s.cycle ≤ now) : ∀ a ∈ marks s.events, a.time ≤ now := by
  intro a ha
  obtain ⟨e, he, rfl⟩ := mem_marks.mp ha
  exact (h.cycles e he).trans hnow

/-- A miss starts. -/
theorem Sound.startMiss (h : s.Sound) (hnow : s.cycle ≤ now) (hnew : t ∉ s.started) :
    Sound { s with tracker := s.tracker.startMiss now t, cycle := now, started := s.started ++ [t] } := by
  have hinsert : s.tracker.startMiss now t =
      { s.tracker with theMissTable := s.tracker.theMissTable ++ [⟨.kStart_Unknown, now, t⟩] } :=
    MissTracker.insert_eq fun x hx => (h.cycles x (List.mem_append_right _ hx)).trans hnow
  have hmarks : marks (s.processed ++ (s.tracker.theMissTable ++ [⟨.kStart_Unknown, now, t⟩])) =
      marks s.events ++ [⟨(t, .Unknown), now, true⟩] := by
    rw [← List.append_assoc, marks_append]
    rfl
  have hother : ∀ a ∈ marks s.events, a.key.1 ≠ t := by
    rintro a ha rfl
    obtain ⟨e, he, rfl⟩ := mem_marks.mp ha
    exact hnew (h.started e he)
  rw [hinsert]
  refine ⟨?_, ?_, ?_, ?_, ?_, ⟨h.accounts.miss, h.accounts.nonCoherence, h.accounts.coherence⟩, h.classes,
    h.counters, ?_, h.inits, h.seen⟩
  · rw [events, hmarks]
    exact h.orderly.enter rfl (h.le_now hnow) fun a ha hkey => hother a ha (congrArg Prod.fst hkey)
  · rw [events, hmarks, entered_enter rfl, List.map_append, List.map_singleton, ← List.concat_eq_append]
    refine h.once.concat fun hmem => ?_
    obtain ⟨a, ha, hkey⟩ := List.mem_map.mp hmem
    exact hother a (mem_entered.mp ha).1 hkey
  · intro e he
    rw [events, ← List.append_assoc] at he
    obtain he | he := List.mem_append.mp he
    · exact List.mem_append_left _ (h.started e he)
    · rw [List.mem_singleton.mp he]
      exact List.mem_append_right _ List.mem_cons_self
  · intro e he
    rw [events, ← List.append_assoc] at he
    obtain he | he := List.mem_append.mp he
    · exact (h.cycles e he).trans hnow
    · rw [List.mem_singleton.mp he]
  · intro e he
    obtain he | he := List.mem_append.mp he
    · exact h.waiting e he
    · rw [List.mem_singleton.mp he]
      exact fun ht => hnew (h.contended_started ht)
  · intro f hf
    obtain ⟨hkind, hmem⟩ := h.finished f hf
    refine ⟨hkind, ?_⟩
    rw [events, hmarks, entered_enter rfl, List.map_append]
    exact List.mem_append_left _ hmem

variable {before rest : List MissEvent} {view : Nat → TransactionTracker}

/-- The start of a miss gets its type, and its end is added. -/
theorem Sound.settle {starts ends : eMissType} (h : s.Sound) (hnow : s.cycle ≤ now)
    (htable : s.tracker.theMissTable = before ++ e :: rest) (hunknown : e.theType = .kStart_Unknown)
    (hstarts : starts.starts = true) (hends : ends.starts = false) (hkinds : ends.kind = starts.kind)
    (hkind : starts.kind ≠ .Unknown) :
    Sound { s with
      tracker := { s.tracker with
        theMissTable := before ++ { e with theType := starts } :: rest ++ [⟨ends, now, e.theTracker⟩] }
      cycle := now
      finished := s.finished ++ [(e.theTracker, starts.kind)] } := by
  let e' : MissEvent := { e with theType := starts }
  have hevents : s.events = s.processed ++ before ++ e :: rest := by rw [events, htable, List.append_assoc]
  have hmem : e ∈ s.events := hevents ▸ List.mem_append_right _ List.mem_cons_self
  have hmarks : marks s.events = marks (s.processed ++ before) ++ e.mark :: marks rest := by
    rw [hevents, marks_append]
    rfl
  have hmarks' : marks (s.processed ++ (before ++ e' :: rest ++ [⟨ends, now, e.theTracker⟩])) =
      (marks (s.processed ++ before) ++ e'.mark :: marks rest) ++ [⟨(e.theTracker, ends.kind), now, false⟩] := by
    rw [← List.append_assoc, ← List.append_assoc, marks_append, marks_append]
    rw [← hends]
    rfl
  have hcame : e.theType.starts = true := by rw [hunknown]; rfl
  have hcame' : e'.mark.enters = true := hstarts
  -- every mark of the tracker is of an unknown kind until now
  have hother : ∀ a ∈ marks s.events, a.key ≠ (e.theTracker, starts.kind) := by
    intro a ha hkey
    have hsame := (h.unique hmem hcame ha (congrArg Prod.fst hkey)).1
    rw [hkey] at hsame
    exact hkind ((congrArg Prod.snd hsame).trans (by rw [MissEvent.mark, hunknown]; rfl))
  have hrekey : Orderly (marks (s.processed ++ before) ++ e'.mark :: marks rest) := by
    refine (hmarks ▸ h.orderly).rekey hcame hcame' rfl ?_ ?_
    · intro a ha hkey
      refine left_known (hmarks ▸ ha : a ∈ left (marks s.events)) ?_
      rw [hkey, MissEvent.mark, hunknown]
      rfl
    · intro a ha
      apply hother a
      rw [hmarks, List.mem_append, List.mem_cons]
      exact (List.mem_append.mp ha).imp_right .inr
  have hsame : ∀ a ∈ marks (s.processed ++ before) ++ e'.mark :: marks rest, a = e'.mark ∨ a ∈ marks s.events := by
    intro a ha
    rw [hmarks]
    rw [List.mem_append, List.mem_cons] at ha ⊢
    obtain ha | rfl | ha := ha
    · exact .inr (.inl ha)
    · exact .inl rfl
    · exact .inr (.inr (.inr ha))
  have hall : ∀ x ∈ s.processed ++ (before ++ e' :: rest ++ [⟨ends, now, e.theTracker⟩]),
      x.theTracker = e.theTracker ∧ x.theCycle ≤ now ∨ x ∈ s.events := by
    intro x hx
    rw [hevents]
    simp only [List.mem_append, List.mem_cons, List.not_mem_nil, or_false] at hx ⊢
    obtain hx | (hx | rfl | hx) | rfl := hx
    · exact .inr (.inl (.inl hx))
    · exact .inr (.inl (.inr hx))
    · exact .inl ⟨rfl, (h.cycles e hmem).trans hnow⟩
    · exact .inr (.inr (.inr hx))
    · exact .inl ⟨rfl, Nat.le_refl _⟩
  have hentered : entered (marks (s.processed ++ before) ++ e'.mark :: marks rest) =
      entered (marks (s.processed ++ before)) ++ e'.mark :: entered (marks rest) := by
    rw [entered_append, entered_cons_of_enters hcame']
  have hentered' : entered (marks s.events) =
      entered (marks (s.processed ++ before)) ++ e.mark :: entered (marks rest) := by
    rw [hmarks, entered_append, entered_cons_of_enters hcame]
  refine ⟨?_, ?_, ?_, ?_, ?_, ⟨h.accounts.miss, h.accounts.nonCoherence, h.accounts.coherence⟩, h.classes,
    h.counters, ?_, h.inits, h.seen⟩
  · rw [events, hmarks']
    refine hrekey.leave rfl ?_ ⟨e'.mark, ?_, congrArg (Prod.mk _) hkinds.symm⟩ ?_
    · intro a ha
      obtain rfl | ha := hsame a ha
      · exact (h.cycles e hmem).trans hnow
      · exact h.le_now hnow a ha
    · rw [hentered]
      exact List.mem_append_right _ List.mem_cons_self
    · intro a ha hkey
      obtain ⟨ha, hleaves⟩ := mem_left.mp ha
      obtain rfl | ha := hsame a ha
      · exact Bool.false_ne_true (hleaves.symm.trans hcame')
      · exact hother a ha (hkey.trans (congrArg (Prod.mk _) hkinds))
  · have honce := h.once
    rw [hentered', List.map_append, List.map_cons] at honce
    rw [events, hmarks', entered_leave rfl, hentered, List.map_append, List.map_cons]
    exact honce
  · intro x hx
    obtain ⟨htracker, -⟩ | hx := hall x hx
    · exact htracker ▸ h.started e hmem
    · exact h.started x hx
  · intro x hx
    obtain ⟨-, hle⟩ | hx := hall x hx
    · exact hle
    · exact (h.cycles x hx).trans hnow
  · intro x hx
    have hwaits : e.theTracker ∉ s.contended := h.waiting e (htable ▸ List.mem_append_right _ List.mem_cons_self)
    simp only [List.mem_append, List.mem_cons, List.not_mem_nil, or_false] at hx
    obtain (hx | rfl | hx) | rfl := hx
    · exact h.waiting x (htable ▸ List.mem_append_left _ hx)
    · exact hwaits
    · exact h.waiting x (htable ▸ List.mem_append_right _ (List.mem_cons_of_mem _ hx))
    · exact hwaits
  · intro f hf
    rw [events, hmarks', entered_leave rfl, hentered, List.map_append, List.map_cons]
    obtain hf | hf := List.mem_append.mp hf
    · obtain ⟨hkind, hmem⟩ := h.finished f hf
      refine ⟨hkind, ?_⟩
      rw [hentered', List.map_append, List.map_cons, List.mem_append, List.mem_cons] at hmem
      rw [List.mem_append, List.mem_cons]
      obtain hmem | rfl | hmem := hmem
      · exact .inl hmem
      · exact absurd (by rw [MissEvent.mark, hunknown]; rfl) hkind
      · exact .inr (.inr hmem)
    · rw [List.mem_singleton.mp hf]
      exact ⟨hkind, List.mem_append_right _ List.mem_cons_self⟩

/-! ## The passes of the loop -/

variable {front : MissEvent}

/-- Nothing of a miss is processed before its start, and it has no other start. -/
theorem Sound.fresh (h : s.Sound) (htable : s.tracker.theMissTable = front :: rest)
    (hstarts : front.theType.starts = true) :
    (∀ e ∈ s.processed, e.theTracker ≠ front.theTracker) ∧
      ∀ e ∈ rest, e.theType.starts = true → e.theTracker ≠ front.theTracker := by
  have hevents : s.events = s.processed ++ front :: rest := by rw [events, htable]
  have hmarks : marks s.events = marks s.processed ++ front.mark :: marks rest := by
    rw [hevents, marks_append]
    rfl
  have honce := h.once
  rw [hmarks, entered_append, entered_cons_of_enters hstarts, List.map_append, List.map_cons, List.nodup_middle,
    List.nodup_cons, ← List.map_append, ← entered_append, ← marks_append] at honce
  have honly : ∀ e ∈ s.processed ++ rest, e.theType.starts = true → e.theTracker ≠ front.theTracker := by
    intro e he hcame htracker
    refine honce.1 (List.mem_map.mpr ⟨e.mark, ?_, htracker⟩)
    exact mem_entered.mpr ⟨mem_marks.mpr ⟨e, he, rfl⟩, hcame⟩
  refine ⟨fun e he htracker => ?_, fun e he => honly e (List.mem_append_right _ he)⟩
  cases hcame : e.theType.starts with
  | true => exact honly e (List.mem_append_left _ he) hcame htracker
  | false =>
    have hafter := h.orderly.after
    rw [hmarks] at hafter
    have hmem : e.mark ∈ marks s.processed := mem_marks.mpr ⟨e, he, rfl⟩
    refine (List.pairwise_append.mp hafter).2.2 _ hmem _ List.mem_cons_self hcame hstarts ?_
    refine (h.unique (hevents ▸ List.mem_append_right _ List.mem_cons_self) hstarts ?_ htracker).1
    exact hmarks ▸ List.mem_append_left _ hmem

theorem Sound.prefix_processed (h : s.Sound) {v : List MissEvent × MissTracker} (hv : v ∈ s.seen) :
    v.1 <+: s.processed := by
  have hmem : v.1 ∈ [] :: s.seen.map Prod.fst := List.mem_cons_of_mem _ (List.mem_map_of_mem hv)
  rw [h.inits] at hmem
  exact List.mem_inits _ _ |>.mp hmem

theorem inits_append_singleton (es : List MissEvent) (front : MissEvent) :
    (es ++ [front]).inits = es.inits ++ [es ++ [front]] := by
  rw [List.inits_append]
  rfl

theorem keys_append (es : List MissEvent) (front : MissEvent) :
    (entered (marks (es ++ [front]))).map Mark.key =
      if front.theType.starts then (entered (marks es)).map Mark.key ++ [(front.theTracker, front.theType.kind)]
      else (entered (marks es)).map Mark.key := by
  have hmarks : marks (es ++ [front]) = marks es ++ [front.mark] := marks_append es [front]
  rw [hmarks]
  split
  · next hstarts =>
    rw [entered_enter hstarts, List.map_append]
    rfl
  · next hends => rw [entered_leave (Bool.eq_false_iff.mpr hends)]

theorem Sound.counted_front (h : s.Sound) (htable : s.tracker.theMissTable = front :: rest) :
    s.counted (s.processed ++ [front]) = s.counted s.processed ++ [front] := by
  have hwaits := h.waiting front (htable ▸ List.mem_cons_self)
  rw [counted, counted, List.filter_append, List.filter_cons_of_pos (by simpa using hwaits), List.filter_nil]

/-- A pass that accounts for the event at the front. -/
theorem Sound.account {m' : MissTracker} {classified' : List (Nat × Bool × MissClass)} (h : s.Sound)
    (htable : s.tracker.theMissTable = front :: m'.theMissTable)
    (haccounts : m'.Accounts (s.counted s.processed ++ [front]))
    (hcontended : classified'.filter (fun c => c.2.2 = .CohContend) = s.classified.filter fun c => c.2.2 = .CohContend)
    (hclasses : classified'.map (fun c => (c.1, c.2.2.kind)) =
      (entered (marks (s.processed ++ [front]))).map Mark.key)
    (hcounters : m'.counters.Counts classified') :
    Sound { s with
      tracker := m'
      processed := s.processed ++ [front]
      classified := classified'
      seen := s.seen ++ [(s.processed ++ [front], m')] } := by
  have hevents : s.processed ++ [front] ++ m'.theMissTable = s.events := by
    rw [events, htable, List.append_assoc, List.singleton_append]
  have hsame : ∀ es, MissHistory.counted ⟨m', s.cycle, s.started, s.finished, s.processed ++ [front], classified',
      s.seen ++ [(s.processed ++ [front], m')]⟩ es = s.counted es := by
    intro es
    rw [counted, counted, contended, contended, hcontended]
  rw [← h.counted_front htable] at haccounts
  refine ⟨?_, ?_, ?_, ?_, ?_, ?_, hclasses, hcounters, ?_, ?_, ?_⟩
  · rw [events, hevents]
    exact h.orderly
  · rw [events, hevents]
    exact h.once
  · rw [events, hevents]
    exact h.started
  · rw [events, hevents]
    exact h.cycles
  · intro e he
    rw [contended, hcontended]
    exact h.waiting e (htable ▸ List.mem_cons_of_mem _ he)
  · rw [hsame]
    exact haccounts
  · rw [events, hevents]
    exact h.finished
  · rw [inits_append_singleton, ← h.inits, List.map_append]
    rfl
  · intro v hv
    rw [hsame]
    obtain hv | hv := List.mem_append.mp hv
    · exact h.seen v hv
    · rw [List.mem_singleton.mp hv]
      exact haccounts

/-- A pass that counts a contended miss and takes its end out of the table. -/
theorem Sound.contend {m' : MissTracker} {system : Bool} (h : s.Sound)
    (htable : s.tracker.theMissTable = front :: rest) (htype : front.theType = .kStart_Coherence)
    (hrest : m'.theMissTable = s.tracker.theMissTable.filter fun e => e.theTracker ≠ front.theTracker)
    (haccounts : m'.Accounts (s.counted s.processed))
    (hcounters : m'.counters.Counts (s.classified ++ [(front.theTracker, system, .CohContend)])) :
    Sound { s with
      tracker := m'
      processed := s.processed ++ [front]
      classified := s.classified ++ [(front.theTracker, system, .CohContend)]
      seen := s.seen ++ [(s.processed ++ [front], m')] } := by
  have hstarts : front.theType.starts = true := by rw [htype]; rfl
  obtain ⟨hprocessed, hlater⟩ := h.fresh htable hstarts
  -- the end of the miss is left out
  have hevents : s.processed ++ [front] ++ m'.theMissTable =
      s.events.filter fun e => e.theType.starts || decide (e.theTracker ≠ front.theTracker) := by
    rw [hrest, events, htable, List.filter_cons_of_neg (by simp), List.filter_append,
      List.filter_cons_of_pos (by rw [hstarts]; rfl), List.append_assoc, List.singleton_append]
    congr 1
    · exact (List.filter_eq_self.mpr fun e he => by rw [decide_eq_true (hprocessed e he), Bool.or_true]).symm
    · congr 1
      apply List.filter_congr
      intro e he
      cases hcame : e.theType.starts with
      | true => rw [decide_eq_true (hlater e he hcame), Bool.or_true]
      | false => rw [Bool.false_or]
  have hmarks : marks (s.processed ++ [front] ++ m'.theMissTable) =
      (marks s.events).filter fun a => a.enters || decide (a.key.1 ≠ front.theTracker) := by
    rw [hevents, marks, marks, List.filter_map]
    rfl
  obtain ⟨hentered, horderly⟩ := h.orderly.forget (fun a => a.enters || decide (a.key.1 ≠ front.theTracker))
    fun a _ hout => (Bool.or_eq_false_iff.mp hout).1
  rw [← hmarks] at hentered horderly
  have hsub : ∀ e ∈ s.processed ++ [front] ++ m'.theMissTable, e ∈ s.events := by
    intro e he
    rw [hevents] at he
    exact List.mem_of_mem_filter he
  have hcontended : ∀ es, MissHistory.contended ⟨m', s.cycle, s.started, s.finished, s.processed ++ [front],
      s.classified ++ [(front.theTracker, system, .CohContend)], es⟩ = s.contended ++ [front.theTracker] := by
    intro es
    rw [contended, contended, List.filter_append, List.map_append]
    rfl
  have hsame : ∀ es, (∀ e ∈ es, e.theTracker ≠ front.theTracker) →
      (es.filter fun e => decide (e.theTracker ∉ s.contended ++ [front.theTracker])) = s.counted es := by
    intro es hother
    apply List.filter_congr
    intro e he
    rw [decide_eq_decide, List.mem_append, List.mem_singleton]
    simp [hother e he]
  have hfront : ((s.processed ++ [front]).filter fun e => decide (e.theTracker ∉ s.contended ++ [front.theTracker])) =
      s.counted s.processed := by
    rw [List.filter_append, hsame _ hprocessed, List.filter_cons_of_neg (by simp), List.filter_nil, List.append_nil]
  refine ⟨horderly, ?_, ?_, ?_, ?_, ?_, ?_, hcounters, ?_, ?_, ?_⟩
  · rw [events, hentered]
    exact h.once
  · exact fun e he => h.started e (hsub e he)
  · exact fun e he => h.cycles e (hsub e he)
  · intro e he
    rw [hrest] at he
    obtain ⟨he, hother⟩ := List.mem_filter.mp he
    rw [hcontended, List.mem_append, List.mem_singleton, not_or]
    exact ⟨h.waiting e he, of_decide_eq_true hother⟩
  · rw [counted, hcontended, hfront]
    exact haccounts
  · rw [List.map_append, h.classes, keys_append, if_pos hstarts, htype]
    rfl
  · rw [events, hentered]
    exact h.finished
  · rw [inits_append_singleton, ← h.inits, List.map_append]
    rfl
  · intro v hv
    rw [counted, hcontended]
    obtain hv | hv := List.mem_append.mp hv
    · rw [hsame _ fun e he => hprocessed e ((h.prefix_processed hv).subset he)]
      exact h.seen v hv
    · rw [List.mem_singleton.mp hv, hfront]
      exact haccounts

theorem classOf_spec (t : TransactionTracker) (hknown : front.theType ≠ .kStart_Unknown)
    (hstarts : front.theType.starts = true) :
    classOf t front false ≠ .CohContend ∧ (classOf t front false).kind = front.theType.kind := by
  obtain ⟨type, cycle, tracker⟩ := front
  cases type with
  | kStart_Unknown => exact absurd rfl hknown
  | kStart_Coherence =>
    rw [classOf]
    simp only [Bool.false_eq_true, if_false]
    split <;> decide
  | kStart_WrongPath | kStart_NonCoherence => exact ⟨nofun, rfl⟩
  | kEnd_Coherence | kEnd_NonCoherence | kEnd_WrongPath => cases hstarts

/-- The events that are accounted for are in order. -/
theorem Sound.counted_orderly (h : s.Sound) (hes : es <+: s.events) : Orderly (marks (s.counted es)) := by
  obtain ⟨later, hlater⟩ := hes
  have horderly := h.orderly
  rw [← hlater, marks_append] at horderly
  have hkeys := horderly.initial.ofKeys fun k => decide (k.1 ∉ s.contended)
  rw [marks, List.filter_map] at hkeys
  exact hkeys

theorem Sound.pass {s' : MissHistory} (h : s.Sound) (hpass : s.pass view = some s') : s'.Sound := by
  rw [MissHistory.pass] at hpass
  split at hpass
  · cases hpass
  · next front rest htable =>
    rw [MissTracker.pass, htable] at hpass
    simp only at hpass
    split at hpass
    · cases hpass
    · next hknown =>
      have hfront : s.counted (s.processed ++ [front]) = s.counted s.processed ++ [front] :=
        h.counted_front htable
      have horderly : Orderly (marks (s.counted s.processed ++ [front])) := by
        rw [← hfront]
        apply h.counted_orderly
        rw [events, htable]
        exact ⟨rest, List.append_cons .. |>.symm⟩
      have haccounts := h.accounts.process (t := view front.theTracker) horderly hknown
      obtain ⟨htype, hprocess⟩ | ⟨address, hprocess⟩ :=
        MissTracker.process_cases s.tracker (view front.theTracker) hknown
      · rw [hprocess] at hpass haccounts
        obtain rfl := Option.some.inj hpass
        have hstarts : front.theType.starts = true := by rw [htype]; rfl
        have hclass : classOf (view front.theTracker) front true = .CohContend := by rw [classOf, htype]; rfl
        rw [note, if_pos hstarts, hclass]
        exact h.contend htable htype rfl ⟨haccounts.miss, haccounts.nonCoherence, haccounts.coherence⟩
          (h.counters.count front.theTracker _ _)
      · rw [hprocess] at hpass haccounts
        obtain rfl := Option.some.inj hpass
        refine h.account htable ⟨haccounts.miss, haccounts.nonCoherence, haccounts.coherence⟩ ?_ ?_ ?_
        · split
          · next hstarts =>
            rw [List.filter_append, List.filter_cons_of_neg, List.filter_nil, List.append_nil]
            simpa using (classOf_spec (view front.theTracker) hknown hstarts).1
          · rfl
        · rw [keys_append]
          split
          · next hstarts =>
            rw [List.map_append, h.classes, List.map_singleton, (classOf_spec _ hknown hstarts).2]
          · exact h.classes
        · dsimp only
          split
          · exact h.counters.count ..
          · exact h.counters

theorem Sound.processTable (h : s.Sound) (view : Nat → TransactionTracker) : (s.processTable view).Sound := by
  fun_induction MissHistory.processTable view s with
  | case1 s hpass => exact h
  | case2 s s' hpass ih => exact ih (h.pass hpass)

/-! ## Runs -/

/-- The loop has ended. -/
def Waits (s : MissHistory) : Prop := ∀ e ∈ s.tracker.theMissTable.head?, e.theType = .kStart_Unknown

theorem waits_of_pass (h : s.pass view = none) : s.Waits := by
  have hpass := pass_tracker s view
  rw [h] at hpass
  intro e he
  cases htable : s.tracker.theMissTable with
  | nil =>
    rw [htable] at he
    cases he
  | cons front rest =>
    rw [htable] at he
    obtain rfl := Option.some.inj he
    by_contra hknown
    rw [MissTracker.pass, htable] at hpass
    simp only [if_neg hknown] at hpass
    split at hpass <;> cases hpass

theorem processTable_waits (s : MissHistory) (view : Nat → TransactionTracker) : (s.processTable view).Waits := by
  fun_induction MissHistory.processTable view s with
  | case1 s hpass => exact waits_of_pass hpass
  | case2 s s' hpass ih => exact ih

theorem Sound.later (h : s.Sound) (hnow : s.cycle ≤ now) : Sound { s with cycle := now } :=
  { h with cycles := fun e he => (h.cycles e he).trans hnow }

theorem Sound.step {s' : MissHistory} {call : Nat × MissCall} (h : s.Sound) (hwaits : s.Waits) (hvalid : s.Valid call)
    (hstep : s.step call = .ok s') : s'.Sound ∧ s'.Waits := by
  obtain ⟨now, call⟩ := call
  obtain ⟨hnow, hcall⟩ := hvalid
  cases call with
  | startMiss t =>
    obtain rfl := Except.ok.inj hstep
    refine ⟨h.startMiss hnow hcall, ?_⟩
    have hinsert : s.tracker.startMiss now t = _ :=
      MissTracker.insert_eq fun x hx => (h.cycles x (List.mem_append_right _ hx)).trans hnow
    intro e he
    rw [hinsert] at he
    dsimp only at he
    rw [List.head?_append] at he
    cases hfront : s.tracker.theMissTable.head? with
    | none =>
      rw [hfront] at he
      obtain rfl := Option.some.inj he
      rfl
    | some front =>
      rw [hfront] at he
      exact hwaits e (hfront.trans he)
  | finishMiss view tracker =>
    simp only [MissHistory.step] at hstep
    cases hsettle : s.tracker.settle view now tracker with
    | error f =>
      rw [hsettle] at hstep
      cases hstep
    | ok m =>
      rw [hsettle] at hstep
      obtain rfl := Except.ok.inj hstep
      refine ⟨Sound.processTable ?_ view, processTable_waits _ view⟩
      obtain ⟨rfl, hfound⟩ | ⟨e, before, rest, htable, hunknown, hfound, rfl⟩ :=
        MissTracker.settle_cases hsettle fun x hx => (h.cycles x (List.mem_append_right _ hx)).trans hnow
      · rw [hfound, List.map_nil, List.append_nil]
        exact h.later hnow
      · obtain ⟨hstarts, hends, hkinds, hkind⟩ := MissTracker.finishTypes_spec (view e.theTracker)
        rw [hfound, List.map_singleton]
        exact h.settle hnow htable hunknown hstarts hends hkinds hkind

theorem run_sound (h : Reaches step Valid empty s) : s.Sound ∧ s.Waits :=
  h.invariant (I := fun s => s.Sound ∧ s.Waits) ⟨sound_empty, nofun⟩
    fun _ _ _ hinv hvalid hstep => hinv.1.step hinv.2 hvalid hstep

/-- After every event that is processed, and at all times between the calls, each count is in 32
    bits the number of starts less the number of ends of its kind, of the misses that are not
    contended, and there are no more ends than starts. Every end comes behind its start. The table
    is processed up to a miss that is not finished. Every finished miss is in one class, or its
    start waits in the table. The cycles that are recorded cover the time until the last event of a
    miss that is not contended, each under the number of these misses that last through it. -/
theorem run_accounts (h : Reaches step Valid empty s) :
    ([] :: s.seen.map Prod.fst = s.processed.inits ∧ (∀ v ∈ s.seen, v.2.Accounts (s.counted v.1)) ∧
      s.tracker.Accounts (s.counted s.processed)) ∧
    Orderly (marks (s.processed ++ s.tracker.theMissTable)) ∧
    (∀ e ∈ s.tracker.theMissTable.head?, e.theType = .kStart_Unknown) ∧
    ((s.classified.map Prod.fst).Nodup ∧ s.tracker.counters.Counts s.classified ∧
      ∀ f ∈ s.finished, (∃ c ∈ s.classified, (c.1, c.2.2.kind) = f) ∨
        ∃ e ∈ s.tracker.theMissTable, e.theType.starts = true ∧ (e.theTracker, e.theType.kind) = f) ∧
    Covers 0 (stretches (marks (s.counted s.processed))) (lastTime (marks (s.counted s.processed))) ∧
    ∀ i ∈ stretches (marks (s.counted s.processed)), i.opens < i.closes →
      i.present = (through (marks (s.counted s.events)) i).length := by
  obtain ⟨hsound, hwaits⟩ := run_sound h
  have hentered : entered (marks s.events) = entered (marks s.processed) ++ entered (marks s.tracker.theMissTable) := by
    rw [events, marks_append, entered_append]
  refine ⟨⟨hsound.inits, hsound.seen, hsound.accounts⟩, hsound.orderly, hwaits, ⟨?_, hsound.counters, ?_⟩, ?_, ?_⟩
  · have hfst : s.classified.map Prod.fst = (entered (marks s.processed)).map fun a => a.key.1 := by
      have hclasses := congrArg (List.map Prod.fst) hsound.classes
      rwa [List.map_map, List.map_map] at hclasses
    have honce := hsound.once
    rw [hentered, List.map_append] at honce
    rw [hfst]
    exact (List.nodup_append.mp honce).1
  · intro f hf
    have hmem := (hsound.finished f hf).2
    rw [hentered, List.map_append, ← hsound.classes, List.mem_append] at hmem
    obtain hmem | hmem := hmem
    · exact .inl (List.mem_map.mp hmem)
    · obtain ⟨a, ha, hkey⟩ := List.mem_map.mp hmem
      obtain ⟨ha, hstarts⟩ := mem_entered.mp ha
      obtain ⟨e, he, rfl⟩ := mem_marks.mp ha
      exact .inr ⟨e, he, hstarts, hkey⟩
  · exact (hsound.counted_orderly (List.prefix_append _ _)).covers
  · intro i hi
    apply (hsound.counted_orderly (List.prefix_refl _)).present_stretch
    rw [counted, events, List.filter_append, marks_append]
    exact mem_stretches_append hi _

/-! ## A contended miss -/

instance (s : MissHistory) (e : Nat × MissCall) : Decidable (s.Valid e) :=
  match e with
  | (_, .startMiss _) => inferInstanceAs (Decidable (_ ∧ _ ∉ _))
  | (_, .finishMiss _ _) => inferInstanceAs (Decidable (_ ∧ True))

/-- A miss of a user. -/
def userMiss (address : BitVec 64) (fillType : tFillType) (startCycle : Nat) : TransactionTracker :=
  ⟨some address, startCycle, none, none, some fillType, none⟩

/-- A coherence miss, a replacement miss that is finished first, and a miss that starts with its
    end. -/
def threeMisses : List (Nat × MissCall) :=
  [(10, .startMiss 1), (20, .startMiss 2),
    (30, .finishMiss (fun _ => userMiss 0x2000 .eReplacement 20) (some 2)), (40, .startMiss 3),
    (40, .finishMiss (fun _ => userMiss 0x1000 .eCoherence 10) (some 1)),
    (40, .finishMiss (fun _ => userMiss 0x3000 .eCold 40) (some 3))]

/-- Two coherence misses to a block, one after the other. -/
def twoMisses : List (Nat × MissCall) :=
  [(10, .startMiss 1), (20, .finishMiss (fun _ => userMiss 0x1000 .eCoherence 10) (some 1)), (30, .startMiss 2),
    (40, .finishMiss (fun _ => userMiss 0x1000 .eCoherence 30) (some 2))]

/-- After three misses to different blocks, which overlap. -/
theorem run_accounts_threeMisses : ∃ s, Reaches step Valid empty s ∧ s.processed.length = 6 ∧
    s.tracker.Accounts (s.counted s.processed) ∧
    Covers 0 (stretches (marks (s.counted s.processed))) (lastTime (marks (s.counted s.processed))) := by
  have hrun : ((runWhile step (fun s e => decide (s.Valid e)) empty threeMisses).any fun s =>
      s.processed.length = 6) = true := by
    decide +kernel
  obtain ⟨s, hreaches, hlength⟩ := exists_reaches (fun _ _ h => of_decide_eq_true h) hrun
  have haccounts := run_accounts hreaches
  exact ⟨s, hreaches, of_decide_eq_true hlength, haccounts.1.2.2, haccounts.2.2.2.2.1⟩

/-- The second miss is contended. Its start at cycle 30 is the last event that was processed, but no
    cycles after 20 are recorded, and no outstanding miss is counted. -/
theorem not_covered : ∃ s, Reaches step Valid empty s ∧
    s.processed.getLast?.map MissEvent.theCycle = some 30 ∧
    (s.tracker.miss.theCyclesWithN.map Prod.snd).sum = 20 ∧
    (entered (marks s.processed)).length = 2 ∧ (left (marks s.processed)).length = 1 ∧
    s.tracker.miss.theCount = 0 := by
  have hrun : ((runWhile step (fun s e => decide (s.Valid e)) empty twoMisses).any fun s =>
      s.processed.getLast?.map MissEvent.theCycle = some 30 ∧
      (s.tracker.miss.theCyclesWithN.map Prod.snd).sum = 20 ∧
      (entered (marks s.processed)).length = 2 ∧ (left (marks s.processed)).length = 1 ∧
      s.tracker.miss.theCount = 0) = true := by
    decide +kernel
  obtain ⟨s, hreaches, hobserved⟩ := exists_reaches (fun _ _ h => of_decide_eq_true h) hrun
  exact ⟨s, hreaches, of_decide_eq_true hobserved⟩

end MissHistory

end nCache
