import Flexus.Core.Permission

/-!
# The counters of the memory queue

What the functions that move entries through the queue do to the counters and to
the tracked lines: both stay sums over the entries.
-/

namespace nuArchARM

open Runs LSQ

namespace Place

def inLSQ (p : Place) : ℤ := if p.queue = .kLSQ then 1 else 0

def inSB (p : Place) : ℤ := if p.queue ≠ .kLSQ ∧ p.bypass = false then 1 else 0

def inNAW (p : Place) : ℤ := if p.queue ≠ .kLSQ ∧ p.bypass = true then 1 else 0

/-- A store or an atomic. -/
def writes (p : Place) : Bool :=
  p.op == .kStore || p.op == .kRMW || p.op == .kCAS || p.op == .kCASP

def needsLine (cfg : CoreConfig) (a : PhysicalMemoryAddress) (p : Place) : ℤ :=
  if p.queue ≠ .kLSQ ∧ p.writes = true ∧ cfg.line p.paddr = a then 1 else 0

theorem inLSQ_nonneg (p : Place) : 0 ≤ p.inLSQ := by
  unfold inLSQ
  split <;> decide

theorem inSB_nonneg (p : Place) : 0 ≤ p.inSB := by
  unfold inSB
  split <;> decide

theorem inNAW_nonneg (p : Place) : 0 ≤ p.inNAW := by
  unfold inNAW
  split <;> decide

theorem needsLine_nonneg {cfg : CoreConfig} {a : PhysicalMemoryAddress} (p : Place) :
    0 ≤ p.needsLine cfg a := by
  unfold needsLine
  split <;> decide

/-- An entry is counted once. -/
theorem counted_once (p : Place) : p.inLSQ + p.inSB + p.inNAW = 1 := by
  unfold inLSQ inSB inNAW
  by_cases hq : p.queue = .kLSQ <;> cases hb : p.bypass <;> simp [hq]

end Place

theorem writes_place (e : LSQEntry) : e.place.writes = (e.isStore || e.isAtomic) := by
  simp only [Place.writes, LSQEntry.place, MemQueueEntry.isStore, MemQueueEntry.isAtomic]
  cases e.theOperation <;> rfl

/-! ## Sums over the entries -/

abbrev tally (g : Place → ℤ) (ps : List Place) : ℤ := (ps.map g).sum

section Tally

variable {g : Place → ℤ} {ps : List Place} {p : Place} {s : Nat}

theorem tally_nonneg (hg : ∀ p, 0 ≤ g p) : 0 ≤ tally g ps := by
  apply List.sum_nonneg
  intro x hx
  obtain ⟨p, -, rfl⟩ := List.mem_map.mp hx
  exact hg p

theorem le_tally (hg : ∀ p, 0 ≤ g p) (hp : p ∈ ps) : g p ≤ tally g ps := by
  induction ps with
  | nil => cases hp
  | cons x ps ih =>
    have hrest : 0 ≤ tally g ps := tally_nonneg hg
    have hx := hg x
    simp only [tally, List.map_cons, List.sum_cons] at ih hrest ⊢
    rcases List.mem_cons.mp hp with rfl | hp
    · omega
    · have := ih hp
      omega

theorem tally_erase (hunique : (ps.map Place.seq).Nodup)
    (hp : Keyed.lookup Place.seq ps s = some p) :
    tally g (Keyed.erase Place.seq s ps) = tally g ps - g p := by
  have hsum := Keyed.sum_erase (k := s) (g := g) hunique
  rw [hp, Option.map_some, Option.getD_some] at hsum
  exact hsum

theorem tally_alter {f : Place → Place} (hunique : (ps.map Place.seq).Nodup)
    (hp : Keyed.lookup Place.seq ps s = some p) :
    tally g (Keyed.alter Place.seq s f ps) = tally g ps + (g (f p) - g p) := by
  have hsum := Keyed.sum_alter (k := s) (f := f) (g := g) hunique
  rw [hp, Option.map_some, Option.getD_some] at hsum
  exact hsum

/-- Entries that do not count may be dropped. -/
theorem tally_filter {keep : Place → Bool} (hdrop : ∀ p ∈ ps, keep p = false → g p = 0) :
    tally g (ps.filter keep) = tally g ps := by
  induction ps with
  | nil => rfl
  | cons x ps ih =>
    have hrest := ih fun p hp => hdrop p (List.mem_cons_of_mem _ hp)
    simp only [tally] at hrest
    cases hx : keep x with
    | true => simp [tally, hx, hrest]
    | false =>
      have hzero := hdrop x List.mem_cons_self hx
      simp [tally, hx, hrest, hzero]

theorem tally_filter_add {keep : Place → Bool} :
    tally g (ps.filter keep) + tally g (ps.filter fun p => !keep p) = tally g ps := by
  induction ps with
  | nil => rfl
  | cons x ps ih =>
    simp only [tally] at ih
    cases hx : keep x <;> simp [tally, hx] <;> omega

end Tally

/-! ## Balance -/

abbrev Core.places (c : Core) : List Place := placesOf c.theMemQueue

/-- The instructions, the checkpoints and where the core fetches. -/
structure Flow where
  theMemorySequenceNum : Nat
  theROB : List Instruction
  theSRB : List Instruction
  theCheckpoints : List Checkpoint
  theOpenCheckpoint : Option Nat
  theIsSpeculating : Bool
  theAbortSpeculation : Bool
  theViolatingInstruction : Nat
  thePC : VirtualMemoryAddress
  theRedirectRequested : Bool
  theRedirectPC : VirtualMemoryAddress

def Core.flow (c : Core) : Flow where
  theMemorySequenceNum := c.theMemorySequenceNum
  theROB := c.theROB
  theSRB := c.theSRB
  theCheckpoints := c.theCheckpoints
  theOpenCheckpoint := c.theOpenCheckpoint
  theIsSpeculating := c.theIsSpeculating
  theAbortSpeculation := c.theAbortSpeculation
  theViolatingInstruction := c.theViolatingInstruction
  thePC := c.thePC
  theRedirectRequested := c.theRedirectRequested
  theRedirectPC := c.theRedirectPC

/-- The counters are the sums they stand for. -/
structure Balanced (cfg : CoreConfig) (c : Core) : Prop where
  lsq : c.theLSQCount = tally Place.inLSQ c.places
  sb : c.theSBCount = tally Place.inSB c.places
  naw : c.theSBNAWCount = tally Place.inNAW c.places
  sane : c.thePermissions.Sane
  lines : ∀ a, c.thePermissions.countAt a = tally (Place.needsLine cfg a) c.places

variable {cfg : CoreConfig} {c c' : Core} {s low : Nat} {e : LSQEntry}

theorem Balanced.of_same (h : Balanced cfg c) (hplaces : c'.places = c.places)
    (hlsq : c'.theLSQCount = c.theLSQCount) (hsb : c'.theSBCount = c.theSBCount)
    (hnaw : c'.theSBNAWCount = c.theSBNAWCount) (hperm : c'.thePermissions = c.thePermissions) :
    Balanced cfg c' where
  lsq := by rw [hlsq, hplaces, h.lsq]
  sb := by rw [hsb, hplaces, h.sb]
  naw := by rw [hnaw, hplaces, h.naw]
  sane := hperm ▸ h.sane
  lines := by
    intro a
    rw [hperm, hplaces, h.lines]

theorem tally_total (ps : List Place) :
    tally Place.inLSQ ps + tally Place.inSB ps + tally Place.inNAW ps = (ps.length : ℤ) := by
  induction ps with
  | nil => rfl
  | cons p ps ih =>
    have hone := p.counted_once
    simp only [tally, List.map_cons, List.sum_cons, List.length_cons] at ih ⊢
    push_cast
    omega

theorem Balanced.checkCounts (h : Balanced cfg c) : c.checkCounts = .ok c := by
  have htotal := tally_total c.places
  rw [← h.lsq, ← h.sb, ← h.naw, List.length_map] at htotal
  rw [Core.checkCounts, if_pos htotal]

/-- The counters without an entry. -/
def Core.without (c : Core) (p : Place) : Core :=
  { c with
    theLSQCount := c.theLSQCount - p.inLSQ
    theSBCount := c.theSBCount - p.inSB
    theSBNAWCount := c.theSBNAWCount - p.inNAW }

theorem uncount_eq (hlsq : e.place.inLSQ ≤ c.theLSQCount) (hsb : e.place.inSB ≤ c.theSBCount)
    (hnaw : e.place.inNAW ≤ c.theSBNAWCount) : c.uncount e = .ok (c.without e.place) := by
  cases hq : e.theQueue with
  | kLSQ =>
    have hone : e.place.inLSQ = 1 := by simp [Place.inLSQ, LSQEntry.place, hq]
    have hnosb : e.place.inSB = 0 := by simp [Place.inSB, LSQEntry.place, hq]
    have hnonaw : e.place.inNAW = 0 := by simp [Place.inNAW, LSQEntry.place, hq]
    simp only [Core.uncount, hq, Core.leaveLSQ, Core.without, hone, hnosb, hnonaw, sub_zero]
    rw [if_neg (by omega)]
  | kSSB | kSB =>
    have hnolsq : e.place.inLSQ = 0 := by simp [Place.inLSQ, LSQEntry.place, hq]
    cases hb : e.theBypassSB with
    | true =>
      have hone : e.place.inNAW = 1 := by simp [Place.inNAW, LSQEntry.place, hq, hb]
      have hnosb : e.place.inSB = 0 := by simp [Place.inSB, LSQEntry.place, hb]
      simp only [Core.uncount, hq, hb, if_true, Core.without, hone, hnosb, hnolsq, sub_zero]
      rw [if_neg (by omega)]
    | false =>
      have hone : e.place.inSB = 1 := by simp [Place.inSB, LSQEntry.place, hq, hb]
      have hnonaw : e.place.inNAW = 0 := by simp [Place.inNAW, LSQEntry.place, hb]
      simp only [Core.uncount, hq, hb, Core.without, hone, hnonaw, hnolsq, sub_zero]
      rw [if_neg (by decide), if_neg (by omega)]

/-! ## Erasing -/

theorem unique_of_erase_none {ps : List Place} (h : Keyed.lookup Place.seq ps s = none) :
    Keyed.erase Place.seq s ps = ps := by
  have hno := Keyed.lookup_eq_none.mp h
  rw [Keyed.erase, List.filter_eq_self]
  intro p hp
  have hne : p.seq ≠ s := fun heq => hno (heq ▸ List.mem_map_of_mem hp)
  simpa using hne

/-- The permission an entry needs is given up with it. -/
theorem unrequire_place (hsane : c.thePermissions.Sane)
    (hpos : ∀ a, e.place.needsLine cfg a ≤ c.thePermissions.countAt a) :
    Yields NoCounter
      (if Core.needsPermission e then c.unrequireWritePermission cfg e.thePaddr else pure c)
      fun c' => c' = { c with thePermissions := c'.thePermissions } ∧ c'.thePermissions.Sane ∧
        ∀ a, c'.thePermissions.countAt a = c.thePermissions.countAt a - e.place.needsLine cfg a := by
  have hneeds : ∀ a, e.place.needsLine cfg a =
      if Core.needsPermission e = true ∧ cfg.line e.thePaddr = a then 1 else 0 := by
    intro a
    simp only [Place.needsLine, Core.needsPermission, writes_place, Bool.and_eq_true, bne_iff_ne,
      and_assoc]
    rfl
  refine .ite (fun hwrites => ?_) fun hreads => ?_
  · have hline : 0 < c.thePermissions.countAt (cfg.line e.thePaddr) := by
      have hle := hpos (cfg.line e.thePaddr)
      rw [hneeds, if_pos ⟨hwrites, rfl⟩] at hle
      omega
    refine .bind (Permissions.unrequire_yields hsane hline) ?_
    rintro p ⟨hp, hcount⟩
    refine .pure ⟨rfl, hp, ?_⟩
    intro a
    refine (hcount a).trans ?_
    rw [hneeds]
    by_cases ha : a = cfg.line e.thePaddr
    · rw [if_pos ha, if_pos ⟨hwrites, ha.symm⟩]
    · rw [if_neg ha, if_neg fun hboth => ha hboth.2.symm]
  · refine .pure ⟨rfl, hsane, ?_⟩
    intro a
    rw [hneeds, if_neg fun hboth => hreads hboth.1, sub_zero]

theorem eraseLSQ_yields (h : Balanced cfg c) (hunique : (c.places.map Place.seq).Nodup) :
    Yields NoCounter (c.eraseLSQ cfg s) fun c' =>
      Balanced cfg c' ∧ c'.places = Keyed.erase Place.seq s c.places ∧ c'.flow = c.flow := by
  rw [Core.eraseLSQ]
  cases hfind : findEntry c.theMemQueue s with
  | none =>
    have hnone : Keyed.lookup Place.seq c.places s = none := by rw [lookup_placesOf, hfind]; rfl
    exact .ok ⟨h, (unique_of_erase_none hnone).symm, rfl⟩
  | some e =>
    have hplace : Keyed.lookup Place.seq c.places s = some e.place := by
      rw [lookup_placesOf, hfind]; rfl
    have hmem : e.place ∈ c.places := (Keyed.mem_of_lookup hplace).1
    refine .bind breakMSHRLink_places ?_
    rintro ⟨q, ms⟩ hq
    dsimp only at hq ⊢
    refine .bind (.of_eq_ok (uncount_eq (h.lsq ▸ le_tally Place.inLSQ_nonneg hmem)
      (h.sb ▸ le_tally Place.inSB_nonneg hmem) (h.naw ▸ le_tally Place.inNAW_nonneg hmem)) rfl) ?_
    rintro c₁ rfl
    refine .bind (unrequire_place h.sane fun a =>
      (le_tally Place.needsLine_nonneg hmem).trans_eq (h.lines a).symm) ?_
    rintro c₂ ⟨hsame, hsane, hcount⟩
    rw [hsame]
    have herased : placesOf (Keyed.erase seqOf s q) = Keyed.erase Place.seq s c.places := by
      rw [placesOf_erase, hq]
    have hbalanced : Balanced cfg { c.without e.place with
        theMemQueue := Keyed.erase seqOf s q
        theMSHRs := ms
        thePermissions := c₂.thePermissions } := by
      refine ⟨?_, ?_, ?_, hsane, ?_⟩
      · rw [Core.places, herased, tally_erase hunique hplace, ← h.lsq]
        rfl
      · rw [Core.places, herased, tally_erase hunique hplace, ← h.sb]
        rfl
      · rw [Core.places, herased, tally_erase hunique hplace, ← h.naw]
        rfl
      · intro a
        rw [Core.places, herased, tally_erase hunique hplace, ← h.lines]
        exact hcount a
    exact .of_eq_ok hbalanced.checkCounts ⟨hbalanced, herased, rfl⟩

theorem clearLSQ_yields (h : Balanced cfg c) :
    Yields NoCounter c.clearLSQ fun c' =>
      Balanced cfg c' ∧ c'.places = (c.places.filter fun p => p.queue != .kLSQ) ∧
        c'.flow = c.flow := by
  have hplaces : placesOf (c.theMemQueue.filter fun e => e.theQueue != .kLSQ) =
      c.places.filter fun p => p.queue != .kLSQ := by
    rw [Core.places, placesOf, placesOf, List.filter_map]
    rfl
  have hqueue : ∀ p : Place, (p.queue != .kLSQ) = false → p.queue = .kLSQ := by
    intro p hp
    simpa using hp
  have hbalanced : Balanced cfg { c with
      theMemQueue := c.theMemQueue.filter fun e => e.theQueue != .kLSQ
      theLSQCount := 0 } := by
    refine ⟨?_, ?_, ?_, h.sane, ?_⟩
    · rw [Core.places, hplaces]
      symm
      apply List.sum_eq_zero
      intro x hx
      obtain ⟨p, hp, rfl⟩ := List.mem_map.mp hx
      have hne : p.queue ≠ .kLSQ := by simpa using (List.mem_filter.mp hp).2
      simp [Place.inLSQ, hne]
    · rw [Core.places, hplaces, tally_filter fun p _ hp => by simp [Place.inSB, hqueue p hp]]
      exact h.sb
    · rw [Core.places, hplaces, tally_filter fun p _ hp => by simp [Place.inNAW, hqueue p hp]]
      exact h.naw
    · intro a
      rw [Core.places, hplaces, tally_filter fun p _ hp => by simp [Place.needsLine, hqueue p hp]]
      exact h.lines a
  exact .of_eq_ok hbalanced.checkCounts ⟨hbalanced, hplaces, rfl⟩

/-! ## Clearing the speculative store buffer -/

theorem unrequireAll_yields {es : List LSQEntry} (hssb : ∀ e ∈ es, e.theQueue = .kSSB)
    (hsane : c.thePermissions.Sane) {base : PhysicalMemoryAddress → ℤ} (hbase : ∀ a, 0 ≤ base a)
    (hcount : ∀ a, c.thePermissions.countAt a = base a + tally (Place.needsLine cfg a) (placesOf es)) :
    Yields NoCounter (Core.unrequireAll cfg es c) fun c' =>
      c' = { c with thePermissions := c'.thePermissions } ∧ c'.thePermissions.Sane ∧
        ∀ a, c'.thePermissions.countAt a = base a := by
  induction es generalizing c with
  | nil =>
    refine .ok ⟨rfl, hsane, fun a => ?_⟩
    rw [hcount a]
    exact add_zero _
  | cons e es ih =>
    have hrest : ∀ x ∈ es, x.theQueue = .kSSB := fun x hx => hssb x (List.mem_cons_of_mem _ hx)
    have hsplit : ∀ a, c.thePermissions.countAt a =
        base a + (e.place.needsLine cfg a + tally (Place.needsLine cfg a) (placesOf es)) := hcount
    have hneeds : (e.isStore || e.isAtomic) = Core.needsPermission e := by
      simp [Core.needsPermission, hssb e List.mem_cons_self]
    rw [Core.unrequireAll, hneeds]
    refine .bind (unrequire_place hsane fun a => ?_) ?_
    · have hnonneg : 0 ≤ tally (Place.needsLine cfg a) (placesOf es) :=
        tally_nonneg Place.needsLine_nonneg
      have hb := hbase a
      rw [hsplit a]
      omega
    · rintro c₁ ⟨hsame, hsane₁, hcount₁⟩
      refine (ih hrest hsane₁ fun a => ?_).weaken ?_
      · rw [hcount₁, hsplit]
        ring
      · rintro c₂ ⟨hsame₂, hsane₂, hcount₂⟩
        refine ⟨?_, hsane₂, hcount₂⟩
        rw [hsame₂, hsame]

/-- The entries a rollback to an instruction takes from the speculative store buffer. -/
def speculativeFrom (low : Nat) (p : Place) : Bool := p.queue == .kSSB && decide (low ≤ p.seq)

theorem placesOf_filter {P : Place → Bool} {q : List LSQEntry} :
    placesOf (q.filter fun e => P e.place) = (placesOf q).filter P := by
  rw [placesOf, placesOf, List.filter_map]
  rfl

section Speculative

variable {es : List LSQEntry}

theorem countP_inSB (hssb : ∀ e ∈ es, e.theQueue = .kSSB) :
    ((es.countP fun e => !e.theBypassSB : Nat) : ℤ) = tally Place.inSB (placesOf es) := by
  induction es with
  | nil => rfl
  | cons e es ih =>
    have hrest := ih fun x hx => hssb x (List.mem_cons_of_mem _ hx)
    have hq := hssb e List.mem_cons_self
    simp only [tally, placesOf, List.map_cons, List.sum_cons] at hrest ⊢
    rw [List.countP_cons, ← hrest]
    cases hb : e.theBypassSB <;> simp [Place.inSB, LSQEntry.place, hq, hb]
    ring

theorem countP_inNAW (hssb : ∀ e ∈ es, e.theQueue = .kSSB) :
    ((es.countP fun e => e.theBypassSB : Nat) : ℤ) = tally Place.inNAW (placesOf es) := by
  induction es with
  | nil => rfl
  | cons e es ih =>
    have hrest := ih fun x hx => hssb x (List.mem_cons_of_mem _ hx)
    have hq := hssb e List.mem_cons_self
    simp only [tally, placesOf, List.map_cons, List.sum_cons] at hrest ⊢
    rw [List.countP_cons, ← hrest]
    cases hb : e.theBypassSB <;> simp [Place.inNAW, LSQEntry.place, hq, hb]
    ring

end Speculative

/-- With unique sequence numbers, erasing by them is erasing the entries. -/
theorem filter_not_any_seq {q : List LSQEntry} {P : Place → Bool}
    (hunique : ((placesOf q).map Place.seq).Nodup) :
    (q.filter fun e => !(q.filter fun e => P e.place).any fun x =>
      x.theSequenceNum == e.theSequenceNum) = q.filter fun e => !P e.place := by
  have hseq : (q.map seqOf).Nodup := by
    rw [List.map_map] at hunique
    exact hunique
  refine List.filter_congr fun e he => ?_
  congr 1
  cases hP : P e.place with
  | true =>
    rw [List.any_eq_true]
    exact ⟨e, List.mem_filter.mpr ⟨he, hP⟩, by simp⟩
  | false =>
    rw [List.any_eq_false]
    intro x hx heq
    obtain ⟨hxq, hxP⟩ := List.mem_filter.mp hx
    have hxe : x = e := List.inj_on_of_nodup_map hseq hxq he (by simpa using heq)
    rw [hxe, hP] at hxP
    cases hxP

theorem dropSSB_yields (h : Balanced cfg c) (hunique : (c.places.map Place.seq).Nodup)
    {es : List LSQEntry} (hes : es = c.theMemQueue.filter fun e => speculativeFrom low e.place) :
    Yields NoCounter (c.dropSSB cfg es es) fun c' =>
      Balanced cfg c' ∧ c'.places = (c.places.filter fun p => !speculativeFrom low p) ∧
        c'.flow = c.flow := by
  have hssb : ∀ e ∈ es, e.theQueue = .kSSB := by
    intro e he
    rw [hes] at he
    have hspec := (List.mem_filter.mp he).2
    simp only [speculativeFrom, Bool.and_eq_true, beq_iff_eq] at hspec
    exact hspec.1
  have hplaces : placesOf es = c.places.filter (speculativeFrom low) := by
    rw [hes]
    exact placesOf_filter
  have hsplit : ∀ g : Place → ℤ, tally g (placesOf es) +
      tally g (c.places.filter fun p => !speculativeFrom low p) = tally g c.places := by
    intro g
    rw [hplaces]
    exact tally_filter_add
  have hleft : placesOf (c.theMemQueue.filter fun e => !es.any fun x =>
      x.theSequenceNum == e.theSequenceNum) = c.places.filter fun p => !speculativeFrom low p := by
    rw [hes, filter_not_any_seq hunique]
    exact placesOf_filter (P := fun p => !speculativeFrom low p)
  rw [Core.dropSSB]
  refine .bind (unrequireAll_yields hssb h.sane
    (fun a => (tally_nonneg Place.needsLine_nonneg :
      0 ≤ tally (Place.needsLine cfg a) (c.places.filter fun p => !speculativeFrom low p)))
    fun a => ?_) ?_
  · rw [h.lines, ← hsplit]
    ring
  · rintro c₁ ⟨hsame, hsane, hcount⟩
    have hsb := countP_inSB hssb
    have hnaw := countP_inNAW hssb
    have hsbLeft := hsplit Place.inSB
    have hnawLeft := hsplit Place.inNAW
    have hlsqLeft := hsplit Place.inLSQ
    have hlsqNone : tally Place.inLSQ (placesOf es) = 0 := by
      apply List.sum_eq_zero
      intro x hx
      obtain ⟨p, hp, rfl⟩ := List.mem_map.mp hx
      obtain ⟨e, he, rfl⟩ := List.mem_map.mp hp
      simp [Place.inLSQ, LSQEntry.place, hssb e he]
    have hsbNonneg : 0 ≤ tally Place.inSB (c.places.filter fun p => !speculativeFrom low p) :=
      tally_nonneg Place.inSB_nonneg
    have hnawNonneg : 0 ≤ tally Place.inNAW (c.places.filter fun p => !speculativeFrom low p) :=
      tally_nonneg Place.inNAW_nonneg
    have hlsqOld := h.lsq
    have hsbOld := h.sb
    have hnawOld := h.naw
    rw [hsame]
    dsimp only
    rw [if_neg (by omega)]
    have hbalanced : Balanced cfg { c with
        thePermissions := c₁.thePermissions
        theMemQueue := c.theMemQueue.filter fun e => !es.any fun x =>
          x.theSequenceNum == e.theSequenceNum
        theSBCount := c.theSBCount - (es.countP fun e => !e.theBypassSB : Nat)
        theSBNAWCount := c.theSBNAWCount - (es.countP fun e => e.theBypassSB : Nat) } := by
      refine ⟨?_, ?_, ?_, hsane, ?_⟩
      · rw [Core.places, hleft]
        dsimp only
        omega
      · rw [Core.places, hleft]
        dsimp only
        omega
      · rw [Core.places, hleft]
        dsimp only
        omega
      · intro a
        rw [Core.places, hleft]
        exact hcount a
    exact .of_eq_ok hbalanced.checkCounts ⟨hbalanced, hleft, rfl⟩

theorem ssb_eq_filter : c.ssb = c.theMemQueue.filter fun e => speculativeFrom 0 e.place := by
  rw [Core.ssb]
  refine List.filter_congr fun e _ => ?_
  simp [speculativeFrom, LSQEntry.place]

theorem clearSSB_yields (h : Balanced cfg c) (hunique : (c.places.map Place.seq).Nodup) :
    Yields NoCounter (c.clearSSB cfg) fun c' =>
      Balanced cfg c' ∧ c'.places = (c.places.filter fun p => !speculativeFrom 0 p) ∧
        c'.flow = c.flow :=
  dropSSB_yields h hunique ssb_eq_filter

/-- In program order, what follows the first entry to discard is discarded. -/
theorem dropWhile_eq_filter {q : List LSQEntry} (hsorted : (q.map seqOf).Pairwise (· < ·)) :
    (q.dropWhile fun e => decide (e.theSequenceNum < low)) =
      q.filter fun e => decide (low ≤ e.theSequenceNum) := by
  induction q with
  | nil => rfl
  | cons e q ih =>
    obtain ⟨hhead, htail⟩ := List.pairwise_cons.mp hsorted
    by_cases hlt : e.theSequenceNum < low
    · rw [List.dropWhile_cons_of_pos (by simpa using hlt), ih htail,
        List.filter_cons_of_neg (by simpa using hlt)]
    · rw [List.dropWhile_cons_of_neg (by simpa using hlt)]
      symm
      rw [List.filter_eq_self]
      intro x hx
      rcases List.mem_cons.mp hx with rfl | hx
      · simpa using hlt
      · have hex : e.theSequenceNum < x.theSequenceNum := hhead _ (List.mem_map_of_mem hx)
        simp only [decide_eq_true_eq]
        omega

/-- Something to discard is found, or there is nothing to erase: the entries that are
    erased are those that are counted. -/
theorem clearSSBFrom_eq (hsorted : (c.places.map Place.seq).Pairwise (· < ·))
    (hfound : (∃ p ∈ c.places, speculativeFrom low p = true) ∨ c.ssb = []) :
    c.clearSSBFrom cfg low =
      c.dropSSB cfg (c.theMemQueue.filter fun e => speculativeFrom low e.place)
        (c.theMemQueue.filter fun e => speculativeFrom low e.place) := by
  have hqueue : (c.theMemQueue.map seqOf).Pairwise (· < ·) := by
    rw [List.map_map] at hsorted
    exact hsorted
  have hes : (c.ssb.dropWhile fun e => decide (e.theSequenceNum < low)) =
      c.theMemQueue.filter fun e => speculativeFrom low e.place := by
    have hssb : (c.ssb.map seqOf).Pairwise (· < ·) := hqueue.sublist (List.filter_sublist.map _)
    rw [dropWhile_eq_filter hssb, Core.ssb, List.filter_filter]
    refine List.filter_congr fun e _ => ?_
    rw [speculativeFrom, Bool.and_comm]
    rfl
  have herased : (if (c.ssb.dropWhile fun e => decide (e.theSequenceNum < low)) = [] then c.ssb
      else c.ssb.dropWhile fun e => decide (e.theSequenceNum < low)) =
      c.ssb.dropWhile fun e => decide (e.theSequenceNum < low) := by
    split
    · next hempty =>
      rcases hfound with ⟨p, hp, hspec⟩ | hnone
      · obtain ⟨e, he, rfl⟩ := List.mem_map.mp hp
        have hin : e ∈ c.theMemQueue.filter fun e => speculativeFrom low e.place :=
          List.mem_filter.mpr ⟨he, hspec⟩
        rw [← hes, hempty] at hin
        cases hin
      · rw [hnone]
        rfl
    · rfl
  rw [Core.clearSSBFrom, herased, hes]

theorem clearSSBFrom_yields (h : Balanced cfg c) (hsorted : (c.places.map Place.seq).Pairwise (· < ·))
    (hfound : (∃ p ∈ c.places, speculativeFrom low p = true) ∨ c.ssb = []) :
    Yields NoCounter (c.clearSSBFrom cfg low) fun c' =>
      Balanced cfg c' ∧ c'.places = (c.places.filter fun p => !speculativeFrom low p) ∧
        c'.flow = c.flow := by
  rw [clearSSBFrom_eq hsorted hfound]
  exact dropSSB_yields h (hsorted.imp fun hlt => Nat.ne_of_lt hlt) rfl

end nuArchARM
