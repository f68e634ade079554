import Flexus.Core.Replies

/-!
# Where a rollback restarts

The program counter a checkpoint saves is not read from the instruction but advanced by a fixed
amount at each retirement.
-/

namespace nuArchARM

open Runs LSQ

/-- What set the program counter last. -/
inductive Arrival where
  | retired (pc : VirtualMemoryAddress)
  | startedAt (pc : VirtualMemoryAddress)
  deriving DecidableEq, Repr

/-- The address of the next instruction, if no branch is taken. -/
def Arrival.next : Arrival → VirtualMemoryAddress
  | .retired pc => pc + 4#64
  | .startedAt pc => pc

/-- A core, and how its program counter got where it is. -/
structure Traced where
  core : Core
  last : Arrival
  deriving DecidableEq, Repr

namespace Traced

def start (aPC : VirtualMemoryAddress) : Traced := ⟨Core.start aPC, .startedAt aPC⟩

/-- Retirement moves on, everything else that sets the program counter starts anew. -/
def arrive (t : Traced) (c' : Core) : Core.Event → Arrival
  | .retire => (t.core.theROB.head?.map fun i => .retired i.pc).getD t.last
  | .redirect => if t.core.theRedirectRequested then .startedAt t.core.theRedirectPC else t.last
  | .commit => if t.core.theAbortSpeculation then .startedAt c'.thePC else t.last
  | .resynchronize aPC => .startedAt aPC
  | _ => t.last

def step (cfg : CoreConfig) (t : Traced) (e : Core.Event) : Except CoreFault Traced :=
  (fun c' => ⟨c', t.arrive c' e⟩) <$> Core.step cfg t.core e

/-- An instruction that retires with a checkpoint follows directly what retired last, or
    is where the core was started since. -/
def InSequence (cfg : CoreConfig) (t : Traced) (e : Core.Event) : Prop :=
  e = .retire → ∀ i, t.core.theROB.head? = some i → t.core.takesCheckpoint cfg i = true →
    i.pc = t.last.next

instance (cfg : CoreConfig) (t : Traced) (e : Core.Event) : Decidable (InSequence cfg t e) :=
  decidable_of_iff (e = .retire → (t.core.theROB.head?.all fun i =>
      !t.core.takesCheckpoint cfg i || i.pc == t.last.next) = true) <| by
    rw [InSequence]
    cases t.core.theROB.head? with
    | none => simp
    | some i => cases h : t.core.takesCheckpoint cfg i <;> simp [h]

/-- The checkpoints of the retired instructions save their own addresses. -/
structure Faithful (t : Traced) : Prop where
  next : t.last.next = t.core.thePC
  saved : ∀ k ∈ t.core.theCheckpoints, k.saved ∈ t.core.theSRB.map Instruction.ident

variable {cfg : CoreConfig} {t t' : Traced} {c c' : Core} {e : Core.Event}
  {aPC : VirtualMemoryAddress}

theorem step_eq_ok : step cfg t e = .ok t' ↔
    ∃ c', Core.step cfg t.core e = .ok c' ∧ t' = ⟨c', t.arrive c' e⟩ := by
  rw [step, map_eq_ok]
  constructor
  · rintro ⟨c', hok, rfl⟩
    exact ⟨c', hok, rfl⟩
  · rintro ⟨c', hok, rfl⟩
    exact ⟨c', hok, rfl⟩

/-- The retired instruction of a number. -/
theorem ident_eq_of_seq {f : Flow} (h : Piped f) {x y : Nat × VirtualMemoryAddress}
    (hx : x ∈ f.theSRB.map Instruction.ident) (hy : y ∈ f.theSRB.map Instruction.ident)
    (hseq : x.1 = y.1) : x = y := by
  obtain ⟨i, hi, rfl⟩ := List.mem_map.mp hx
  obtain ⟨j, hj, rfl⟩ := List.mem_map.mp hy
  have hunique : ((f.theSRB ++ f.theROB).map Instruction.sequenceNo).Nodup :=
    h.inOrder.imp fun hlt => Nat.ne_of_lt hlt
  rw [List.inj_on_of_nodup_map hunique (List.mem_append_left _ hi) (List.mem_append_left _ hj) hseq]

/-- Checkpoints that stay save the addresses of instructions that stay. -/
theorem saved_of_sublist (hpiped : Piped c.flow) (hpiped' : Piped c'.flow)
    (hsaved : ∀ k ∈ c.theCheckpoints, k.saved ∈ c.theSRB.map Instruction.ident)
    (hsrb : (c'.theSRB.map Instruction.ident).Sublist (c.theSRB.map Instruction.ident))
    (hks : (c'.theCheckpoints.map Checkpoint.saved).Sublist
      (c.theCheckpoints.map Checkpoint.saved)) :
    ∀ k ∈ c'.theCheckpoints, k.saved ∈ c'.theSRB.map Instruction.ident := by
  intro k' hk'
  obtain ⟨k, hk, heq⟩ := List.mem_map.mp (hks.subset (List.mem_map_of_mem hk'))
  obtain ⟨i, hi, hseq, -⟩ := hpiped'.flagged k' hk'
  have hident : i.ident ∈ c'.theSRB.map Instruction.ident := List.mem_map_of_mem hi
  have hsame : i.ident = k'.saved := by
    refine ident_eq_of_seq hpiped (hsrb.subset hident) ?_ hseq
    rw [← heq]
    exact hsaved k hk
  rw [← hsame]
  exact hident

theorem Faithful.of_stays (h : Faithful t) (hpiped : Piped t.core.flow) (hpiped' : Piped c'.flow)
    (hstays : Stays t.core.flow c'.flow) : Faithful ⟨c', t.last⟩ where
  next := h.next.trans hstays.pc.symm
  saved := saved_of_sublist hpiped hpiped' h.saved hstays.srb hstays.checkpoints

/-- A checkpoint is made for an instruction in sequence. -/
theorem Faithful.retire (h : Faithful t) {i : Instruction} (hretires : Retires t.core.flow c'.flow i)
    (hkind : c'.theCheckpoints.map Checkpoint.saved = t.core.theCheckpoints.map Checkpoint.saved ∨
      i.pc = t.last.next) : Faithful ⟨c', .retired i.pc⟩ := by
  refine ⟨hretires.pc.symm, ?_⟩
  have hsrb : c'.theSRB.map Instruction.ident = t.core.theSRB.map Instruction.ident ++ [i.ident] :=
    hretires.srb
  have hold : ∀ x ∈ t.core.theCheckpoints.map Checkpoint.saved,
      x ∈ c'.theSRB.map Instruction.ident := by
    intro x hx
    obtain ⟨k, hk, rfl⟩ := List.mem_map.mp hx
    rw [hsrb]
    exact List.mem_append_left _ (h.saved k hk)
  intro k' hk'
  have hmem : k'.saved ∈ c'.theCheckpoints.map Checkpoint.saved := List.mem_map_of_mem hk'
  rcases hkind with hsame | hpc
  · exact hold _ (hsame ▸ hmem)
  · rcases hretires.checkpoints with hsame | hmore
    · exact hold _ (hsame ▸ hmem)
    · rw [show c'.theCheckpoints.map Checkpoint.saved = _ from hmore] at hmem
      rcases List.mem_append.mp hmem with hmem | hmem
      · exact hold _ hmem
      · have hown : k'.saved = i.ident := by
          rw [List.mem_singleton.mp hmem, Instruction.ident, hpc, h.next]
          rfl
        rw [hown, hsrb]
        exact List.mem_append_right _ (List.mem_singleton.mpr rfl)

theorem Faithful.rollback (h : Faithful t) (hpiped : Piped t.core.flow) (hpiped' : Piped c'.flow)
    {target : Instruction} {ckpt : Checkpoint} (hback : RollsBack t.core.flow c'.flow target ckpt) :
    Faithful ⟨c', .startedAt c'.thePC⟩ := by
  refine ⟨rfl, saved_of_sublist hpiped hpiped' h.saved ?_ hback.checkpoints⟩
  have hsrb : c'.theSRB = t.core.theSRB.takeWhile fun i => i.sequenceNo != target.sequenceNo :=
    hback.srb
  rw [hsrb]
  exact (List.takeWhile_sublist _).map _

theorem step_faithful (hsteady : Steady cfg t.core) (h : Faithful t) (hmeets : InSequence cfg t e)
    (hok : Core.step cfg t.core e = .ok c') : Faithful ⟨c', t.arrive c' e⟩ := by
  obtain ⟨hsteady', hturn⟩ := (step_yields hsteady).1 c' hok
  have hstays : Stays t.core.flow c'.flow → Faithful ⟨c', t.last⟩ :=
    h.of_stays hsteady.piped hsteady'.piped
  cases e with
  | retire =>
    obtain ⟨-, ⟨hempty, hflow⟩ | ⟨i, hretires, hkind⟩⟩ := (retire_steady hsteady).1 c' hok
    · rw [arrive, hempty]
      exact hstays (.of_eq hflow)
    · have hhead : t.core.theROB.head? = some i := by
        rw [show t.core.theROB = i :: c'.theROB from hretires.rob]
        rfl
      rw [arrive, hhead]
      refine h.retire hretires (hkind.imp_right fun htakes => ?_)
      exact hmeets rfl i hhead htakes
  | commit =>
    rcases hturn with ⟨hgoes, hturn⟩ | ⟨habort, target, ckpt, hback⟩
    · have hgoes : t.core.theAbortSpeculation = false := hgoes
      rw [arrive, hgoes]
      exact hstays hturn
    · have habort : t.core.theAbortSpeculation = true := habort
      rw [arrive, if_pos habort]
      exact h.rollback hsteady.piped hsteady'.piped hback
  | redirect =>
    have hflow : c'.flow = if t.core.theRedirectRequested then
        { t.core.flow with thePC := t.core.theRedirectPC, theRedirectRequested := false }
        else t.core.flow := hturn
    by_cases hrequested : t.core.theRedirectRequested = true
    · rw [if_pos hrequested] at hflow
      rw [arrive, if_pos hrequested]
      refine ⟨(congrArg Flow.thePC hflow).symm, ?_⟩
      have hks : c'.theCheckpoints = t.core.theCheckpoints := congrArg Flow.theCheckpoints hflow
      have hsrb : c'.theSRB = t.core.theSRB := congrArg Flow.theSRB hflow
      rw [hks, hsrb]
      exact h.saved
    · rw [if_neg hrequested] at hflow
      rw [arrive, if_neg hrequested]
      exact hstays (.of_eq hflow)
  | resynchronize pc =>
    obtain ⟨hpc, -, hks⟩ := hturn
    have hks : c'.theCheckpoints = [] := hks
    refine ⟨hpc.symm, ?_⟩
    intro k hk
    rw [hks] at hk
    cases hk
  | dispatch | execute | reissue | squash | resolveCheckpoint | violate | requestPort | issueStore
  | issue | issueStorePrefetch | issueMMU | reply | snoop | redirectFetch => exact hstays hturn

/-- The states of the runs in which every checkpointed instruction retires in sequence. -/
abbrev Reachable (cfg : CoreConfig) (aPC : VirtualMemoryAddress) : Traced → Prop :=
  Reaches (step cfg) (InSequence cfg) (start aPC)

theorem Reachable.invariant (h : Reachable cfg aPC t) : Steady cfg t.core ∧ Faithful t := by
  refine Reaches.invariant (I := fun t => Steady cfg t.core ∧ Faithful t) ?_ ?_ h
  · exact ⟨start_steady, rfl, by simp [start, Core.start]⟩
  · rintro s e s' ⟨hsteady, hfaithful⟩ hmeets hok
    obtain ⟨c', hcore, rfl⟩ := step_eq_ok.mp hok
    exact ⟨((step_yields hsteady).1 c' hcore).1, step_faithful hsteady hfaithful hmeets hcore⟩

/-- What precedes an instruction, and what follows it. -/
theorem split_at {is : List Instruction} {target : Instruction} (hmem : target ∈ is)
    (hunique : (is.map Instruction.sequenceNo).Nodup) :
    ∃ younger, is = (is.takeWhile fun i => i.sequenceNo != target.sequenceNo) ++ target :: younger := by
  induction is with
  | nil => cases hmem
  | cons i is ih =>
    obtain ⟨hfresh, hunique⟩ := List.nodup_cons.mp hunique
    rcases List.mem_cons.mp hmem with rfl | hmem
    · exact ⟨is, by simp⟩
    · have hne : i.sequenceNo ≠ target.sequenceNo := by
        intro heq
        exact hfresh (heq ▸ List.mem_map_of_mem hmem)
      obtain ⟨younger, hsplit⟩ := ih hmem hunique
      refine ⟨younger, ?_⟩
      rw [List.takeWhile_cons_of_pos (by simpa using hne), List.cons_append, ← hsplit]

end Traced

open Traced

variable {cfg : CoreConfig} {t : Traced} {aPC : VirtualMemoryAddress}

/-- In every run in which the instructions that take a checkpoint retire in sequence, a
    checkpoint saves the address of its instruction, and a rollback restarts the core at
    the first instruction it discards. -/
theorem rollback_restarts_at_discarded (h : Traced.Reachable cfg aPC t) :
    (∀ k ∈ t.core.theCheckpoints, ∃ i ∈ t.core.theSRB,
      i.sequenceNo = k.theInstruction ∧ k.thePC = i.pc) ∧
    ∀ c', t.core.theAbortSpeculation = true → Core.step cfg t.core .commit = .ok c' →
      ∃ i younger, t.core.theSRB = c'.theSRB ++ i :: younger ∧
        c'.thePC = i.pc ∧ c'.theRedirectRequested = true ∧ c'.theRedirectPC = i.pc := by
  obtain ⟨hsteady, hfaithful⟩ := h.invariant
  have hunique : (t.core.theSRB.map Instruction.sequenceNo).Nodup := by
    have horder := hsteady.piped.inOrder
    rw [List.map_append, List.pairwise_append] at horder
    exact horder.1.imp fun hlt => Nat.ne_of_lt hlt
  have hown : ∀ k ∈ t.core.theCheckpoints, ∃ i ∈ t.core.theSRB,
      i.sequenceNo = k.theInstruction ∧ k.thePC = i.pc := by
    intro k hk
    obtain ⟨i, hi, heq⟩ := List.mem_map.mp (hfaithful.saved k hk)
    exact ⟨i, hi, congrArg Prod.fst heq, (congrArg Prod.snd heq).symm⟩
  refine ⟨hown, ?_⟩
  intro c' habort hok
  rcases ((step_yields hsteady).1 c' hok).2 with ⟨hgoes, -⟩ | ⟨-, target, ckpt, hback⟩
  · rw [show t.core.theAbortSpeculation = false from hgoes] at habort
    cases habort
  · obtain ⟨younger, hsplit⟩ := split_at hback.target_mem hunique
    have hpc : ckpt.thePC = target.pc := by
      obtain ⟨i, hi, hseq, hpc⟩ := hown ckpt hback.ckpt_mem
      rw [hpc, List.inj_on_of_nodup_map hunique hi hback.target_mem (hseq.trans hback.own)]
    refine ⟨target, younger, ?_, hback.pc.trans hpc, hback.redirects.1, hback.redirects.2.trans hpc⟩
    rw [show c'.theSRB = _ from hback.srb]
    exact hsplit

/-- A load that speculates past a store is rolled back to its own address. -/
theorem rollback_restarts_at_discarded_load : ∃ t c', Traced.Reachable speculativeSC 0#64 t ∧
    t.core.theAbortSpeculation = true ∧ Core.step speculativeSC t.core .commit = .ok c' ∧
    ∃ i younger, t.core.theSRB = c'.theSRB ++ i :: younger ∧ c'.theRedirectPC = i.pc := by
  have hrun : (runWhile (Traced.step speculativeSC) (fun t e => decide (InSequence speculativeSC t e))
      (Traced.start 0#64)
      [.dispatch 0#64 .commitStore true (some (.store .kDoubleWord false)),
        .dispatch 4#64 .keep true (some (.load .kDoubleWord)),
        .execute 1 (accessAt 0x80#64), .execute 2 (accessAt 0x100#64), .retire, .retire,
        .violate 2]).any
      (fun t => t.core.theAbortSpeculation && (Core.step speculativeSC t.core .commit).isOk) = true := by
    decide +kernel
  obtain ⟨t, ht, hend⟩ : ∃ t, Traced.Reachable speculativeSC 0#64 t ∧
      (t.core.theAbortSpeculation && (Core.step speculativeSC t.core .commit).isOk) = true :=
    exists_reaches (fun _ _ h => of_decide_eq_true h) hrun
  obtain ⟨habort, hgood⟩ := Bool.and_eq_true_iff.mp hend
  cases hok : Core.step speculativeSC t.core .commit with
  | error f =>
    rw [hok] at hgood
    cases hgood
  | ok c' =>
    obtain ⟨i, younger, hsrb, -, -, hpc⟩ := (rollback_restarts_at_discarded ht).2 c' habort hok
    exact ⟨t, c', ht, habort, hok, i, younger, hsrb, hpc⟩

/-- A store, a taken branch at 4 and a load at its target retire. The checkpoint of the load
    saves the address that follows the branch, and the rollback restarts there. -/
theorem rollback_after_branch : ∃ c, Core.Reachable speculativeSC 0#64 c ∧
    c.theAbortSpeculation = true ∧
    (∃ k ∈ c.theCheckpoints, ∃ i ∈ c.theSRB,
      i.sequenceNo = k.theInstruction ∧ i.pc = 0x100#64 ∧ k.thePC = 8#64) ∧
    (Core.step speculativeSC c .commit).toOption.map Core.theRedirectPC = some 8#64 := by
  have hrun : (runWhile (Core.step speculativeSC) (fun _ _ => true) (Core.start 0#64)
      [.dispatch 0#64 .commitStore true (some (.store .kDoubleWord false)),
        .dispatch 4#64 .keep true none,
        .dispatch 0x100#64 .keep true (some (.load .kDoubleWord)),
        .execute 1 (accessAt 0x80#64), .execute 3 (accessAt 0x100#64), .retire, .retire, .retire,
        .violate 3]).any
      (fun c => decide (c.theAbortSpeculation = true ∧
        (∃ k ∈ c.theCheckpoints, ∃ i ∈ c.theSRB,
          i.sequenceNo = k.theInstruction ∧ i.pc = 0x100#64 ∧ k.thePC = 8#64) ∧
        (Core.step speculativeSC c .commit).toOption.map Core.theRedirectPC = some 8#64)) = true := by
    decide +kernel
  obtain ⟨c, hc, hend⟩ := exists_reaches (fun _ _ _ => trivial) hrun
  exact ⟨c, hc, of_decide_eq_true hend⟩

end nuArchARM
