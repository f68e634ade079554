import Flexus.ArmDecoder.Instruction

/-!
# Wiring

When the actions of an instruction find what they read. What is to be known of each operand slot
and of each register that is written is a set of facts.
-/

namespace narmDecoder

open Dataflow Runs

/-! ## Facts -/

/-- What a slot holds: the name of a register, that of a physical register, or a value. -/
inductive SlotKind where
  | name
  | mapped
  | data
  deriving DecidableEq, Repr

def eOperandCode.kind : eOperandCode → SlotKind
  | kRS1 | kRS2 | kRS3 | kRS4 | kRS5 | kCCs | kRD | kRD1 | kRD2 | kCCd => .name
  | kPS1 | kPS2 | kPS3 | kPS4 | kPS5 | kCCps | kPD | kPD1 | kPD2 | kCCpd => .mapped
  | kPPD | kPPD1 | kPPD2 | kPCCpd => .mapped
  | _ => .data

/-- The physical registers that the slots name, and what is known of the values in the slots and
    of the values that are written to the registers. -/
structure Facts where
  name : eOperandCode → mapped_reg
  value : eOperandCode → BitVec 64 → Prop
  register : mapped_reg → BitVec 64 → Prop

inductive Place where
  | slot (code : eOperandCode)
  | register (name : mapped_reg)
  deriving DecidableEq

namespace Facts

variable (F : Facts)

/-- The operand is of the slot's kind and as the facts say. -/
def Slot (code : eOperandCode) (v : Operand) : Prop :=
  match code.kind with
  | .name => ∃ r, v = .reg r
  | .mapped => v = .mapped_reg (F.name code)
  | .data => ∃ x, v = .uint64 x ∧ F.value code x

/-- The slot holds a fitting operand, or the register has been written with a fitting value. -/
def Holds : Place → Store → Prop
  | .slot code, s => F.Slot code (s.operand code)
  | .register name, s => ∃ v, s.registers name = some v ∧ F.register name v

variable {F} {s : Store} {code : eOperandCode}

theorem slot_data (hkind : code.kind = .data) {v : Operand} : F.Slot code v ↔ ∃ x, v = .uint64 x ∧ F.value code x := by
  rw [Slot, hkind]

theorem slot_mapped (hkind : code.kind = .mapped) {v : Operand} : F.Slot code v ↔ v = .mapped_reg (F.name code) := by
  rw [Slot, hkind]

theorem holds_setOperand {v : Operand} (hv : F.Slot code v) {p : Place} (h : F.Holds p s) :
    F.Holds p (s.setOperand code v) := by
  cases p with
  | slot other =>
    change F.Slot other ((s.setOperand code v).operand other)
    by_cases hsame : other = code
    · rw [hsame, Store.operand_setOperand_self]
      exact hv
    · rw [Store.operand_setOperand_of_ne _ _ hsame]
      exact h
  | register name => exact h

theorem holds_setOperand_self {v : Operand} (hv : F.Slot code v) : F.Holds (.slot code) (s.setOperand code v) := by
  change F.Slot code _
  rwa [Store.operand_setOperand_self]

theorem holds_writeRegister {name : mapped_reg} {v : BitVec 64} (hv : F.register name v) {p : Place}
    (h : F.Holds p s) : F.Holds p (s.writeRegister name v) := by
  cases p with
  | slot other => exact h
  | register other =>
    by_cases hsame : other = name
    · subst hsame
      exact ⟨v, Store.registers_writeRegister_self .., hv⟩
    · obtain ⟨w, hw, hfit⟩ := h
      exact ⟨w, by rw [Store.registers_writeRegister_of_ne _ _ hsame, hw], hfit⟩

theorem holds_writeRegister_self {name : mapped_reg} {v : BitVec 64} (hv : F.register name v) :
    F.Holds (.register name) (s.writeRegister name v) :=
  ⟨v, Store.registers_writeRegister_self .., hv⟩

end Facts

/-! ## Actions -/

/-- The operations that set the flags. -/
def Operation.setsFlags (op : Operation) : Bool :=
  match op.theType with
  | .kADDS_ | .kSUBS_ | .kANDS_ | .kANDSN_ => true
  | _ => false

namespace Action

/-- The slots that an action may read. -/
def reads : Action → List eOperandCode
  | readRegister c _ _ => [c]
  | readConstant .. => []
  | readNZCV .. => []
  | execute _ ops _ => ops
  | bitField c1 c2 .. => [c1, c2]
  | extract c1 c2 c3 _ => [c1, c2, c3]
  | ror c1 c2 _ => [c1, c2]
  | reverse c _ _ => [c]
  | reorder c _ _ _ => [c]
  | count c _ _ _ => [c]
  | crc _ c _ _ _ => [c]
  | conditionSelect .. => [.kOperand3, .kCondition, .kOperand1, .kOperand2, .kOperand5]
  | conditionCompare .. => [.kOperand3, .kCondition, .kOperand4, .kOperand1, .kOperand2]
  | writeback r d _ => [r, d]
  | writecc cc _ => [cc, .kResultCC, .kResult]
  | annul c _ => [c]

/-- The slots that an action sets. -/
def writes : Action → List eOperandCode
  | readRegister _ o _ => [o]
  | readConstant _ o => [o]
  | readNZCV _ o => [o]
  | execute op _ r => r :: if op.setsFlags then [.kResultCC] else []
  | bitField .. => [.kResult]
  | extract .. => [.kResult]
  | ror .. => [.kResult]
  | reverse _ o _ => [o]
  | reorder _ o _ _ => [o]
  | count _ o _ _ => [o]
  | crc _ _ _ o _ => [o]
  | conditionSelect r _ _ => [r]
  | conditionCompare r _ _ => [r, .kResultCC]
  | writeback .. => []
  | writecc .. => []
  | annul _ o => [o]

/-- The slot that names the register that an action writes. -/
def destination : Action → Option eOperandCode
  | writeback _ d _ => some d
  | writecc cc _ => some cc
  | _ => none

variable (env : Env) (F : Facts)

/-- The values of an operation's operands are such that it succeeds, with fitting results. -/
def ExecuteFits (op : Operation) (ops : List eOperandCode) (r : eOperandCode) : Prop :=
  ∀ xs, List.Forall₂ F.value ops xs → ∃ y nzcv, op.apply (xs.map .uint64) = .ok ⟨.uint64 y, nzcv, false⟩ ∧
    F.value r y ∧ (∀ f, nzcv = some f → F.value .kResultCC (f.setWidth 64)) ∧ (op.setsFlags → nzcv.isSome)

/-- One input and one output. -/
def UnaryFits (f : BitVec 64 → BitVec 64) (c o : eOperandCode) : Prop :=
  c.kind = .data ∧ o.kind = .data ∧ ∀ x, F.value c x → F.value o (f x)

/-- An action that, on operands as the facts say, succeeds and keeps the facts. -/
def Fits : Action → Prop
  | readRegister c o the64 =>
    c.kind = .mapped ∧ o.kind = .data ∧ F.value o (widthMask the64 (env.readRegister (F.name c)))
  | readConstant v o => o.kind = .data ∧ F.value o v
  | readNZCV .. => False
  | execute op ops r => (∀ c ∈ ops, c.kind = .data) ∧ r.kind = .data ∧ ExecuteFits F op ops r
  | bitField c1 c2 theS theR wmask tmask ext the64 =>
    c1.kind = .data ∧ c2.kind = .data ∧ ∀ src dst, F.value c1 src → F.value c2 dst →
      ∃ res, narmDecoder.ror src (operandSize the64) theR = .ok res ∧
        F.value .kResult (bitFieldValue theS wmask tmask ext the64 src dst res)
  | extract c1 c2 c3 the64 =>
    c1.kind = .data ∧ c2.kind = .data ∧ c3.kind = .data ∧ ∀ src src2 imm, F.value c1 src → F.value c2 src2 →
      F.value c3 imm → ∃ y, extractValue the64 src src2 imm = .ok y ∧ F.value .kResult y
  | ror c1 c2 the64 =>
    c1.kind = .data ∧ c2.kind = .data ∧ ∀ src imm, F.value c1 src → F.value c2 imm →
      ∃ y, extractValue the64 src src imm = .ok y ∧ F.value .kResult y
  | reverse c o the64 => UnaryFits F (reverseValue the64) c o
  | reorder c o size the64 => UnaryFits F (reorderValue size the64) c o
  | count c o op the64 => UnaryFits F (countValue op the64) c o
  | crc .. => False
  | conditionSelect r _ _ => r = .kResult ∧ (∀ cond, F.value .kCondition cond → cond.toNat < 16) ∧
      ∀ x, F.value .kResult x
  | conditionCompare r _ _ => r = .kResult ∧ (∀ cond, F.value .kCondition cond → cond.toNat < 16) ∧
      (∀ x, F.value .kResult x) ∧ ∀ x, F.value .kResultCC x
  | writeback r d the64 =>
    r.kind = .data ∧ d.kind = .mapped ∧ ∀ x, F.value r x →
      F.value r (widthMask the64 x) ∧ F.register (F.name d) (widthMask the64 x)
  | writecc cc the64 =>
    cc.kind = .mapped ∧ ∀ f r, F.value .kResultCC f → (the64 = false → F.value .kResult r) →
      F.register (F.name cc) (ccValue the64 env.readPSTATE f r)
  | annul .. => False

/-- What the evaluation of an action leaves: all facts that held, and those about what the
    action has written. -/
structure Leaves (a : Action) (s s' : Store) : Prop where
  kept : ∀ p, F.Holds p s → F.Holds p s'
  slots : ∀ c ∈ a.writes, F.Holds (.slot c) s'
  written : ∀ d, a.destination = some d → F.Holds (.register (F.name d)) s'

variable {env F} {a : Action} {s : Store}

theorem leaves_setOperand {o : eOperandCode} {v : Operand} (hwrites : a.writes = [o]) (hdest : a.destination = none)
    (hv : F.Slot o v) : Leaves F a s (s.setOperand o v) where
  kept _ := Facts.holds_setOperand hv
  slots c hc := by
    rw [hwrites, List.mem_singleton] at hc
    rw [hc]
    exact Facts.holds_setOperand_self hv
  written d hd := by rw [hdest] at hd; cases hd

/-- A slot that the action writes may be set once more. -/
theorem Leaves.again {s' : Store} {o : eOperandCode} {v : Operand} (h : Leaves F a s s') (hv : F.Slot o v) :
    Leaves F a s (s'.setOperand o v) where
  kept p hp := Facts.holds_setOperand hv (h.kept p hp)
  slots c hc := Facts.holds_setOperand hv (h.slots c hc)
  written d hd := Facts.holds_setOperand hv (h.written d hd)

/-- The value of a slot of data. -/
theorem getUint64_of_holds {c : eOperandCode} (hkind : c.kind = .data) (h : F.Holds (.slot c) s) :
    ∃ x, s.operand c = .uint64 x ∧ F.value c x := (Facts.slot_data hkind).mp h

theorem getMappedReg_of_holds {c : eOperandCode} (hkind : c.kind = .mapped) (h : F.Holds (.slot c) s) :
    s.operand c = .mapped_reg (F.name c) := (Facts.slot_mapped hkind).mp h

theorem operands_of_holds {ops : List eOperandCode} (hkind : ∀ c ∈ ops, c.kind = .data)
    (h : ∀ c ∈ ops, F.Holds (.slot c) s) : ∃ xs, ops.map s.operand = xs.map .uint64 ∧ List.Forall₂ F.value ops xs := by
  induction ops with
  | nil => exact ⟨[], rfl, .nil⟩
  | cons c ops ih =>
    obtain ⟨x, hx, hfit⟩ := getUint64_of_holds (hkind c (List.mem_cons_self ..)) (h c (List.mem_cons_self ..))
    obtain ⟨xs, hxs, hrest⟩ := ih (fun c hc => hkind c (List.mem_cons_of_mem _ hc))
      (fun c hc => h c (List.mem_cons_of_mem _ hc))
    exact ⟨x :: xs, by rw [List.map_cons, List.map_cons, hx, hxs], .cons hfit hrest⟩

theorem leaves_unary {f : BitVec 64 → BitVec 64} {c o : eOperandCode} (h : UnaryFits F f c o)
    (hwrites : a.writes = [o]) (hdest : a.destination = none) (hc : F.Holds (.slot c) s)
    (heval : ∀ x, s.operand c = .uint64 x → a.doEvaluate env s = .ok (s.setOperand o (.uint64 (f x)))) :
    ∃ s', a.doEvaluate env s = .ok s' ∧ Leaves F a s s' := by
  obtain ⟨hin, hout, hfit⟩ := h
  obtain ⟨x, hx, hval⟩ := getUint64_of_holds hin hc
  exact ⟨_, heval x hx, leaves_setOperand hwrites hdest ((Facts.slot_data hout).mpr ⟨_, rfl, hfit x hval⟩)⟩

theorem execute_leaves {op : Operation} {ops : List eOperandCode} {r : eOperandCode}
    (h : (Action.execute op ops r).Fits env F) (hreads : ∀ c ∈ ops, F.Holds (.slot c) s) :
    ∃ s', (Action.execute op ops r).doEvaluate env s = .ok s' ∧ Leaves F (.execute op ops r) s s' := by
  obtain ⟨hkind, hr, hfit⟩ := h
  obtain ⟨xs, hxs, hvals⟩ := operands_of_holds hkind hreads
  obtain ⟨y, nzcv, happly, hy, hflags, hsets⟩ := hfit xs hvals
  have hslot : F.Slot r (.uint64 y) := (Facts.slot_data hr).mpr ⟨_, rfl, hy⟩
  cases nzcv with
  | none =>
    refine ⟨s.setOperand r (.uint64 y), ?_, leaves_setOperand ?_ rfl hslot⟩
    · simp only [doEvaluate, hxs, happly]
      rfl
    · have hplain : op.setsFlags = false := by
        by_contra hcontra
        exact absurd (hsets (by simpa using hcontra)) (by simp)
      simp [writes, hplain]
  | some f =>
    have hcc : F.Slot .kResultCC (.uint64 (f.setWidth 64)) := ⟨_, rfl, hflags f rfl⟩
    refine ⟨(s.setOperand .kResultCC (.uint64 (f.setWidth 64))).setOperand r (.uint64 y), ?_, ?_, ?_, ?_⟩
    · simp only [doEvaluate, hxs, happly]
      rfl
    · exact fun p hp => Facts.holds_setOperand hslot (Facts.holds_setOperand hcc hp)
    · intro c hc
      rcases List.mem_cons.mp hc with rfl | hc
      · exact Facts.holds_setOperand_self hslot
      · have hsame : c = .kResultCC := by
          split at hc
          · simpa using hc
          · cases hc
        rw [hsame]
        exact Facts.holds_setOperand hslot (Facts.holds_setOperand_self hcc)
    · intro d hd
      cases hd

theorem BCOND_ok {p cond : BitVec 64} (hcond : cond.toNat < 16) : ∃ b, BCOND [.uint64 p, .uint64 cond] = .ok b := by
  have hhalf : (cond >>> 1).toNat < 8 := by
    rw [BitVec.toNat_ushiftRight, Nat.shiftRight_eq_div_pow]
    omega
  simp only [BCOND, Operand.getUint64, bind, Except.bind, ConditionHolds]
  generalize (cond >>> 1).toNat = k at hhalf
  split
  case h_9 => interval_cases k <;> contradiction
  all_goals split <;> exact ⟨_, rfl⟩

theorem conditionSelect_leaves {r : eOperandCode} {inv inc : Bool}
    (h : (Action.conditionSelect r inv inc).Fits env F)
    (hreads : ∀ c ∈ (Action.conditionSelect r inv inc).reads, F.Holds (.slot c) s) :
    ∃ s', (Action.conditionSelect r inv inc).doEvaluate env s = .ok s' ∧ Leaves F (.conditionSelect r inv inc) s s' := by
  obtain ⟨rfl, hcond, hany⟩ := h
  obtain ⟨p, hp, -⟩ := getUint64_of_holds rfl (hreads .kOperand3 (by simp [reads]))
  obtain ⟨c, hc, hcfit⟩ := getUint64_of_holds rfl (hreads .kCondition (by simp [reads]))
  obtain ⟨x, hx, -⟩ := getUint64_of_holds rfl (hreads .kOperand1 (by simp [reads]))
  obtain ⟨y, hy, -⟩ := getUint64_of_holds rfl (hreads .kOperand2 (by simp [reads]))
  obtain ⟨b, hb⟩ := BCOND_ok (p := p) (hcond c hcfit)
  -- Every value that the action stores is one that the result slot may hold.
  have hslot : ∀ v, F.Slot .kResult (.uint64 v) := fun v => ⟨v, rfl, hany v⟩
  have hset : ∀ v, Leaves F (.conditionSelect .kResult inv inc) s (s.setOperand .kResult (.uint64 v)) :=
    fun v => leaves_setOperand rfl rfl (hslot v)
  simp only [doEvaluate, hp, hc, hx, hy, hb, bind, Except.bind, pure, Except.pure]
  cases b with
  | true => exact ⟨_, rfl, hset x⟩
  | false =>
    simp only [Bool.false_eq_true, if_false, Store.operand_setOperand_self]
    cases inv with
    | false =>
      cases inc with
      | false => exact ⟨_, rfl, hset y⟩
      | true =>
        obtain ⟨k, hk, -⟩ := getUint64_of_holds rfl (hreads .kOperand5 (by simp [reads]))
        have hother : (s.setOperand .kResult (.uint64 y)).operand .kOperand5 = .uint64 k := by
          rw [Store.operand_setOperand_of_ne _ _ (by decide), hk]
        simp only [Bool.false_eq_true, if_false, if_true, hother]
        exact ⟨_, rfl, (hset y).again (hslot (y + k))⟩
    | true =>
      cases inc with
      | false => exact ⟨_, rfl, (hset y).again (hslot (~~~y))⟩
      | true =>
        obtain ⟨k, hk, -⟩ := getUint64_of_holds rfl (hreads .kOperand5 (by simp [reads]))
        have hother : ((s.setOperand .kResult (.uint64 y)).setOperand .kResult (.uint64 (~~~y))).operand .kOperand5 =
            .uint64 k := by
          rw [Store.operand_setOperand_of_ne _ _ (by decide), Store.operand_setOperand_of_ne _ _ (by decide), hk]
        exact ⟨_, by simp [operation, Operation.apply, unary, plain, ADD, hother, bind, Except.bind, pure, Except.pure,
          Operand.getUint64], ((hset y).again (hslot (~~~y))).again (hslot (~~~y + k))⟩

theorem ADDS_or_SUBS (sub : Bool) (x y : BitVec 64) :
    ∃ res nzcv, (operation (if sub then .kSUBS_ else .kADDS_)).apply [.uint64 x, .uint64 y] =
      .ok ⟨.uint64 res, some nzcv, false⟩ := by
  cases sub <;> exact ⟨_, _, rfl⟩

theorem conditionCompare_leaves {r : eOperandCode} {sub the64 : Bool}
    (h : (Action.conditionCompare r sub the64).Fits env F)
    (hreads : ∀ c ∈ (Action.conditionCompare r sub the64).reads, F.Holds (.slot c) s) :
    ∃ s', (Action.conditionCompare r sub the64).doEvaluate env s = .ok s' ∧
      Leaves F (.conditionCompare r sub the64) s s' := by
  obtain ⟨rfl, hcond, hany, hanyCC⟩ := h
  obtain ⟨p, hp, -⟩ := getUint64_of_holds rfl (hreads .kOperand3 (by simp [reads]))
  obtain ⟨c, hc, hcfit⟩ := getUint64_of_holds rfl (hreads .kCondition (by simp [reads]))
  obtain ⟨k, hk, -⟩ := getUint64_of_holds rfl (hreads .kOperand4 (by simp [reads]))
  obtain ⟨x, hx, -⟩ := getUint64_of_holds rfl (hreads .kOperand1 (by simp [reads]))
  obtain ⟨y, hy, -⟩ := getUint64_of_holds rfl (hreads .kOperand2 (by simp [reads]))
  obtain ⟨b, hb⟩ := BCOND_ok (p := p) (hcond c hcfit)
  obtain ⟨res, nzcv, happly⟩ := ADDS_or_SUBS sub x y
  have hset : ∀ v w, Leaves F (.conditionCompare .kResult sub the64) s
      ((s.setOperand .kResult (.uint64 v)).setOperand .kResultCC (.uint64 w)) := by
    intro v w
    have hv : F.Slot .kResult (.uint64 v) := ⟨v, rfl, hany v⟩
    have hw : F.Slot .kResultCC (.uint64 w) := ⟨w, rfl, hanyCC w⟩
    refine ⟨fun p hp => Facts.holds_setOperand hw (Facts.holds_setOperand hv hp), ?_, fun d hd => by cases hd⟩
    intro c hc
    rcases List.mem_cons.mp hc with rfl | hc
    · exact Facts.holds_setOperand hw (Facts.holds_setOperand_self hv)
    · rw [List.mem_singleton.mp hc]
      exact Facts.holds_setOperand_self hw
  simp only [doEvaluate, hp, hc, hk, hx, hy, hb, happly, bind, Except.bind, pure, Except.pure, Operand.getUint64]
  cases b with
  | false => exact ⟨_, rfl, hset _ _⟩
  | true =>
    cases the64 with
    | true => exact ⟨_, rfl, hset _ _⟩
    | false => exact ⟨_, rfl, hset _ _⟩

theorem writeback_leaves {r d : eOperandCode} {the64 : Bool} (h : (Action.writeback r d the64).Fits env F)
    (hreads : ∀ c ∈ (Action.writeback r d the64).reads, F.Holds (.slot c) s) :
    ∃ s', (Action.writeback r d the64).doEvaluate env s = .ok s' ∧ Leaves F (.writeback r d the64) s s' := by
  obtain ⟨hr, hd, hfit⟩ := h
  obtain ⟨x, hx, hxfit⟩ := getUint64_of_holds hr (hreads r (by simp [reads]))
  have hname := getMappedReg_of_holds hd (hreads d (by simp [reads]))
  obtain ⟨hslot, hreg⟩ := hfit x hxfit
  simp only [doEvaluate, hx, hname, bind, Except.bind, pure, Except.pure, Operand.getRegisterValue,
    Operand.getMappedReg]
  cases the64 with
  | true =>
    refine ⟨_, rfl, fun p hp => Facts.holds_writeRegister hreg hp, fun c hc => absurd hc List.not_mem_nil, ?_⟩
    intro e he
    rw [← Option.some.inj he]
    exact Facts.holds_writeRegister_self hreg
  | false =>
    have hset : F.Slot r (.uint64 (widthMask false x)) := (Facts.slot_data hr).mpr ⟨_, rfl, hslot⟩
    refine ⟨_, rfl, fun p hp => Facts.holds_writeRegister hreg (Facts.holds_setOperand hset hp),
      fun c hc => absurd hc List.not_mem_nil, ?_⟩
    intro e he
    rw [← Option.some.inj he]
    exact Facts.holds_writeRegister_self hreg

theorem writecc_leaves {cc : eOperandCode} {the64 : Bool} (h : (Action.writecc cc the64).Fits env F)
    (hreads : ∀ c ∈ (Action.writecc cc the64).reads, F.Holds (.slot c) s) :
    ∃ s', (Action.writecc cc the64).doEvaluate env s = .ok s' ∧ Leaves F (.writecc cc the64) s s' := by
  obtain ⟨hcc, hfit⟩ := h
  have hname := getMappedReg_of_holds hcc (hreads cc (by simp [reads]))
  obtain ⟨f, hf, hffit⟩ := getUint64_of_holds rfl (hreads .kResultCC (by simp [reads]))
  have hleaves : ∀ v, F.register (F.name cc) v → Leaves F (.writecc cc the64) s (s.writeRegister (F.name cc) v) := by
    intro v hv
    refine ⟨fun p hp => Facts.holds_writeRegister hv hp, fun c hc => absurd hc List.not_mem_nil, ?_⟩
    intro e he
    rw [← Option.some.inj he]
    exact Facts.holds_writeRegister_self hv
  simp only [doEvaluate, hf, hname, bind, Except.bind, pure, Except.pure, Operand.getRegisterValue,
    Operand.getMappedReg]
  cases the64 with
  | true => exact ⟨_, rfl, hleaves _ (hfit f 0#64 hffit fun h => by cases h)⟩
  | false =>
    obtain ⟨r, hr, hrfit⟩ := getUint64_of_holds rfl (hreads .kResult (by simp [reads]))
    simp only [hr, Bool.false_eq_true, if_false]
    exact ⟨_, rfl, hleaves _ (hfit f r hffit fun _ => hrfit)⟩

/-- An action that fits the facts, evaluated where they hold of all that it reads, succeeds. -/
theorem Fits.leaves (h : a.Fits env F) (hreads : ∀ c ∈ a.reads, F.Holds (.slot c) s) :
    ∃ s', a.doEvaluate env s = .ok s' ∧ Leaves F a s s' := by
  cases a with
  | readRegister c o the64 =>
    obtain ⟨hc, ho, hfit⟩ := h
    have hname := getMappedReg_of_holds hc (hreads c (by simp [reads]))
    refine ⟨s.setOperand o (.uint64 (widthMask the64 (env.readRegister (F.name c)))), ?_, ?_⟩
    · rw [doEvaluate, hname]
      rfl
    · exact leaves_setOperand rfl rfl ((Facts.slot_data ho).mpr ⟨_, rfl, hfit⟩)
  | readConstant v o =>
    exact ⟨_, rfl, leaves_setOperand rfl rfl ((Facts.slot_data h.1).mpr ⟨_, rfl, h.2⟩)⟩
  | readNZCV b o => exact h.elim
  | execute op ops r => exact execute_leaves h hreads
  | bitField c1 c2 theS theR wmask tmask ext the64 =>
    obtain ⟨h1, h2, hfit⟩ := h
    obtain ⟨src, hsrc, hsrcfit⟩ := getUint64_of_holds h1 (hreads c1 (by simp [reads]))
    obtain ⟨dst, hdst, hdstfit⟩ := getUint64_of_holds h2 (hreads c2 (by simp [reads]))
    obtain ⟨res, hror, hval⟩ := hfit src dst hsrcfit hdstfit
    refine ⟨_, ?_, leaves_setOperand (v := .uint64 (bitFieldValue theS wmask tmask ext the64 src dst res)) rfl rfl
      ⟨_, rfl, hval⟩⟩
    simp only [doEvaluate, hsrc, hdst, operation, Operation.apply, ROR, ternary, Operand.getUint64, bind, Except.bind,
      pure, Except.pure, hror, plain]
  | extract c1 c2 c3 the64 =>
    obtain ⟨h1, h2, h3, hfit⟩ := h
    obtain ⟨src, hsrc, hsrcfit⟩ := getUint64_of_holds h1 (hreads c1 (by simp [reads]))
    obtain ⟨src2, hsrc2, hsrc2fit⟩ := getUint64_of_holds h2 (hreads c2 (by simp [reads]))
    obtain ⟨imm, himm, himmfit⟩ := getUint64_of_holds h3 (hreads c3 (by simp [reads]))
    obtain ⟨y, hy, hval⟩ := hfit src src2 imm hsrcfit hsrc2fit himmfit
    refine ⟨_, ?_, leaves_setOperand (v := .uint64 y) rfl rfl ⟨_, rfl, hval⟩⟩
    simp only [doEvaluate, hsrc, hsrc2, himm, Operand.getUint64, bind, Except.bind, hy]
    rfl
  | ror c1 c2 the64 =>
    obtain ⟨h1, h2, hfit⟩ := h
    obtain ⟨src, hsrc, hsrcfit⟩ := getUint64_of_holds h1 (hreads c1 (by simp [reads]))
    obtain ⟨imm, himm, himmfit⟩ := getUint64_of_holds h2 (hreads c2 (by simp [reads]))
    obtain ⟨y, hy, hval⟩ := hfit src imm hsrcfit himmfit
    refine ⟨_, ?_, leaves_setOperand (v := .uint64 y) rfl rfl ⟨_, rfl, hval⟩⟩
    simp only [doEvaluate, hsrc, himm, Operand.getUint64, bind, Except.bind, hy]
    rfl
  | reverse c o the64 =>
    exact leaves_unary h rfl rfl (hreads c (by simp [reads])) fun x hx => by rw [doEvaluate, hx]; rfl
  | reorder c o size the64 =>
    exact leaves_unary h rfl rfl (hreads c (by simp [reads])) fun x hx => by rw [doEvaluate, hx]; rfl
  | count c o op the64 =>
    exact leaves_unary h rfl rfl (hreads c (by simp [reads])) fun x hx => by rw [doEvaluate, hx]; rfl
  | crc p c c2 o the64 => exact h.elim
  | conditionSelect r inv inc => exact conditionSelect_leaves h hreads
  | conditionCompare r sub the64 => exact conditionCompare_leaves h hreads
  | writeback r d the64 => exact writeback_leaves h hreads
  | writecc cc the64 => exact writecc_leaves h hreads
  | annul c o => exact h.elim

end Action

/-! ## Instructions -/

/-- An effect that finds the register it maps, and maps it as the facts say. -/
def Effect.Fits (env : Env) (F : Facts) (m : OperandMap) : Effect → Prop
  | mapSource i o => o.kind = .mapped ∧ ∃ r, m i = some (.reg r) ∧ F.name o = env.mapped r
  | mapDestination i o p =>
    o.kind = .mapped ∧ p.kind = .mapped ∧
      ∃ r, m i = some (.reg r) ∧ F.name o = env.created r ∧ F.name p = env.previous r
  | satisfy _ => True

namespace SemanticInstruction

section Check

variable (inst : SemanticInstruction)

def nodes : List Nat := (List.range inst.components.length).filter inst.runs

def given (i k : Nat) : Bool := inst.dispatchEffects.contains (.satisfy ⟨some i, k⟩)

def reads (i : Nat) : List eOperandCode := inst.components[i]?.elim [] (·.theAction.reads)

def writes (i : Nat) : List eOperandCode := inst.components[i]?.elim [] (·.theAction.writes)

/-- The slot is set when the instruction has been dispatched. -/
def initially (c : eOperandCode) : Bool :=
  (inst.theOperands.lookup c).isSome || inst.dispatchEffects.any (·.outputs.contains c)

/-- The slot is set before action `i` is ready: at dispatch, or by whatever satisfies one of the
    action's arguments. -/
def suppliedSlot (i : Nat) (c : eOperandCode) : Bool :=
  inst.initially c || (List.range (inst.arity i)).any fun k =>
    !inst.given i k && inst.nodes.all fun j => !inst.signals j i k || (inst.writes j).contains c

def supplied : Bool := inst.nodes.all fun i => (inst.reads i).all (inst.suppliedSlot i)

/-- Every argument is given, or satisfied by an action of a lower rank. -/
def ranked (ranks : List Nat) : Bool :=
  inst.nodes.all fun i => (List.range (inst.arity i)).all fun k =>
    inst.given i k || inst.nodes.any fun j => ranks.getD j 0 < ranks.getD i 0 && inst.signals j i k

end Check

/-- The operands and effects of an instruction fit the facts, and every slot that is read is
    supplied. -/
structure Placed (inst : SemanticInstruction) (env : Env) (F : Facts) : Prop where
  operands : ∀ p ∈ inst.theOperands, F.Slot p.1 p.2
  effects : ∀ e ∈ inst.dispatchEffects, e.Fits env F inst.decoded
  supplied : inst.supplied = true

/-- What makes an instruction complete: beside its operands and effects its actions fit the
    facts, and every argument is satisfied in the end. -/
structure Wired (inst : SemanticInstruction) (env : Env) (F : Facts) : Prop extends Placed inst env F where
  actions : ∀ c ∈ inst.components, c.theAction.predicate → c.theAction.Fits env F
  ranked : ∃ ranks, inst.ranked ranks = true

variable {inst : SemanticInstruction} {env : Env} {F : Facts}

theorem slot_set {m : OperandMap} {code c : eOperandCode} {v : Operand} (hv : F.Slot code v)
    (h : F.Slot c (m.operand c)) : F.Slot c ((m.set code v).operand c) := by
  by_cases hsame : c = code
  · subst hsame
    rwa [OperandMap.operand_set_self]
  · rwa [OperandMap.operand_set_of_ne _ _ _ _ hsame]

theorem slot_set_self {m : OperandMap} {code : eOperandCode} {v : Operand} (hv : F.Slot code v) :
    F.Slot code ((m.set code v).operand code) := by
  rwa [OperandMap.operand_set_self]

/-- The registers that the decoder has named are still in their slots. -/
def Named (decoded m : OperandMap) : Prop := ∀ i r, decoded i = some (.reg r) → i.kind = .name → m i = some (.reg r)

theorem named_set {decoded m : OperandMap} {code : eOperandCode} {v : Operand} (hkind : code.kind = .mapped)
    (h : Named decoded m) : Named decoded (m.set code v) := by
  intro i r hi hname
  have hne : i ≠ code := by
    intro hsame
    rw [hsame, hkind] at hname
    cases hname
  rw [OperandMap.set, Function.update_of_ne hne]
  exact h i r hi hname

theorem invoke_ok {decoded m : OperandMap} {e : Effect} (he : e.Fits env F decoded) (hnamed : Named decoded m)
    (hkinds : ∀ i r, decoded i = some (.reg r) → i.kind = .name) :
    ∃ m', e.invoke env m = .ok m' ∧ Named decoded m' ∧ (∀ c, F.Slot c (m.operand c) → F.Slot c (m'.operand c)) ∧
      ∀ c ∈ e.outputs, F.Slot c (m'.operand c) := by
  cases e with
  | mapSource i o =>
    obtain ⟨ho, r, hr, hname⟩ := he
    have hslot : F.Slot o (.mapped_reg (env.mapped r)) := by rw [Facts.slot_mapped ho, hname]
    have hm : m.operand i = .reg r := by rw [OperandMap.operand, hnamed i r hr (hkinds i r hr)]; rfl
    refine ⟨m.set o (.mapped_reg (env.mapped r)), ?_, named_set ho hnamed, fun c hc => slot_set hslot hc, ?_⟩
    · rw [Effect.invoke, hm]
      rfl
    · intro c hc
      rw [List.mem_singleton.mp hc]
      exact slot_set_self hslot
  | mapDestination i o p =>
    obtain ⟨ho, hp, r, hr, hname, hprev⟩ := he
    have hslot : F.Slot o (.mapped_reg (env.created r)) := by rw [Facts.slot_mapped ho, hname]
    have hslotp : F.Slot p (.mapped_reg (env.previous r)) := by rw [Facts.slot_mapped hp, hprev]
    have hm : m.operand i = .reg r := by rw [OperandMap.operand, hnamed i r hr (hkinds i r hr)]; rfl
    refine ⟨(m.set o (.mapped_reg (env.created r))).set p (.mapped_reg (env.previous r)), ?_,
      named_set hp (named_set ho hnamed), fun c hc => slot_set hslotp (slot_set hslot hc), ?_⟩
    · rw [Effect.invoke, hm]
      rfl
    · intro c hc
      rcases List.mem_cons.mp hc with rfl | hc
      · exact slot_set hslotp (slot_set_self hslot)
      · rw [List.mem_singleton.mp hc]
        exact slot_set_self hslotp
  | satisfy d => exact ⟨m, rfl, hnamed, fun c hc => hc, fun c hc => by cases hc⟩

theorem invokes_ok {decoded : OperandMap} (hkinds : ∀ i r, decoded i = some (.reg r) → i.kind = .name)
    {es : List Effect} (hes : ∀ e ∈ es, e.Fits env F decoded) {m : OperandMap} (hnamed : Named decoded m) :
    ∃ m', es.foldlM (Effect.invoke env) m = .ok m' ∧ (∀ c, F.Slot c (m.operand c) → F.Slot c (m'.operand c)) ∧
      ∀ e ∈ es, ∀ c ∈ e.outputs, F.Slot c (m'.operand c) := by
  induction es generalizing m with
  | nil => exact ⟨m, rfl, fun c hc => hc, fun e he => by cases he⟩
  | cons e es ih =>
    obtain ⟨m₁, hinv, hnamed₁, hkeep, hout⟩ := invoke_ok (hes e (List.mem_cons_self ..)) hnamed hkinds
    obtain ⟨m₂, hrest, hkeep₂, hout₂⟩ := ih (fun e he => hes e (List.mem_cons_of_mem _ he)) hnamed₁
    refine ⟨m₂, ?_, fun c hc => hkeep₂ c (hkeep c hc), ?_⟩
    · rw [List.foldlM_cons, hinv]
      exact hrest
    · intro e' he'
      rcases List.mem_cons.mp he' with rfl | he'
      · exact fun c hc => hkeep₂ c (hout c hc)
      · exact hout₂ e' he'

theorem slot_of_lookup {l : List (eOperandCode × Operand)} (hl : ∀ p ∈ l, F.Slot p.1 p.2) {c : eOperandCode}
    {v : Operand} (hv : l.lookup c = some v) : F.Slot c v := by
  obtain ⟨p, hp, rfl, rfl⟩ : ∃ p ∈ l, p.1 = c ∧ p.2 = v := by
    rw [List.lookup_eq_some_iff] at hv
    obtain ⟨l₁, l₂, rfl, -⟩ := hv
    exact ⟨(c, v), by simp, rfl, rfl⟩
  exact hl p hp

/-- The dispatch succeeds, and all that it or the decoder has set fits the facts. -/
theorem Placed.dispatch_ok (h : inst.Placed env F) :
    ∃ m, inst.dispatch env = .ok m ∧ ∀ c, inst.initially c = true → F.Slot c (m.operand c) := by
  have hkinds : ∀ i r, inst.decoded i = some (.reg r) → i.kind = .name := by
    intro i r hi
    have hslot := slot_of_lookup h.operands hi
    unfold Facts.Slot at hslot
    split at hslot
    · assumption
    · cases hslot
    · obtain ⟨x, hx, -⟩ := hslot
      cases hx
  obtain ⟨m, hm, hkeep, hout⟩ := invokes_ok hkinds h.effects (m := inst.decoded) fun i r hi _ => hi
  refine ⟨m, hm, fun c hc => ?_⟩
  rcases Bool.or_eq_true_iff.mp hc with hset | heffect
  · obtain ⟨v, hv⟩ := Option.isSome_iff_exists.mp hset
    apply hkeep
    rw [OperandMap.operand, decoded, hv]
    exact slot_of_lookup h.operands hv
  · obtain ⟨e, he, hce⟩ := List.any_eq_true.mp heffect
    exact hout e he c (List.contains_iff_mem.mp hce)

/-- The places that an action needs. -/
def needs (inst : SemanticInstruction) (i : Nat) : List Place := (inst.reads i).map .slot

/-- The places that an action sets. -/
def provides (inst : SemanticInstruction) (F : Facts) (i : Nat) : List Place :=
  (inst.writes i).map .slot ++
    ((inst.components[i]?.bind (·.theAction.destination)).map fun d => Place.register (F.name d)).toList

theorem mem_nodes {i : Nat} : i ∈ inst.nodes ↔ i < inst.components.length ∧ inst.runs i = true := by
  rw [nodes, List.mem_filter, List.mem_range]

theorem exists_component {i : Nat} (hi : i ∈ inst.nodes) :
    ∃ c, inst.components[i]? = some c ∧ c ∈ inst.components ∧ c.theAction.predicate = true := by
  obtain ⟨hlt, hruns⟩ := mem_nodes.mp hi
  have hget : inst.components[i]? = some inst.components[i] := List.getElem?_eq_getElem hlt
  refine ⟨_, hget, List.getElem_mem hlt, ?_⟩
  rw [runs, hget, Option.elim_some, Bool.and_eq_true] at hruns
  exact hruns.1

/-- An action that fits the facts, evaluated where all that it needs holds, succeeds, keeps what
    holds, and provides what it sets. -/
theorem runsWell {i : Nat} {c : Component} (hget : inst.components[i]? = some c) (hfits : c.theAction.Fits env F) :
    RunsWell (inst.network env) F.Holds inst.needs (inst.provides F) i := by
  intro s hneeds
  have hreads : ∀ code ∈ c.theAction.reads, F.Holds (.slot code) s := by
    intro code hcode
    apply hneeds
    rw [needs, reads, hget]
    exact List.mem_map_of_mem hcode
  obtain ⟨s', heval, hleaves⟩ := hfits.leaves hreads
  refine ⟨s', ?_, hleaves.kept, ?_⟩
  · change inst.components[i]?.elim _ _ = _
    rw [hget]
    exact heval
  · intro p hp
    rw [provides, writes, hget, List.mem_append] at hp
    rcases hp with hslot | hreg
    · obtain ⟨code, hcode, rfl⟩ := List.mem_map.mp hslot
      exact hleaves.slots code hcode
    · rw [Option.mem_toList, Option.map_eq_some_iff] at hreg
      obtain ⟨d, hd, rfl⟩ := hreg
      exact hleaves.written d hd

theorem Placed.supply (h : inst.Placed env F) {m : OperandMap}
    (hm : ∀ c, inst.initially c = true → F.Slot c (m.operand c)) :
    Supply (inst.network env) F.Holds inst.needs (inst.provides F) ⟨m, fun _ => none⟩ := by
  intro i hi p hp
  obtain ⟨code, hcode, rfl⟩ := List.mem_map.mp hp
  have hsup := List.all_eq_true.mp (List.all_eq_true.mp h.supplied i hi) code hcode
  rcases Bool.or_eq_true_iff.mp hsup with hinit | hany
  · exact Or.inl (hm code hinit)
  · obtain ⟨k, hk, hcheck⟩ := List.any_eq_true.mp hany
    rw [Bool.and_eq_true] at hcheck
    refine Or.inr ⟨k, List.mem_range.mp hk, ?_, ?_⟩
    · intro hgiven
      change inst.given i k = true at hgiven
      rw [hgiven] at hcheck
      exact absurd hcheck.1 Bool.false_ne_true
    · intro j hj hsig
      have hwrites := List.all_eq_true.mp hcheck.2 j hj
      change inst.signals j i k = true at hsig
      rw [hsig, Bool.not_true, Bool.false_or, List.contains_iff_mem] at hwrites
      exact List.mem_append_left _ (List.mem_map_of_mem hwrites)

/-- The network of a wired instruction is supplied. -/
theorem Wired.network_supplied (h : inst.Wired env F) {m : OperandMap}
    (hm : ∀ c, inst.initially c = true → F.Slot c (m.operand c)) :
    Supplied (inst.network env) F.Holds inst.needs (inst.provides F) ⟨m, fun _ => none⟩ where
  runs i hi := by
    obtain ⟨c, hget, hmem, hpred⟩ := exists_component hi
    exact runsWell hget (h.actions c hmem hpred)
  supply := h.supply hm

theorem ranked_network {ranks : List Nat} (h : inst.ranked ranks = true) :
    Ranked (inst.network env) (ranks.getD · 0) := by
  intro i hi k hk
  have hcheck := List.all_eq_true.mp (List.all_eq_true.mp h i hi) k (List.mem_range.mpr hk)
  rcases Bool.or_eq_true_iff.mp hcheck with hgiven | hany
  · exact Or.inl hgiven
  · obtain ⟨j, hj, hless⟩ := List.any_eq_true.mp hany
    rw [Bool.and_eq_true, decide_eq_true_iff] at hless
    exact Or.inr ⟨j, hj, hless.1, hless.2⟩

theorem getD_le_sum (ranks : List Nat) (i : Nat) : ranks.getD i 0 ≤ ranks.sum := by
  rw [List.getD_eq_getElem?_getD]
  by_cases hi : i < ranks.length
  · rw [List.getElem?_eq_getElem hi]
    exact List.le_sum_of_mem (List.getElem_mem hi)
  · rw [List.getElem?_eq_none (by omega)]
    exact Nat.zero_le _

/-- A wired instruction completes. -/
theorem Wired.completes (h : inst.Wired env F) : inst.Completes env := by
  obtain ⟨m, hm, hinit⟩ := h.dispatch_ok
  have hsup := h.network_supplied hinit
  refine ⟨⟨m, hm⟩, ?_, ?_⟩
  · intro m' hm' s hs i f
    rw [hm] at hm'
    rw [← Except.ok.inj hm'] at hs
    exact hsup.never_fails hs i f
  · intro m' hm'
    rw [hm] at hm'
    rw [← Except.ok.inj hm']
    obtain ⟨ranks, hranked⟩ := h.ranked
    refine ⟨ranks.sum + 1, fun s hs rounds hrounds hlen => ?_⟩
    apply hsup.finished_of_rounds (ranked_network hranked) rounds hrounds _ hs
    intro i _
    have hle := getD_le_sum ranks i
    omega

/-- Where the actions of a wired instruction have all been evaluated, all that they set is as the
    facts say. -/
theorem Wired.holds (h : inst.Wired env F) {m : OperandMap} (hm : inst.dispatch env = .ok m)
    {s : Dataflow.State Nat Store} (hs : Reaches (step (inst.network env)) Anything (dispatched m) s)
    (hfin : Finished (inst.network env) s) {i : Nat} (hi : i ∈ inst.nodes) {p : Place}
    (hp : p ∈ inst.provides F i) : F.Holds p s.store := by
  obtain ⟨m', hm', hinit⟩ := h.dispatch_ok
  rw [hm] at hm'
  rw [← Except.ok.inj hm'] at hinit
  exact ((h.network_supplied hinit).reaches_sound hs).provided i (hfin i hi) p hp

/-- Its registers are written as the facts say. -/
theorem Wired.written (h : inst.Wired env F) {m : OperandMap} (hm : inst.dispatch env = .ok m)
    {s : Dataflow.State Nat Store} (hs : Reaches (step (inst.network env)) Anything (dispatched m) s)
    (hfin : Finished (inst.network env) s) {i : Nat} (hi : i ∈ inst.nodes) {d : eOperandCode}
    (hd : inst.components[i]?.bind (·.theAction.destination) = some d) :
    ∃ v, s.store.registers (F.name d) = some v ∧ F.register (F.name d) v := by
  apply h.holds hm hs hfin hi (p := .register (F.name d))
  rw [provides, hd]
  exact List.mem_append_right _ (List.mem_singleton_self _)

/-! ## Instructions that do not complete -/

/-- An action that is never evaluated keeps the instruction from completing. -/
theorem not_completes_of_never_done {i : Nat} (hi : i ∈ inst.nodes)
    (hnever : ∀ m, inst.dispatch env = .ok m → ∀ s, Reaches (step (inst.network env)) Anything (dispatched m) s →
      i ∉ s.done) : ¬inst.Completes env := by
  intro hcompletes
  obtain ⟨m, hm⟩ := hcompletes.dispatches
  obtain ⟨n, hn⟩ := hcompletes.finishes m hm
  obtain ⟨s', heval, hfin⟩ := hn _ .start (List.replicate n inst.nodes)
    (fun r hr => by rw [(List.mem_replicate.mp hr).2]; exact fun i hi => hi) (by simp)
  exact hnever m hm s' (reaches_of_evaluate .start heval) (hfin i hi)

/-- An argument of an action that nothing satisfies. -/
def blocked (inst : SemanticInstruction) (i k : Nat) : Bool :=
  inst.nodes.contains i && (decide (k < inst.arity i) && (!inst.given i k &&
    (List.range inst.components.length).all fun j => !inst.signals j i k))

theorem not_completes_of_blocked {i k : Nat} (h : inst.blocked i k = true) (env : Env) : ¬inst.Completes env := by
  simp only [blocked, Bool.and_eq_true, decide_eq_true_iff, Bool.not_eq_true'] at h
  obtain ⟨hi, hk, hgiven, hsource⟩ := h
  apply not_completes_of_never_done (List.contains_iff_mem.mp hi)
  intro m _ s hs
  have hwaits : k < (inst.network env).arity i := hk
  apply never_done hwaits _ _ hs
  · change ¬inst.given i k = true
    rw [hgiven]
    exact Bool.false_ne_true
  · intro j hj
    change inst.signals j i k = true at hj
    by_cases hlt : j < inst.components.length
    · have hnot := List.all_eq_true.mp hsource j (List.mem_range.mpr hlt)
      rw [hj] at hnot
      cases hnot
    · rw [signals, List.getElem?_eq_none (by omega)] at hj
      cases hj

/-- An action that fails on the operands that it finds, when all others fit the facts. -/
theorem Placed.not_completes (h : inst.Placed env F) {i : Nat} (hi : i ∈ inst.nodes)
    (hothers : ∀ j c, j ≠ i → inst.components[j]? = some c → c.theAction.predicate → c.theAction.Fits env F)
    {a : Component} (ha : inst.components[i]? = some a)
    (hfails : ∀ s, (∀ code ∈ a.theAction.reads, F.Holds (.slot code) s) → ∀ s', a.theAction.doEvaluate env s ≠ .ok s') :
    ¬inst.Completes env := by
  obtain ⟨m, hm, hinit⟩ := h.dispatch_ok
  apply not_completes_of_never_done hi
  intro m' hm' s hs
  rw [hm] at hm'
  rw [← Except.ok.inj hm'] at hs
  apply never_done_of_fails (h.supply hinit) _ _ hs
  · intro j hj hne
    obtain ⟨c, hget, -, hpred⟩ := exists_component hj
    exact runsWell hget (hothers j c hne hget hpred)
  · intro store hneeds s' hrun
    change inst.components[i]?.elim _ _ = _ at hrun
    rw [ha] at hrun
    apply hfails store _ s' hrun
    intro code hcode
    apply hneeds
    rw [needs, reads, ha]
    exact List.mem_map_of_mem hcode

end SemanticInstruction

end narmDecoder
