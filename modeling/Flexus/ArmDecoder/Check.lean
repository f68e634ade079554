import Flexus.ArmDecoder.Wiring

/-!
# Checking the wiring

A check of an instruction's operands, effects and actions that is computed from its structure.
-/

namespace narmDecoder

/-! ## Operations -/

/-- The operations that succeed on every list of 64-bit operands of the right length. -/
def Operation.accepts (op : Operation) (n : Nat) : Bool :=
  op.theOperands.isEmpty &&
    match op.theType with
    | .kADD_ => n == 1 || n == 2
    | .kADDS_ | .kSUBS_ => n == 2 || n == 3
    | .kAND_ | .kANDS_ | .kANDSN_ | .kORR_ | .kXOR_ | .kSUB_ | .kAndN_ | .kOrN_ | .kEoN_ | .kXnor_ => n == 2
    | .kMulX_ | .kUMul_ | .kUMulH_ | .kUMulL_ | .kSMul_ | .kSMulH_ | .kSMulL_ => n == 2
    | .kUDivX_ | .kUDiv_ | .kSDiv_ | .kSDivX_ => n == 2
    | .kMOV_ | .kMOVN_ | .kNot_ => n == 1
    | .kSextB_ | .kSextH_ | .kSextW_ | .kSextX_ | .kZextB_ | .kZextH_ | .kZextW_ | .kZextX_ => n == 1
    | .kMOVK_ | .kOVERWRITE_ => n == 3
    | _ => false

def Operation.isShift (op : Operation) : Bool :=
  match op.theType with
  | .kLSL_ | .kLSR_ | .kASR_ | .kROR_ => true
  | _ => false

theorem Operation.apply_of_accepts {op : Operation} {xs : List (BitVec 64)} (h : op.accepts xs.length = true) :
    ∃ y nzcv, op.apply (xs.map .uint64) = .ok ⟨.uint64 y, nzcv, false⟩ ∧
      nzcv.isSome = op.setsFlags := by
  obtain ⟨theType, theOperands⟩ := op
  rw [accepts, Bool.and_eq_true, List.isEmpty_iff] at h
  obtain ⟨hempty, hlen⟩ := h
  dsimp only at hempty hlen
  subst hempty
  match xs with
  | [] => cases theType <;> cases hlen
  | [x] => cases theType <;> first | exact ⟨_, _, rfl, rfl⟩ | cases hlen
  | [x, y] => cases theType <;> first | exact ⟨_, _, rfl, rfl⟩ | cases hlen
  | [x, y, z] => cases theType <;> first | exact ⟨_, _, rfl, rfl⟩ | cases hlen
  | _ :: _ :: _ :: _ :: xs =>
    exfalso
    cases theType <;> simp at hlen

theorem ones_ok {length : BitVec 64} (h : length.toNat < 2 ^ 32) : ∃ y, ones length = .ok y := by
  rw [ones, if_pos h]
  exact ⟨_, rfl⟩

theorem assert_size {size : BitVec 64} (h : size = 64#64 ∨ size = 32#64) :
    assert (size = 64#64 ∨ size = 32#64) = .ok () := by
  rw [assert, if_pos h]

theorem ror_ok (input : BitVec 64) {size amount : BitVec 64} (hsize : size = 64#64 ∨ size = 32#64)
    (hamount : amount.toNat < 2 ^ 32) : ∃ y, ror input size amount = .ok y := by
  obtain ⟨y, hy⟩ := ones_ok hamount
  rw [ror, assert_size hsize]
  simp only [hy, bind, Except.bind]
  exact ⟨_, rfl⟩

theorem asr_ok (input amount : BitVec 64) {size : BitVec 64} (hsize : size = 64#64 ∨ size = 32#64)
    (hamount : input &&& intBit (size - 1).toNat ≠ 0#64 → amount.toNat < 2 ^ 32) :
    ∃ y, asr input size amount = .ok y := by
  rw [asr, assert_size hsize]
  simp only [bind, Except.bind]
  split
  · next hsign =>
    obtain ⟨y, hy⟩ := ones_ok (hamount hsign)
    simp only [hy]
    exact ⟨_, rfl⟩
  · exact ⟨_, rfl⟩

theorem shiftBy_ok (f : BitVec 64 → Nat → BitVec 64) (input amount : BitVec 64) {size : BitVec 64}
    (hsize : size = 64#64 ∨ size = 32#64) : ∃ y, shiftBy f input amount size = .ok y := by
  have hne : size ≠ 0#64 := by rcases hsize with rfl | rfl <;> decide
  rw [shiftBy, if_neg hne]
  exact ⟨_, rfl⟩

/-- A shift by a constant of a word or a doubleword. -/
theorem Operation.apply_shift {op : Operation} (hop : op.isShift = true) (input : BitVec 64) {amount size : BitVec 64}
    (hsize : size = 64#64 ∨ size = 32#64) (hamount : amount.toNat < 2 ^ 32) :
    ∃ y, op.apply [.uint64 input, .uint64 amount, .uint64 size] = .ok ⟨.uint64 y, none, false⟩ := by
  obtain ⟨theType, theOperands⟩ := op
  obtain ⟨y, hy⟩ : ∃ y, (match theType with
      | .kLSL_ => shiftBy shl64 input amount size
      | .kLSR_ => shiftBy shr64 input amount size
      | .kASR_ => asr input size amount
      | _ => ror input size amount) = .ok y := by
    cases theType <;>
      first
      | exact shiftBy_ok _ _ _ hsize
      | exact asr_ok _ _ hsize fun _ => hamount
      | exact ror_ok _ hsize hamount
  refine ⟨y, ?_⟩
  cases theType <;> try cases hop
  all_goals
    dsimp only at hy
    simp only [Operation.apply, LSL, LSR, ASR, ROR, ternary, Operand.getUint64, bind, Except.bind, pure, Except.pure, hy,
      plain]

/-! ## Instructions -/

/-- The physical register that an effect puts into a slot. -/
def Effect.gives (env : Env) (m : OperandMap) (c : eOperandCode) : Effect → Option mapped_reg
  | mapSource i o =>
    match m i with
    | some (.reg r) => if c = o then some (env.mapped r) else none
    | _ => none
  | mapDestination i o p =>
    match m i with
    | some (.reg r) => if c = o then some (env.created r) else if c = p then some (env.previous r) else none
    | _ => none
  | satisfy _ => none

namespace SemanticInstruction

section Check

variable (inst : SemanticInstruction)

/-- The physical register that the dispatch puts into a slot. -/
def names (env : Env) (c : eOperandCode) : mapped_reg :=
  (inst.dispatchEffects.findSome? (Effect.gives env inst.decoded c)).getD ⟨.xRegisters, 0⟩

/-- The values that the decoder has set stay as they are. Of all others only the type is known. -/
def decodedFacts (env : Env) : Facts where
  name := inst.names env
  value c v := ∀ x, inst.decoded c = some (.uint64 x) → v = x
  register _ _ := True

/-- A slot for data that the decoder has not set. -/
def free (c : eOperandCode) : Bool := c.kind = .data && (inst.decoded c).isNone

def isReg (c : eOperandCode) : Bool :=
  match inst.decoded c with
  | some (.reg _) => true
  | _ => false

def checkOperand : eOperandCode × Operand → Bool
  | (c, .reg _) => c.kind = .name
  | (c, .uint64 _) => c.kind = .data
  | _ => false

def checkEffect : Effect → Bool
  | .mapSource i o => o.kind = .mapped && inst.isReg i
  | .mapDestination i o p => o.kind = .mapped && p.kind = .mapped && inst.isReg i
  | .satisfy _ => true

def checkAction : Action → Bool
  | .readRegister c o _ => c.kind = .mapped && inst.free o
  | .readConstant _ o => inst.free o
  | .execute _ ops r => ops.all (·.kind = .data) && inst.free r && inst.free .kResultCC
  | .bitField c1 c2 .. => c1.kind = .data && c2.kind = .data && inst.free .kResult
  | .extract c1 c2 c3 _ => c1.kind = .data && c2.kind = .data && c3.kind = .data && inst.free .kResult
  | .ror c1 c2 _ => c1.kind = .data && c2.kind = .data && inst.free .kResult
  | .reverse c o _ => c.kind = .data && inst.free o
  | .reorder c o _ _ => c.kind = .data && inst.free o
  | .count c o _ _ => c.kind = .data && inst.free o
  | .conditionSelect r _ _ => r = .kResult && inst.free .kResult && (inst.decoded .kCondition).isSome
  | .conditionCompare r _ _ =>
    r = .kResult && inst.free .kResult && inst.free .kResultCC && (inst.decoded .kCondition).isSome
  | .writeback r d _ => inst.free r && d.kind = .mapped
  | .writecc cc _ => cc.kind = .mapped
  | _ => false

/-- The check. No slot is set twice before the actions are evaluated. -/
def check (ranks : List Nat) : Bool :=
  inst.theOperands.all checkOperand && decide (inst.theOperands.map Prod.fst).Nodup &&
    (inst.dispatchEffects.all inst.checkEffect && decide (inst.dispatchEffects.flatMap Effect.outputs).Nodup) &&
    (inst.components.all fun c => !c.theAction.predicate || inst.checkAction c.theAction) &&
    (inst.supplied && inst.ranked ranks)

/-- Its operations, with the slots of their operands. -/
def executes : List (Operation × List eOperandCode) := inst.components.filterMap fun c =>
  match c.theAction with
  | .execute op ops _ => some (op, ops)
  | _ => none

/-- The rotations of its bit fields. -/
def rotations : List (BitVec 64) := inst.components.filterMap fun c =>
  match c.theAction with
  | .bitField _ _ _ theR _ _ _ _ => some theR
  | _ => none

/-- A shift by an amount and of a size that the decoder has set. -/
structure ShiftFits (op : Operation) (ops : List eOperandCode) : Prop where
  isShift : op.isShift = true
  operands : ∃ c, ops = [c, .kOperand4, .kOperand5]
  amount : ∃ amount, inst.decoded .kOperand4 = some (.uint64 amount) ∧ amount.toNat < 2 ^ 32
  size : ∃ size, inst.decoded .kOperand5 = some (.uint64 size) ∧ (size = 64#64 ∨ size = 32#64)

/-- An operation that accepts its operands, or such a shift. -/
def OperationFits (p : Operation × List eOperandCode) : Prop :=
  p.1.accepts p.2.length = true ∨ inst.ShiftFits p.1 p.2

/-- The operations accept their operands, and the numbers that the decoder has set are in range. -/
structure InRange : Prop where
  operations : ∀ p ∈ inst.executes, inst.OperationFits p
  condition : ∀ x, inst.decoded .kCondition = some (.uint64 x) → x.toNat < 16
  rotation : ∀ theR ∈ inst.rotations, theR.toNat < 2 ^ 32

/-- An instruction without conditions and rotations. -/
def plain : Bool := (inst.decoded .kCondition).isNone && inst.rotations.isEmpty

end Check

variable {inst : SemanticInstruction} {env : Env}

theorem inRange_of_plain (l : List (Operation × List eOperandCode)) (h : inst.plain = true)
    (hexec : inst.executes = l) (hops : ∀ p ∈ l, inst.OperationFits p) : inst.InRange := by
  rw [plain, Bool.and_eq_true] at h
  refine ⟨hexec ▸ hops, ?_, ?_⟩
  · intro x hx
    rw [hx] at h
    cases h.1
  · intro theR hmem
    rw [List.isEmpty_iff.mp h.2] at hmem
    cases hmem

theorem kind_of_free {c : eOperandCode} (h : inst.free c = true) : c.kind = .data := by
  rw [free, Bool.and_eq_true, decide_eq_true_iff] at h
  exact h.1

theorem value_of_free {c : eOperandCode} (h : inst.free c = true) (v : BitVec 64) :
    c.kind = .data ∧ (inst.decodedFacts env).value c v := by
  refine ⟨kind_of_free h, fun x hx => ?_⟩
  rw [free, Bool.and_eq_true, Option.isNone_iff_eq_none] at h
  rw [h.2] at hx
  cases hx

theorem lookup_of_mem {l : List (eOperandCode × Operand)} (hnodup : (l.map Prod.fst).Nodup) {c : eOperandCode}
    {v : Operand} (h : (c, v) ∈ l) : l.lookup c = some v := by
  induction l with
  | nil => cases h
  | cons p l ih =>
    obtain ⟨d, w⟩ := p
    rw [List.map_cons, List.nodup_cons] at hnodup
    rcases List.mem_cons.mp h with hsame | htail
    · cases hsame
      rw [List.lookup_cons_self]
    · have hne : c ≠ d := by
        rintro rfl
        exact hnodup.1 (List.mem_map.mpr ⟨(c, v), htail, rfl⟩)
      rw [List.lookup_cons, beq_false_of_ne hne]
      exact ih hnodup.2 htail

theorem operand_fits (hnodup : (inst.theOperands.map Prod.fst).Nodup) {p : eOperandCode × Operand}
    (hp : p ∈ inst.theOperands) (h : checkOperand p = true) : (inst.decodedFacts env).Slot p.1 p.2 := by
  obtain ⟨c, v⟩ := p
  cases v with
  | reg r =>
    have hkind : c.kind = .name := of_decide_eq_true h
    rw [Facts.Slot, hkind]
    exact ⟨r, rfl⟩
  | uint64 x =>
    have hkind : c.kind = .data := of_decide_eq_true h
    rw [Facts.slot_data hkind]
    refine ⟨x, rfl, fun y hy => ?_⟩
    rw [decoded, lookup_of_mem hnodup hp] at hy
    cases hy
    rfl
  | _ => cases h

theorem gives_none {m : OperandMap} {c : eOperandCode} {e : Effect} (h : c ∉ e.outputs) : e.gives env m c = none := by
  cases e with
  | mapSource i o =>
    have hne : c ≠ o := fun hc => h (by simp [Effect.outputs, hc])
    rw [Effect.gives]
    split
    · rw [if_neg hne]
    · rfl
  | mapDestination i o p =>
    have hneo : c ≠ o := fun hc => h (by simp [Effect.outputs, hc])
    have hnep : c ≠ p := fun hc => h (by simp [Effect.outputs, hc])
    rw [Effect.gives]
    split
    · rw [if_neg hneo, if_neg hnep]
    · rfl
  | satisfy d => rfl

/-- The name in a slot is the one that the slot's effect gives. -/
theorem findSome_gives {m : OperandMap} {es : List Effect} (hnodup : (es.flatMap Effect.outputs).Nodup) {e : Effect}
    (he : e ∈ es) {c : eOperandCode} (hc : c ∈ e.outputs) {n : mapped_reg} (hn : e.gives env m c = some n) :
    es.findSome? (Effect.gives env m c) = some n := by
  induction es with
  | nil => cases he
  | cons d es ih =>
    rw [List.flatMap_cons, List.nodup_append] at hnodup
    rcases List.mem_cons.mp he with rfl | htail
    · rw [List.findSome?_cons, hn]
    · have hnot : c ∉ d.outputs := fun hd => hnodup.2.2 c hd c (List.mem_flatMap.mpr ⟨e, htail, hc⟩) rfl
      rw [List.findSome?_cons, gives_none hnot]
      exact ih hnodup.2.1 htail

theorem effect_fits (hnodup : (inst.dispatchEffects.flatMap Effect.outputs).Nodup) {e : Effect}
    (he : e ∈ inst.dispatchEffects) (h : inst.checkEffect e = true) :
    e.Fits env (inst.decodedFacts env) inst.decoded := by
  have hreg : ∀ i, inst.isReg i = true → ∃ r, inst.decoded i = some (.reg r) := by
    intro i hi
    rw [isReg] at hi
    split at hi
    · next r hr => exact ⟨r, hr⟩
    · cases hi
  have hname : ∀ c ∈ e.outputs, ∀ n, e.gives env inst.decoded c = some n → inst.names env c = n := by
    intro c hc n hn
    rw [names, findSome_gives hnodup he hc hn, Option.getD_some]
  cases e with
  | mapSource i o =>
    rw [checkEffect, Bool.and_eq_true, decide_eq_true_iff] at h
    obtain ⟨r, hr⟩ := hreg i h.2
    refine ⟨h.1, r, hr, hname o (by simp [Effect.outputs]) _ ?_⟩
    simp [Effect.gives, hr]
  | mapDestination i o p =>
    rw [checkEffect, Bool.and_eq_true, Bool.and_eq_true, decide_eq_true_iff, decide_eq_true_iff] at h
    obtain ⟨r, hr⟩ := hreg i h.2
    have hne : p ≠ o := by
      rintro rfl
      have hboth := (List.nodup_flatMap.mp hnodup).1 _ he
      simp [Effect.outputs] at hboth
    refine ⟨h.1.1, h.1.2, r, hr, hname o (by simp [Effect.outputs]) _ ?_, hname p (by simp [Effect.outputs]) _ ?_⟩
    · simp [Effect.gives, hr]
    · simp [Effect.gives, hr, hne]
  | satisfy d => trivial

/-- The values of three slots of which the second and the third have been set. -/
theorem shift_operands {F : Facts} {c : eOperandCode} {xs : List (BitVec 64)} {amount size : BitVec 64}
    (hamount : ∀ x, F.value .kOperand4 x → x = amount) (hsize : ∀ x, F.value .kOperand5 x → x = size)
    (h : List.Forall₂ F.value [c, .kOperand4, .kOperand5] xs) : ∃ x, xs = [x, amount, size] := by
  match xs, h with
  | [x, y, z], .cons _ (.cons hy (.cons hz .nil)) => exact ⟨x, by rw [hamount y hy, hsize z hz]⟩

theorem isShift_setsFlags {op : Operation} (h : op.isShift = true) : op.setsFlags = false := by
  revert h
  rw [Operation.isShift, Operation.setsFlags]
  cases op.theType <;> simp

theorem execute_fits {op : Operation} {ops : List eOperandCode} {r : eOperandCode}
    (hop : op.accepts ops.length = true ∨ inst.ShiftFits op ops) (h : inst.checkAction (.execute op ops r) = true) :
    (Action.execute op ops r).Fits env (inst.decodedFacts env) := by
  rw [checkAction, Bool.and_eq_true, Bool.and_eq_true] at h
  obtain ⟨⟨hkinds, hr⟩, hcc⟩ := h
  refine ⟨fun c hc => of_decide_eq_true (List.all_eq_true.mp hkinds c hc), kind_of_free hr, ?_⟩
  intro xs hxs
  rcases hop with haccepts | hshift
  · rw [hxs.length_eq] at haccepts
    obtain ⟨y, nzcv, happly, hsets⟩ := Operation.apply_of_accepts haccepts
    exact ⟨y, nzcv, happly, (value_of_free hr y).2, fun f _ => (value_of_free hcc _).2, fun hset => by rw [hsets, hset]⟩
  · obtain ⟨c, rfl⟩ := hshift.operands
    obtain ⟨amount, hamount, hlt⟩ := hshift.amount
    obtain ⟨size, hsize, hwidth⟩ := hshift.size
    obtain ⟨x, rfl⟩ := shift_operands (F := inst.decodedFacts env) (fun x hx => hx amount hamount)
      (fun x hx => hx size hsize) hxs
    obtain ⟨y, hy⟩ := Operation.apply_shift hshift.isShift x hwidth hlt
    refine ⟨y, none, hy, (value_of_free hr y).2, fun f hf => (by cases hf), fun hset => ?_⟩
    rw [isShift_setsFlags hshift.isShift] at hset
    cases hset

theorem condition_fits (hnodup : ∀ p ∈ inst.theOperands, checkOperand p = true) (hrange : inst.InRange)
    (hset : (inst.decoded .kCondition).isSome = true) {x : BitVec 64}
    (hx : (inst.decodedFacts env).value .kCondition x) : x.toNat < 16 := by
  obtain ⟨v, hv⟩ := Option.isSome_iff_exists.mp hset
  have hmem : checkOperand (.kCondition, v) = true := by
    rw [decoded, List.lookup_eq_some_iff] at hv
    obtain ⟨l₁, l₂, hl, -⟩ := hv
    exact hnodup _ (by rw [hl]; simp)
  cases v with
  | uint64 y =>
    rw [hx y hv]
    exact hrange.condition y hv
  | _ => cases hmem

theorem action_fits (hops : ∀ p ∈ inst.theOperands, checkOperand p = true) (hrange : inst.InRange) {c : Component}
    (hc : c ∈ inst.components) (h : inst.checkAction c.theAction = true) :
    c.theAction.Fits env (inst.decodedFacts env) := by
  have hexec : ∀ op ops r, c.theAction = .execute op ops r →
      op.accepts ops.length = true ∨ inst.ShiftFits op ops := by
    intro op ops r hact
    apply hrange.operations (op, ops)
    rw [executes, List.mem_filterMap]
    exact ⟨c, hc, by rw [hact]⟩
  have hrot : ∀ c1 c2 S R w t e s, c.theAction = .bitField c1 c2 S R w t e s → R.toNat < 2 ^ 32 := by
    intro c1 c2 S R w t e s hact
    apply hrange.rotation
    rw [rotations, List.mem_filterMap]
    exact ⟨c, hc, by rw [hact]⟩
  generalize c.theAction = a at h hexec hrot
  cases a with
  | readRegister c o _ =>
    rw [checkAction, Bool.and_eq_true, decide_eq_true_iff] at h
    exact ⟨h.1, value_of_free h.2 _⟩
  | readConstant v o => exact value_of_free h _
  | execute op ops r => exact execute_fits (hexec op ops r rfl) h
  | bitField c1 c2 S R w t e the64 =>
    simp only [checkAction, Bool.and_eq_true, decide_eq_true_iff] at h
    obtain ⟨⟨h1, h2⟩, hres⟩ := h
    refine ⟨h1, h2, fun src dst _ _ => ?_⟩
    have hsize : Action.operandSize the64 = 64#64 ∨ Action.operandSize the64 = 32#64 := by
      cases the64
      · exact Or.inr rfl
      · exact Or.inl rfl
    obtain ⟨y, hy⟩ := ror_ok src hsize (hrot c1 c2 S R w t e the64 rfl)
    exact ⟨y, hy, (value_of_free hres _).2⟩
  | extract c1 c2 c3 the64 =>
    simp only [checkAction, Bool.and_eq_true, decide_eq_true_iff] at h
    obtain ⟨⟨⟨h1, h2⟩, h3⟩, hres⟩ := h
    refine ⟨h1, h2, h3, fun src src2 imm _ _ _ => ?_⟩
    cases the64 <;> exact ⟨_, rfl, (value_of_free hres _).2⟩
  | ror c1 c2 the64 =>
    simp only [checkAction, Bool.and_eq_true, decide_eq_true_iff] at h
    obtain ⟨⟨h1, h2⟩, hres⟩ := h
    refine ⟨h1, h2, fun src imm _ _ => ?_⟩
    cases the64 <;> exact ⟨_, rfl, (value_of_free hres _).2⟩
  | reverse c o the64 =>
    rw [checkAction, Bool.and_eq_true, decide_eq_true_iff] at h
    exact ⟨h.1, kind_of_free h.2, fun x _ => (value_of_free h.2 _).2⟩
  | reorder c o size the64 =>
    rw [checkAction, Bool.and_eq_true, decide_eq_true_iff] at h
    exact ⟨h.1, kind_of_free h.2, fun x _ => (value_of_free h.2 _).2⟩
  | count c o op the64 =>
    rw [checkAction, Bool.and_eq_true, decide_eq_true_iff] at h
    exact ⟨h.1, kind_of_free h.2, fun x _ => (value_of_free h.2 _).2⟩
  | conditionSelect r inv inc =>
    simp only [checkAction, Bool.and_eq_true, decide_eq_true_iff] at h
    exact ⟨h.1.1, fun x hx => condition_fits hops hrange h.2 hx, fun x => (value_of_free h.1.2 x).2⟩
  | conditionCompare r sub the64 =>
    simp only [checkAction, Bool.and_eq_true, decide_eq_true_iff] at h
    exact ⟨h.1.1.1, fun x hx => condition_fits hops hrange h.2 hx, fun x => (value_of_free h.1.1.2 x).2,
      fun x => (value_of_free h.1.2 x).2⟩
  | writeback r d the64 =>
    rw [checkAction, Bool.and_eq_true, decide_eq_true_iff] at h
    exact ⟨kind_of_free h.1, h.2, fun x _ => ⟨(value_of_free h.1 _).2, trivial⟩⟩
  | writecc cc the64 => exact ⟨of_decide_eq_true h, fun _ _ _ _ => trivial⟩
  | readNZCV b o => cases h
  | crc p c c2 o the64 => cases h
  | annul c o => cases h

/-- An instruction that passes the check is wired. -/
theorem wired_of_check (ranks : List Nat) (h : inst.check ranks = true) (hrange : inst.InRange) (env : Env) :
    inst.Wired env (inst.decodedFacts env) := by
  simp only [check, Bool.and_eq_true, decide_eq_true_iff] at h
  obtain ⟨⟨⟨⟨hops, hnodup⟩, heffects, houtputs⟩, hactions⟩, hsup, hranked⟩ := h
  have hops := List.all_eq_true.mp hops
  refine ⟨⟨?_, ?_, hsup⟩, ?_, ⟨ranks, hranked⟩⟩
  · exact fun p hp => operand_fits hnodup hp (hops p hp)
  · exact fun e he => effect_fits houtputs he (List.all_eq_true.mp heffects e he)
  · intro c hc hpred
    apply action_fits hops hrange hc
    have hcheck := List.all_eq_true.mp hactions c hc
    rwa [hpred, Bool.not_true, Bool.false_or] at hcheck

end SemanticInstruction

end narmDecoder
