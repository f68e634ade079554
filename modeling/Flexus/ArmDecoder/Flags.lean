import Flexus.Lib.AddWithCarry
import Flexus.Lib.BitFields
import Flexus.ArmDecoder.Operations

/-!
# The flags of an addition

`ADDS` and `SUBS` against the sum of two words and a carry. Their result, `N` and `Z` are always
right.
-/

namespace narmDecoder

open AddWithCarry

/-- The flag bits of four flags. -/
def nzcvBits (f : Flags) : BitVec 32 :=
  (if f.n then PSTATE_N else 0#32) ||| (if f.z then PSTATE_Z else 0#32) |||
    (if f.c then PSTATE_C else 0#32) ||| (if f.v then PSTATE_V else 0#32)

theorem nzcvBits_inj {f g : Flags} : nzcvBits f = nzcvBits g ↔ f = g := by
  constructor
  · intro h
    obtain ⟨fn, fz, fc, fv⟩ := f
    obtain ⟨gn, gz, gc, gv⟩ := g
    revert h
    revert fn fz fc fv gn gz gc gv
    decide
  · rintro rfl
    rfl

/-- The test of the sign bit. -/
theorem and_topBit_ne_zero_iff (x : BitVec 64) : x &&& (1#64 <<< 63) ≠ 0#64 ↔ x.msb = true := by
  rw [BitFields.and_bit_ne_zero_iff x (by omega), BitVec.msb_eq_getLsbD_last]

/-- The flags that `addWithFlags` sets for a carry of zero or one. -/
def flagsSet (op1 op2 : BitVec 64) (c : Bool) : Flags where
  n := (sum op1 op2 c).msb
  z := decide (sum op1 op2 c = 0#64)
  c := decide (sum op1 op2 c < op1 ∨ sum op1 op2 c < op2)
  v := false

theorem addWithFlags_eq (op1 op2 : BitVec 64) (c : Bool) :
    addWithFlags op1 op2 (BitVec.ofNat 64 c.toNat) =
      ⟨.uint64 (sum op1 op2 c), some (nzcvBits (flagsSet op1 op2 c)), false⟩ := by
  simp only [addWithFlags, add_add_eq_sum, and_topBit_ne_zero_iff, flagsSet, nzcvBits, if_true, decide_eq_true_eq,
    Bool.decide_or, Bool.false_eq_true, if_false]

/-! ## Both operations -/

/-- The number the operation adds: the second operand of an addition, its complement in a
    subtraction. -/
def addend (sub : Bool) (y : BitVec 64) : BitVec 64 := if sub then ~~~y else y

/-- The carry-in, by default none for an addition and one for a subtraction. -/
def carryIn (sub : Bool) (carry : Option Bool) : Bool := carry.getD sub

/-- `ADDS` or `SUBS` with the operands and, in the form with three operands, a carry. -/
def addSub (sub : Bool) (x y : BitVec 64) (carry : Option Bool) : Except Fault Applied :=
  (operation (if sub then .kSUBS_ else .kADDS_)).apply
    ([.uint64 x, .uint64 y] ++ (carry.map fun c => Operand.uint64 (BitVec.ofNat 64 c.toNat)).toList)

theorem addSub_eq (sub : Bool) (x y : BitVec 64) (carry : Option Bool) :
    addSub sub x y carry =
      .ok ⟨.uint64 (sum x (addend sub y) (carryIn sub carry)),
        some (nzcvBits (flagsSet x (addend sub y) (carryIn sub carry))), false⟩ := by
  rw [← addWithFlags_eq]
  cases sub <;> cases carry <;> rfl

/-- The architecture's result: the wrapped sum and its flags. -/
def armAddSub (sub : Bool) (x y : BitVec 64) (carry : Option Bool) : Applied :=
  ⟨.uint64 (sum x (addend sub y) (carryIn sub carry)),
    some (nzcvBits (flags x (addend sub y) (carryIn sub carry))), false⟩

/-- The operands of which `addWithFlags` gets the carry and the overflow right: their signed
    sum is in range, and they are not two words of ones with a carry. -/
def FlagsRight (op1 op2 : BitVec 64) (c : Bool) : Prop :=
  Representable 64 (signedSum op1 op2 c) ∧
    ¬(op1 = BitVec.allOnes 64 ∧ op2 = BitVec.allOnes 64 ∧ c = true)

instance (op1 op2 : BitVec 64) (c : Bool) : Decidable (FlagsRight op1 op2 c) :=
  inferInstanceAs (Decidable (_ ∧ _))

/-- Two words of ones and a carry do produce a carry. -/
theorem carry_of_ones {op1 op2 : BitVec 64} {c : Bool}
    (h : op1 = BitVec.allOnes 64 ∧ op2 = BitVec.allOnes 64 ∧ c = true) :
    2 ^ 64 ≤ unsignedSum op1 op2 c := by
  obtain ⟨rfl, rfl, rfl⟩ := h
  decide

theorem flagsSet_eq_flags_iff (op1 op2 : BitVec 64) (c : Bool) :
    flagsSet op1 op2 c = flags op1 op2 c ↔ FlagsRight op1 op2 c := by
  have hc : (decide (sum op1 op2 c < op1 ∨ sum op1 op2 c < op2) = decide (2 ^ 64 ≤ unsignedSum op1 op2 c)) ↔
      ¬(op1 = BitVec.allOnes 64 ∧ op2 = BitVec.allOnes 64 ∧ c = true) := by
    rw [decide_eq_decide, sum_lt_or_lt_iff]
    constructor
    · intro hiff hones
      exact (hiff.mpr (carry_of_ones hones)).2 hones
    · intro hones
      exact ⟨And.left, fun hge => ⟨hge, hones⟩⟩
  have hv : (false = !decide (Representable 64 (signedSum op1 op2 c))) ↔
      Representable 64 (signedSum op1 op2 c) := by
    simp
  rw [Flags.ext_iff]
  unfold flagsSet flags FlagsRight
  dsimp only
  rw [hc, hv]
  constructor
  · rintro ⟨-, -, hones, hrep⟩
    exact ⟨hrep, hones⟩
  · rintro ⟨hrep, hones⟩
    exact ⟨rfl, rfl, hones, hrep⟩

/-- `ADDS` and `SUBS`, with two or three operands, follow the architecture for exactly the
    operands whose signed sum is in range and that are not two words of ones with a carry. -/
theorem addSub_eq_arm_iff (sub : Bool) (x y : BitVec 64) (carry : Option Bool) :
    addSub sub x y carry = .ok (armAddSub sub x y carry) ↔
      FlagsRight x (addend sub y) (carryIn sub carry) := by
  rw [addSub_eq, armAddSub, Except.ok.injEq, Applied.mk.injEq, Option.some.injEq, nzcvBits_inj,
    flagsSet_eq_flags_iff]
  simp

/-- The greatest number minus zero: the carry says that there was no borrow, and the code
    leaves it clear. The greatest signed number plus one overflows. -/
theorem not_addSub_eq_arm :
    addSub true (BitVec.allOnes 64) 0#64 none ≠ .ok (armAddSub true (BitVec.allOnes 64) 0#64 none) ∧
      addSub false (BitVec.intMax 64) 1#64 none ≠ .ok (armAddSub false (BitVec.intMax 64) 1#64 none) := by
  decide

end narmDecoder
