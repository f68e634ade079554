import Flexus.Lib.Extension
import Flexus.ArmDecoder.DataProc

/-!
# Shifts and rotations

`LSL`, `LSR`, `ASR` and `ROR` of the low bits of a register, against the architecture's shifts
of a word of that width, and the helpers that count and make runs of ones.
-/

namespace narmDecoder

open Extension

/-- The architecture's shift of a word, by the type of the operation. -/
def armShift : eOpType → Option ((w : Nat) → BitVec w → Nat → BitVec w)
  | .kLSL_ => some fun _ v n => v <<< n
  | .kLSR_ => some fun _ v n => v >>> n
  | .kASR_ => some fun _ v n => v.sshiftRight n
  | .kROR_ => some fun _ v n => v.rotateRight n
  | _ => none

/-- The architecture's `ShiftReg`: the low bits of the register, shifted by the amount modulo
    their number, with zeros above them. -/
def armShiftReg (f : (w : Nat) → BitVec w → Nat → BitVec w) (w : Nat) (x amount : BitVec 64) : BitVec 64 :=
  (f w (x.setWidth w) (amount.toNat % w)).setWidth 64

/-- `highestSetBit`: the loop from the top bit down, and what is returned after it. -/
def highestSetBit (val : BitVec 128) : BitVec 32 :=
  BitVec.ofNat 32 (((List.range 128).reverse.find? fun i => val &&& (1#128 <<< i) == 1#128).getD 0)

/-! ## Where the shifts are right -/

/-- The bits above the word that a logical shift moves into it are clear. -/
def LsrAgrees (w : Nat) (x amount : BitVec 64) : Prop :=
  w = 64 ∨ ∀ i < amount.toNat % 32, x.getLsbD (32 + i) = false

/-- A rotation has an amount of 32 bits. In the low word, the bits above it that are shifted
    into it are set only with those that are rotated in, or, where the amount counts beyond
    the word, the bits of the upper word are those of the lower one that stay. -/
def RorAgrees (w : Nat) (x amount : BitVec 64) : Prop :=
  amount.toNat < 2 ^ 32 ∧ (w = 64 ∨
    (amount.toNat % 64 ≤ 32 ∧ ∀ i < amount.toNat % 64, x.getLsbD (32 + i) = true → x.getLsbD i = true) ∨
    (32 < amount.toNat % 64 ∧ ∀ i < 32,
      if i < amount.toNat % 64 - 32 then x.getLsbD i = false else x.getLsbD (32 + i) = x.getLsbD i))

/-- An arithmetic shift of a register below `2 ^ 31` is right unless it counts beyond a low
    word and bits of it. -/
def AsrAgreesBelow (w : Nat) (x amount : BitVec 64) : Prop :=
  w = 64 ∨ amount.toNat % 64 < 32 ∨ x.toNat < 2 ^ (amount.toNat % 32)

/-- For other registers the loop for the ones has to end. A low word then needs its sign set or
    nothing to shift, and a double word needs its sign clear or nothing to shift. -/
def AsrAgreesAbove (w : Nat) (x amount : BitVec 64) : Prop :=
  amount.toNat < 2 ^ 32 ∧
    ((w = 32 ∧ amount.toNat % 64 < 32 ∧ (x.getLsbD 31 = true ∨ amount.toNat % 64 = 0)) ∨
      (w = 32 ∧ amount.toNat % 64 = 32 ∧ ∀ i < 32, x.getLsbD i = true) ∨
      (w = 64 ∧ amount.toNat < 32 ∧ (x.getLsbD 63 = false ∨ amount = 0#64)) ∨
      (w = 64 ∧ 32 ≤ amount.toNat ∧ amount.toNat % 64 = 0 ∧ x = BitVec.allOnes 64))

/-- The registers and amounts for which the operation is the architecture's. -/
def ShiftAgrees (aType : eOpType) (w : Nat) (x amount : BitVec 64) : Prop :=
  (aType = .kLSR_ → LsrAgrees w x amount) ∧ (aType = .kROR_ → RorAgrees w x amount) ∧
    (aType = .kASR_ → if x.toNat < 2 ^ 31 then AsrAgreesBelow w x amount else AsrAgreesAbove w x amount)

/-! ## Runs of ones -/

theorem getLsbD_intBit (i j : Nat) :
    (intBit i).getLsbD j = (decide (j < 64) && if i % 32 = 31 then decide (31 ≤ j) else decide (j = i % 32)) := by
  have hall : ∀ k < 32, ∀ j < 64, ((1#32 <<< k).signExtend 64).getLsbD j =
      if k = 31 then decide (31 ≤ j) else decide (j = k) := by decide +kernel
  by_cases hj : j < 64
  · rw [intBit, hall (i % 32) (Nat.mod_lt _ (by omega)) j hj, decide_eq_true hj, Bool.true_and]
  · rw [BitVec.getLsbD_of_ge _ _ (by omega), decide_eq_false hj, Bool.false_and]

/-- The value that the loop of `ones` leaves. -/
def onesValue (n : Nat) : BitVec 64 := (List.range n).foldl (fun tmp i => tmp ||| intBit i) 0#64

theorem onesValue_succ (n : Nat) : onesValue (n + 1) = onesValue n ||| intBit n := by
  rw [onesValue, List.range_succ, List.foldl_append]
  rfl

/-- From 32 rounds on all bits are set. -/
theorem getLsbD_onesValue (n : Nat) {j : Nat} (hj : j < 64) :
    (onesValue n).getLsbD j = (decide (j < n) || decide (32 ≤ n)) := by
  induction n with
  | zero => simp [onesValue]
  | succ n ih =>
    rw [onesValue_succ, BitVec.getLsbD_or, ih, getLsbD_intBit, decide_eq_true hj, Bool.true_and]
    split
    case isTrue h =>
      rw [← Bool.decide_or, ← Bool.decide_or, ← Bool.decide_or, decide_eq_decide]
      omega
    case isFalse h =>
      rw [← Bool.decide_or, ← Bool.decide_or, ← Bool.decide_or, decide_eq_decide]
      omega

theorem ones_eq {length : BitVec 64} (h : length.toNat < 2 ^ 32) : ones length = .ok (onesValue length.toNat) := by
  rw [ones, if_pos h]
  rfl

/-- The word with `n` ones. -/
def lowOnes (n : Nat) : BitVec 64 := BitVec.ofNat 64 (2 ^ n - 1)

theorem getLsbD_lowOnes (n : Nat) {j : Nat} (hj : j < 64) : (lowOnes n).getLsbD j = decide (j < n) := by
  rw [lowOnes, BitVec.getLsbD_ofNat, decide_eq_true hj, Bool.true_and, Nat.testBit_two_pow_sub_one]

theorem ones_eq_lowOnes_iff {length : BitVec 64} (h : length.toNat ≤ 64) :
    ones length = .ok (lowOnes length.toNat) ↔ length.toNat < 32 ∨ length.toNat = 64 := by
  rw [ones_eq (by omega), Except.ok.injEq]
  constructor
  · intro heq
    have hbit := congrArg (fun v => v.getLsbD 63) heq
    rw [getLsbD_onesValue _ (by omega), getLsbD_lowOnes _ (by omega), ← Bool.decide_or, decide_eq_decide] at hbit
    omega
  · intro hlength
    apply BitVec.eq_of_getLsbD_eq
    intro j hj
    rw [getLsbD_onesValue _ hj, getLsbD_lowOnes _ hj, ← Bool.decide_or, decide_eq_decide]
    omega

/-! ## The highest bit -/

/-- The comparison with one holds for no bit but the lowest. -/
theorem highestSetBit_eq_zero (val : BitVec 128) : highestSetBit val = 0#32 := by
  unfold highestSetBit
  cases hfind : (List.range 128).reverse.find? fun i => val &&& (1#128 <<< i) == 1#128 with
  | none => rfl
  | some i =>
    have htest := List.find?_some hfind
    rw [beq_iff_eq] at htest
    have hbit := congrArg (fun v => v.getLsbD 0) htest
    simp only [BitVec.getLsbD_and, BitVec.getLsbD_shiftLeft] at hbit
    have hzero : i = 0 := by
      by_contra hne
      have hpos : 0 < i := Nat.pos_of_ne_zero hne
      simp [hpos] at hbit
    rw [hzero]
    rfl

theorem highestSetBit_eq_log2_iff {val : BitVec 128} (h : val ≠ 0#128) :
    (highestSetBit val).toNat = Nat.log2 val.toNat ↔ val = 1#128 := by
  have hne : val.toNat ≠ 0 := fun hzero => h (BitVec.eq_of_toNat_eq hzero)
  rw [highestSetBit_eq_zero, ← BitVec.toNat_inj, BitVec.toNat_zero, eq_comm]
  constructor
  · intro hlog
    have hlt : val.toNat < 2 ^ (0 + 1) := (Nat.log2_lt hne).mp (by omega)
    have hone : (1#128).toNat = 1 := rfl
    omega
  · intro hone
    rw [hone]
    rfl

/-! ## Words of a register -/

/-- The word in a register, bit by bit. -/
theorem and_sizeMask_eq_iff {w : Nat} (hw : w = 32 ∨ w = 64) (v : BitVec 64) (r : BitVec w) :
    v &&& sizeMask (BitVec.ofNat 64 w) = r.setWidth 64 ↔ ∀ i < w, v.getLsbD i = r.getLsbD i := by
  have hmask : ∀ i < 64, (sizeMask (BitVec.ofNat 64 w)).getLsbD i = decide (i < w) := by
    obtain rfl | rfl := hw
    · decide
    · decide
  constructor
  · intro heq i hi
    have hbit := congrArg (fun u => u.getLsbD i) heq
    simp only [BitVec.getLsbD_and, BitVec.getLsbD_setWidth] at hbit
    rwa [hmask i (by omega), decide_eq_true hi, decide_eq_true (by omega : i < 64), Bool.and_true, Bool.true_and] at hbit
  · intro heq
    apply BitVec.eq_of_getLsbD_eq
    intro i hi
    rw [BitVec.getLsbD_and, BitVec.getLsbD_setWidth, hmask i hi, decide_eq_true hi, Bool.true_and]
    by_cases hlow : i < w
    · rw [heq i hlow, decide_eq_true hlow, Bool.and_true]
    · rw [decide_eq_false hlow, Bool.and_false, BitVec.getLsbD_of_ge _ _ (by omega)]

theorem getLsbD_shl64 (v : BitVec 64) (n : Nat) {i : Nat} (hi : i < 64) :
    (shl64 v n).getLsbD i = (!decide (i < n % 64) && v.getLsbD (i - n % 64)) := by
  rw [shl64, BitVec.getLsbD_shiftLeft, decide_eq_true hi, Bool.true_and]

theorem getLsbD_shr64 (v : BitVec 64) (n i : Nat) : (shr64 v n).getLsbD i = v.getLsbD (n % 64 + i) := by
  rw [shr64, BitVec.getLsbD_ushiftRight]

/-- The results of an operation and of the architecture agree when the words do. -/
theorem plain_eq_arm_iff {w : Nat} (hw : w = 32 ∨ w = 64) (v : BitVec 64) (f : (w : Nat) → BitVec w → Nat → BitVec w)
    (x amount : BitVec 64) :
    (Except.ok (plain (v &&& sizeMask (BitVec.ofNat 64 w))) : Except Fault Applied) =
        .ok (plain (armShiftReg f w x amount)) ↔
      ∀ i < w, v.getLsbD i = (f w (x.setWidth w) (amount.toNat % w)).getLsbD i := by
  rw [← and_sizeMask_eq_iff hw, armShiftReg, Except.ok.injEq, plain, plain, Applied.mk.injEq, Operand.uint64.injEq]
  simp

/-! ## The logical shifts -/

section

variable {w : Nat} (hw : w = 32 ∨ w = 64) (x amount : BitVec 64)

include hw

theorem shiftBy_apply (f : BitVec 64 → Nat → BitVec 64) :
    ternary (shiftBy f) [.uint64 x, .uint64 amount, .uint64 (BitVec.ofNat 64 w)] =
      .ok (plain (f x (amount.toNat % w) &&& sizeMask (BitVec.ofNat 64 w))) := by
  obtain rfl | rfl := hw <;> rfl

theorem lsl_eq_arm :
    (operation .kLSL_).apply [.uint64 x, .uint64 amount, .uint64 (BitVec.ofNat 64 w)] =
      .ok (plain (armShiftReg (fun _ v n => v <<< n) w x amount)) := by
  have happly := shiftBy_apply hw x amount shl64
  have hlt : amount.toNat % w < w := Nat.mod_lt _ (by omega)
  rw [operation, Operation.apply, LSL, happly, plain_eq_arm_iff hw]
  intro i hi
  rw [getLsbD_shl64 _ _ (by omega), BitVec.getLsbD_shiftLeft, BitVec.getLsbD_setWidth, decide_eq_true hi, Bool.true_and,
    Nat.mod_eq_of_lt (by omega), decide_eq_true (by omega : i - amount.toNat % w < w), Bool.true_and]

theorem lsr_eq_arm_iff :
    (operation .kLSR_).apply [.uint64 x, .uint64 amount, .uint64 (BitVec.ofNat 64 w)] =
        .ok (plain (armShiftReg (fun _ v n => v >>> n) w x amount)) ↔
      LsrAgrees w x amount := by
  have happly := shiftBy_apply hw x amount shr64
  have hlt : amount.toNat % w < w := Nat.mod_lt _ (by omega)
  rw [operation, Operation.apply, LSR, happly, plain_eq_arm_iff hw]
  simp only [getLsbD_shr64, BitVec.getLsbD_ushiftRight, BitVec.getLsbD_setWidth]
  rw [Nat.mod_eq_of_lt (by omega : amount.toNat % w < 64)]
  obtain rfl | rfl := hw
  · constructor
    · intro hbits
      refine Or.inr fun i hi => ?_
      have hbit := hbits (32 - amount.toNat % 32 + i) (by omega)
      have hplace : amount.toNat % 32 + (32 - amount.toNat % 32 + i) = 32 + i := by omega
      rwa [hplace, decide_eq_false (by omega), Bool.false_and] at hbit
    · rintro (h | hclear) i hi
      · omega
      · by_cases hlow : amount.toNat % 32 + i < 32
        · rw [decide_eq_true hlow, Bool.true_and]
        · have hbit := hclear (amount.toNat % 32 + i - 32) (by omega)
          have hplace : 32 + (amount.toNat % 32 + i - 32) = amount.toNat % 32 + i := by omega
          rw [hplace] at hbit
          rw [hbit, Bool.and_false]
  · refine iff_of_true (fun i hi => ?_) (Or.inl rfl)
    by_cases hlow : amount.toNat % 64 + i < 64
    · rw [decide_eq_true hlow, Bool.true_and]
    · rw [BitVec.getLsbD_of_ge _ _ (by omega), Bool.and_false]

/-! ## Rotations -/

/-- The word that `ror` computes before it is cut. -/
def rotated64 (w : Nat) (x amount : BitVec 64) : BitVec 64 :=
  shl64 (x &&& onesValue amount.toNat) (BitVec.ofNat 64 w - amount).toNat ||| shr64 x amount.toNat

theorem size_of : BitVec.ofNat 64 w = 64#64 ∨ BitVec.ofNat 64 w = 32#64 := by
  obtain rfl | rfl := hw
  · exact Or.inr rfl
  · exact Or.inl rfl

theorem ror_apply (h : amount.toNat < 2 ^ 32) :
    (operation .kROR_).apply [.uint64 x, .uint64 amount, .uint64 (BitVec.ofNat 64 w)] =
      .ok (plain (rotated64 w x amount &&& sizeMask (BitVec.ofNat 64 w))) := by
  have hror : ror x (BitVec.ofNat 64 w) amount =
      .ok (rotated64 w x amount &&& sizeMask (BitVec.ofNat 64 w)) := by
    rw [ror, assert_size (size_of hw), ones_eq h]
    rfl
  have happly : (operation .kROR_).apply [.uint64 x, .uint64 amount, .uint64 (BitVec.ofNat 64 w)] =
      (ror x (BitVec.ofNat 64 w) amount).map plain := rfl
  rw [happly, hror]
  rfl

omit hw in
/-- The places that the rotation fills from the low bits, for an amount within 32 bits. -/
theorem getLsbD_rotated64 {i : Nat} (hi : i < 64) :
    (rotated64 w x amount).getLsbD i =
      (!decide (i < (64 + w - amount.toNat % 64) % 64) && x.getLsbD (i - (64 + w - amount.toNat % 64) % 64) &&
          (decide (i - (64 + w - amount.toNat % 64) % 64 < amount.toNat) || decide (32 ≤ amount.toNat)) ||
        x.getLsbD (amount.toNat % 64 + i)) := by
  have hcount : (BitVec.ofNat 64 w - amount).toNat % 64 = (64 + w - amount.toNat % 64) % 64 := by
    rw [BitVec.toNat_sub, BitVec.toNat_ofNat]
    omega
  rw [rotated64, BitVec.getLsbD_or, getLsbD_shl64 _ _ hi, getLsbD_shr64, hcount, BitVec.getLsbD_and,
    getLsbD_onesValue _ (by omega), Bool.and_assoc]

/-- The bits below the amount return at the top of the word, where the bits from above it are
    mixed in. -/
theorem getLsbD_rotated64_of_le (h : amount.toNat % 64 ≤ w) {i : Nat} (hi : i < w) :
    (rotated64 w x amount).getLsbD i =
      (decide (w - amount.toNat % 64 ≤ i) && x.getLsbD (i - (w - amount.toNat % 64)) ||
        x.getLsbD (amount.toNat % 64 + i)) := by
  rw [getLsbD_rotated64 x amount (by omega)]
  by_cases hzero : amount.toNat % 64 = 0
  · have hout : ¬w ≤ i := by omega
    rw [hzero, Nat.sub_zero, Nat.sub_zero, decide_eq_false hout, Bool.false_and, Bool.false_or, Nat.zero_add]
    obtain rfl | rfl := hw
    · simp [hi]
    · simp
      tauto
  · have hcount : (64 + w - amount.toNat % 64) % 64 = w - amount.toNat % 64 := by omega
    rw [hcount]
    by_cases hlow : i < w - amount.toNat % 64
    · have hnot : ¬w - amount.toNat % 64 ≤ i := by omega
      simp [hlow, hnot]
    · have hle : w - amount.toNat % 64 ≤ i := by omega
      have hin : i - (w - amount.toNat % 64) < amount.toNat ∨ 32 ≤ amount.toNat := by omega
      rw [← Bool.decide_or, decide_eq_true hin, decide_eq_false hlow, decide_eq_true hle, Bool.and_true, Bool.not_false]

omit hw in
/-- Where the amount counts beyond a low word, nothing returns to it. -/
theorem getLsbD_rotated64_of_gt (h : 32 < amount.toNat % 64) {i : Nat} (hi : i < 32) :
    (rotated64 32 x amount).getLsbD i = x.getLsbD (amount.toNat % 64 + i) := by
  have hlow : i < (64 + 32 - amount.toNat % 64) % 64 := by omega
  rw [getLsbD_rotated64 x amount (by omega), decide_eq_true hlow]
  simp

omit hw in
theorem getLsbD_rotateRight_setWidth {n i : Nat} (hn : n < w) (hi : i < w) :
    ((x.setWidth w).rotateRight n).getLsbD i = if i < w - n then x.getLsbD (n + i) else x.getLsbD (i - (w - n)) := by
  rw [BitVec.getLsbD_rotateRight_of_lt hn, BitVec.getLsbD_setWidth, BitVec.getLsbD_setWidth]
  by_cases hlow : i < w - n
  · simp [hlow]
    omega
  · simp [hlow, hi]
    omega

end

section

variable (x amount : BitVec 64)

theorem rotated64_eq_doubleWord {i : Nat} (hi : i < 64) :
    (rotated64 64 x amount).getLsbD i = ((x.setWidth 64).rotateRight (amount.toNat % 64)).getLsbD i := by
  have hlt : amount.toNat % 64 < 64 := Nat.mod_lt _ (by omega)
  rw [getLsbD_rotated64_of_le (Or.inr rfl) x amount (by omega) hi, getLsbD_rotateRight_setWidth x hlt hi]
  by_cases hlow : i < 64 - amount.toNat % 64
  · have hnot : ¬64 - amount.toNat % 64 ≤ i := by omega
    rw [if_pos hlow, decide_eq_false hnot, Bool.false_and, Bool.false_or]
  · have hge : 64 ≤ amount.toNat % 64 + i := by omega
    rw [if_neg hlow, decide_eq_true (by omega), BitVec.getLsbD_of_ge _ _ hge, Bool.true_and, Bool.or_false]

/-- The rotation of a low word by an amount within it. -/
theorem getLsbD_rotateWord_of_le (h : amount.toNat % 64 ≤ 32) {i : Nat} (hi : i < 32) :
    ((x.setWidth 32).rotateRight (amount.toNat % 32)).getLsbD i =
      if 32 - amount.toNat % 64 ≤ i then x.getLsbD (i - (32 - amount.toNat % 64))
      else x.getLsbD (amount.toNat % 64 + i) := by
  have hlt : amount.toNat % 32 < 32 := Nat.mod_lt _ (by omega)
  rw [getLsbD_rotateRight_setWidth x hlt hi]
  obtain hin | hfull : amount.toNat % 64 = amount.toNat % 32 ∨ amount.toNat % 64 = 32 ∧ amount.toNat % 32 = 0 := by omega
  · rw [hin]
    by_cases hlow : i < 32 - amount.toNat % 32
    · rw [if_pos hlow, if_neg (by omega)]
    · rw [if_neg hlow, if_pos (by omega)]
  · rw [hfull.1, hfull.2, if_pos (by omega), if_pos (by omega), Nat.zero_add]
    rfl

/-- Within a low word the bits from above it are mixed in. -/
theorem rotated64_eq_word_iff (h : amount.toNat % 64 ≤ 32) :
    (∀ i < 32, (rotated64 32 x amount).getLsbD i = ((x.setWidth 32).rotateRight (amount.toNat % 32)).getLsbD i) ↔
      ∀ i < amount.toNat % 64, x.getLsbD (32 + i) = true → x.getLsbD i = true := by
  constructor
  · intro hbits i hi hset
    have hin : 32 - amount.toNat % 64 + i < 32 := by omega
    have hbit := hbits _ hin
    have hplace : 32 - amount.toNat % 64 + i - (32 - amount.toNat % 64) = i := by omega
    have hmixed : amount.toNat % 64 + (32 - amount.toNat % 64 + i) = 32 + i := by omega
    rw [getLsbD_rotated64_of_le (Or.inl rfl) x amount h hin, getLsbD_rotateWord_of_le x amount h hin, if_pos (by omega),
      decide_eq_true (by omega), hplace, hmixed, hset, Bool.or_true] at hbit
    exact hbit.symm
  · intro hclear i hi
    rw [getLsbD_rotated64_of_le (Or.inl rfl) x amount h hi, getLsbD_rotateWord_of_le x amount h hi]
    by_cases hlow : 32 - amount.toNat % 64 ≤ i
    · have hmixed := hclear (i - (32 - amount.toNat % 64)) (by omega)
      have hplace : 32 + (i - (32 - amount.toNat % 64)) = amount.toNat % 64 + i := by omega
      rw [hplace] at hmixed
      rw [if_pos hlow, decide_eq_true hlow, Bool.true_and, Bool.or_eq_left_iff_imp]
      exact hmixed
    · rw [if_neg hlow, decide_eq_false hlow, Bool.false_and, Bool.false_or]

/-- Where the amount counts beyond the word, nothing is rotated in. -/
theorem rotated64_eq_word_of_gt (h : 32 < amount.toNat % 64) :
    (∀ i < 32, (rotated64 32 x amount).getLsbD i = ((x.setWidth 32).rotateRight (amount.toNat % 32)).getLsbD i) ↔
      ∀ i < 32, if i < amount.toNat % 64 - 32 then x.getLsbD i = false else x.getLsbD (32 + i) = x.getLsbD i := by
  have hlt : amount.toNat % 32 < 32 := Nat.mod_lt _ (by omega)
  have hmod : amount.toNat % 64 = 32 + amount.toNat % 32 := by omega
  constructor
  · intro hbits i hi
    split
    case isTrue hlow =>
      have hin : 32 - amount.toNat % 32 + i < 32 := by omega
      have hbit := hbits _ hin
      have hplace : 32 - amount.toNat % 32 + i - (32 - amount.toNat % 32) = i := by omega
      rw [getLsbD_rotated64_of_gt x amount h hin, getLsbD_rotateRight_setWidth x hlt hin, if_neg (by omega), hplace,
        BitVec.getLsbD_of_ge _ _ (by omega)] at hbit
      exact hbit.symm
    case isFalse hhigh =>
      have hin : i - amount.toNat % 32 < 32 := by omega
      have hbit := hbits _ hin
      have hplace : amount.toNat % 32 + (i - amount.toNat % 32) = i := by omega
      have hupper : amount.toNat % 64 + (i - amount.toNat % 32) = 32 + i := by omega
      rwa [getLsbD_rotated64_of_gt x amount h hin, getLsbD_rotateRight_setWidth x hlt hin, if_pos (by omega), hplace,
        hupper] at hbit
  · intro hwords i hi
    rw [getLsbD_rotated64_of_gt x amount h hi, getLsbD_rotateRight_setWidth x hlt hi]
    split
    case isTrue hlow =>
      have hword := hwords (amount.toNat % 32 + i) (by omega)
      have hupper : 32 + (amount.toNat % 32 + i) = amount.toNat % 64 + i := by omega
      rwa [if_neg (by omega), hupper] at hword
    case isFalse hhigh =>
      have hword := hwords (i - (32 - amount.toNat % 32)) (by omega)
      rw [if_pos (by omega)] at hword
      rw [hword, BitVec.getLsbD_of_ge _ _ (by omega)]

theorem ror_eq_arm_iff {w : Nat} (hw : w = 32 ∨ w = 64) :
    (operation .kROR_).apply [.uint64 x, .uint64 amount, .uint64 (BitVec.ofNat 64 w)] =
        .ok (plain (armShiftReg (fun _ v n => v.rotateRight n) w x amount)) ↔
      RorAgrees w x amount := by
  by_cases h : amount.toNat < 2 ^ 32
  · rw [ror_apply hw x amount h, plain_eq_arm_iff hw, RorAgrees, and_iff_right h]
    obtain rfl | rfl := hw
    · by_cases hle : amount.toNat % 64 ≤ 32
      · rw [rotated64_eq_word_iff x amount hle]
        simp [hle]
      · have hgt : 32 < amount.toNat % 64 := by omega
        rw [rotated64_eq_word_of_gt x amount hgt]
        simp [hle, hgt]
    · exact iff_of_true (fun i hi => rotated64_eq_doubleWord x amount hi) (Or.inl rfl)
  · have hror : ror x (BitVec.ofNat 64 w) amount = .error .endlessLoop := by
      rw [ror, assert_size (size_of hw), ones_fails (not_lt.mp h)]
      rfl
    have happly : (operation .kROR_).apply [.uint64 x, .uint64 amount, .uint64 (BitVec.ofNat 64 w)] =
        (ror x (BitVec.ofNat 64 w) amount).map plain := rfl
    rw [happly, hror]
    refine iff_of_false ?_ fun hagrees => h hagrees.1
    rintro ⟨⟩

/-! ## Arithmetic shifts -/

/-- The word that `asr` computes for a register with a bit from 31 on, before it is cut. -/
def filled64 (w : Nat) (x amount : BitVec 64) : BitVec 64 :=
  shr64 (x ||| shl64 (onesValue amount.toNat) w) amount.toNat

theorem and_sign_ne_zero_iff {w : Nat} (hw : w = 32 ∨ w = 64) :
    x &&& intBit (BitVec.ofNat 64 w - 1).toNat ≠ 0#64 ↔ 2 ^ 31 ≤ x.toNat := by
  obtain rfl | rfl := hw
  · exact and_intBit x false
  · exact and_intBit x true

theorem asr_apply {w : Nat} (hw : w = 32 ∨ w = 64) :
    (operation .kASR_).apply [.uint64 x, .uint64 amount, .uint64 (BitVec.ofNat 64 w)] =
      if x.toNat < 2 ^ 31 then .ok (plain (shr64 x amount.toNat &&& sizeMask (BitVec.ofNat 64 w)))
      else if amount.toNat < 2 ^ 32 then .ok (plain (filled64 w x amount &&& sizeMask (BitVec.ofNat 64 w)))
      else .error .endlessLoop := by
  have happly : (operation .kASR_).apply [.uint64 x, .uint64 amount, .uint64 (BitVec.ofNat 64 w)] =
      (asr x (BitVec.ofNat 64 w) amount).map plain := rfl
  have hcount : (BitVec.ofNat 64 w).toNat = w := by
    obtain rfl | rfl := hw <;> rfl
  rw [happly, asr, assert_size (size_of hw)]
  by_cases hsmall : x.toNat < 2 ^ 31
  · have htest := mt (and_sign_ne_zero_iff x hw).mp (by omega)
    rw [if_pos hsmall]
    simp only [bind, Except.bind]
    rw [if_neg htest]
    rfl
  · have htest := (and_sign_ne_zero_iff x hw).mpr (by omega)
    rw [if_neg hsmall]
    simp only [bind, Except.bind]
    rw [if_pos htest]
    by_cases h : amount.toNat < 2 ^ 32
    · rw [if_pos h, ones_eq h, filled64, hcount]
      rfl
    · rw [if_neg h, ones_fails (not_lt.mp h)]
      rfl

theorem getLsbD_sshiftRight_setWidth {w n i : Nat} (hw : 0 < w) (hi : i < w) :
    ((x.setWidth w).sshiftRight n).getLsbD i = if n + i < w then x.getLsbD (n + i) else x.getLsbD (w - 1) := by
  have hnot : ¬w ≤ i := by omega
  rw [BitVec.getLsbD_sshiftRight, decide_eq_false hnot, Bool.not_false, Bool.true_and, BitVec.msb_setWidth,
    decide_eq_true hw, Bool.true_and, BitVec.getLsbD_setWidth]
  split
  case isTrue h => rw [decide_eq_true h, Bool.true_and]
  case isFalse => rfl

/-- A register below `2 ^ 31` has no sign in either width. -/
theorem asr_eq_arm_of_lt {w : Nat} (hw : w = 32 ∨ w = 64) (hx : x.toNat < 2 ^ 31) :
    (∀ i < w, (shr64 x amount.toNat).getLsbD i = ((x.setWidth w).sshiftRight (amount.toNat % w)).getLsbD i) ↔
      AsrAgreesBelow w x amount := by
  have hzero := (toNat_lt_two_pow_iff x 31).mp hx
  have hspec : ∀ i < w, ((x.setWidth w).sshiftRight (amount.toNat % w)).getLsbD i = x.getLsbD (amount.toNat % w + i) := by
    intro i hi
    rw [getLsbD_sshiftRight_setWidth x (by omega) hi]
    split
    case isTrue => rfl
    case isFalse h => rw [hzero (w - 1) (by omega), hzero _ (by omega)]
  unfold AsrAgreesBelow
  obtain rfl | rfl := hw
  · by_cases hin : amount.toNat % 64 < 32
    · have hmod : amount.toNat % 64 = amount.toNat % 32 := by omega
      refine iff_of_true (fun i hi => ?_) (Or.inr (Or.inl hin))
      rw [hspec i hi, getLsbD_shr64, hmod]
    · rw [toNat_lt_two_pow_iff x]
      constructor
      · intro hbits
        refine Or.inr (Or.inr fun i hi => ?_)
        by_cases hlow : i < 32
        · have hbit := hbits (i - amount.toNat % 32) (by omega)
          have hplace : amount.toNat % 32 + (i - amount.toNat % 32) = i := by omega
          rw [hspec _ (by omega), getLsbD_shr64, hplace, hzero _ (by omega)] at hbit
          exact hbit.symm
        · exact hzero i (by omega)
      · rintro (h | h | hclear) i hi
        · omega
        · exact absurd h hin
        · rw [hspec i hi, getLsbD_shr64, hclear (amount.toNat % 32 + i) (by omega),
            hzero (amount.toNat % 64 + i) (by omega)]
  · refine iff_of_true (fun i hi => ?_) (Or.inl rfl)
    rw [hspec i hi, getLsbD_shr64]

/-- The ones of a low word stand above it, those of a double word in its low bits. -/
theorem getLsbD_filled64 (w : Nat) {i : Nat} (hi : amount.toNat % 64 + i < 64) :
    (filled64 w x amount).getLsbD i =
      (x.getLsbD (amount.toNat % 64 + i) || (!decide (amount.toNat % 64 + i < w % 64) &&
        (decide (amount.toNat % 64 + i - w % 64 < amount.toNat) || decide (32 ≤ amount.toNat)))) := by
  rw [filled64, getLsbD_shr64, BitVec.getLsbD_or, getLsbD_shl64 _ _ hi, getLsbD_onesValue _ (by omega)]

theorem getLsbD_filled64_of_ge (w : Nat) {i : Nat} (hi : 64 ≤ amount.toNat % 64 + i) :
    (filled64 w x amount).getLsbD i = false := by
  rw [filled64, getLsbD_shr64, BitVec.getLsbD_of_ge _ _ hi]

/-- An amount within the low word moves ones into it. -/
theorem getLsbD_filledWord (h : amount.toNat % 64 < 32) {i : Nat} (hi : i < 32) :
    (filled64 32 x amount).getLsbD i =
      if amount.toNat % 64 + i < 32 then x.getLsbD (amount.toNat % 64 + i) else true := by
  rw [getLsbD_filled64 x amount 32 (by omega)]
  by_cases hlow : amount.toNat % 64 + i < 32
  · rw [if_pos hlow, decide_eq_true hlow, Bool.not_true, Bool.false_and, Bool.or_false]
  · have hin : amount.toNat % 64 + i - 32 < amount.toNat ∨ 32 ≤ amount.toNat := by omega
    rw [if_neg hlow, decide_eq_false hlow, ← Bool.decide_or, decide_eq_true hin]
    simp

theorem filled64_eq_word_of_lt (hin : amount.toNat % 64 < 32) :
    (∀ i < 32, (filled64 32 x amount).getLsbD i = ((x.setWidth 32).sshiftRight (amount.toNat % 32)).getLsbD i) ↔
      x.getLsbD 31 = true ∨ amount.toNat % 64 = 0 := by
  have hspec : ∀ i < 32, ((x.setWidth 32).sshiftRight (amount.toNat % 32)).getLsbD i =
      if amount.toNat % 32 + i < 32 then x.getLsbD (amount.toNat % 32 + i) else x.getLsbD 31 :=
    fun i hi => getLsbD_sshiftRight_setWidth x (by omega) hi
  have hmod : amount.toNat % 32 = amount.toNat % 64 := by omega
  constructor
  · intro hbits
    by_cases hzero : amount.toNat % 64 = 0
    · exact Or.inr hzero
    · have hbit := hbits 31 (by omega)
      rw [getLsbD_filledWord x amount hin (by omega), hspec 31 (by omega), hmod, if_neg (by omega), if_neg (by omega)] at hbit
      exact Or.inl hbit.symm
  · rintro hsign i hi
    rw [getLsbD_filledWord x amount hin hi, hspec i hi, hmod]
    split
    case isTrue => rfl
    case isFalse h =>
      obtain hset | hzero := hsign
      · exact hset.symm
      · omega

/-- Beyond the low word all the ones are moved into it, and zeros after them. -/
theorem filled64_eq_word_of_ge (hge : 32 ≤ amount.toNat % 64) :
    (∀ i < 32, (filled64 32 x amount).getLsbD i = ((x.setWidth 32).sshiftRight (amount.toNat % 32)).getLsbD i) ↔
      amount.toNat % 64 = 32 ∧ ∀ i < 32, x.getLsbD i = true := by
  have hspec : ∀ i < 32, ((x.setWidth 32).sshiftRight (amount.toNat % 32)).getLsbD i =
      if amount.toNat % 32 + i < 32 then x.getLsbD (amount.toNat % 32 + i) else x.getLsbD 31 :=
    fun i hi => getLsbD_sshiftRight_setWidth x (by omega) hi
  have hones : ∀ i, amount.toNat % 64 + i < 64 → (filled64 32 x amount).getLsbD i = true := by
    intro i hi
    have hout : ¬amount.toNat % 64 + i < 32 := by omega
    have hfull : 32 ≤ amount.toNat := by omega
    rw [getLsbD_filled64 x amount 32 hi, decide_eq_false hout, decide_eq_true hfull]
    simp
  constructor
  · intro hbits
    by_cases hzero : amount.toNat % 32 = 0
    · refine ⟨by omega, fun i hi => ?_⟩
      have hbit := hbits i hi
      rw [hspec i hi, hzero, Nat.zero_add, if_pos hi, hones i (by omega)] at hbit
      exact hbit.symm
    · -- The last bit is zero, and the place where the sign goes is one.
      exfalso
      have hlast := hbits 31 (by omega)
      have hsign := hbits (31 - amount.toNat % 32) (by omega)
      have hplace : amount.toNat % 32 + (31 - amount.toNat % 32) = 31 := by omega
      rw [hspec 31 (by omega), if_neg (by omega), getLsbD_filled64_of_ge x amount 32 (by omega)] at hlast
      rw [hspec _ (by omega), hplace, if_pos (by omega), hones _ (by omega), ← hlast] at hsign
      cases hsign
  · rintro ⟨hfull, hset⟩ i hi
    have hzero : amount.toNat % 32 = 0 := by omega
    rw [hones i (by omega), hspec i hi, hzero, Nat.zero_add, if_pos hi, hset i hi]

/-- The ones of a double word stand in the bits that are moved out. -/
theorem filled64_eq_doubleWord_of_lt (hin : amount.toNat < 32) :
    (∀ i < 64, (filled64 64 x amount).getLsbD i = ((x.setWidth 64).sshiftRight (amount.toNat % 64)).getLsbD i) ↔
      x.getLsbD 63 = false ∨ amount = 0#64 := by
  have hspec : ∀ i < 64, ((x.setWidth 64).sshiftRight (amount.toNat % 64)).getLsbD i =
      if amount.toNat % 64 + i < 64 then x.getLsbD (amount.toNat % 64 + i) else x.getLsbD 63 :=
    fun i hi => getLsbD_sshiftRight_setWidth x (by omega) hi
  have hsame : ∀ i, (filled64 64 x amount).getLsbD i = x.getLsbD (amount.toNat % 64 + i) := by
    intro i
    by_cases hi : amount.toNat % 64 + i < 64
    · have hout : ¬(amount.toNat % 64 + i - 64 % 64 < amount.toNat ∨ 32 ≤ amount.toNat) := by omega
      rw [getLsbD_filled64 x amount 64 hi, ← Bool.decide_or, decide_eq_false hout, Bool.and_false, Bool.or_false]
    · rw [getLsbD_filled64_of_ge x amount 64 (by omega), BitVec.getLsbD_of_ge _ _ (by omega)]
  constructor
  · intro hbits
    by_cases hzero : amount.toNat = 0
    · exact Or.inr (BitVec.eq_of_toNat_eq hzero)
    · have hbit := hbits 63 (by omega)
      rw [hsame, hspec 63 (by omega), if_neg (by omega), BitVec.getLsbD_of_ge _ _ (by omega)] at hbit
      exact Or.inl hbit.symm
  · rintro hsign i hi
    rw [hsame, hspec i hi]
    split
    case isTrue => rfl
    case isFalse hout =>
      obtain hclear | rfl := hsign
      · rw [hclear, BitVec.getLsbD_of_ge _ _ (by omega)]
      · rw [BitVec.toNat_zero] at hout
        omega

/-- From 32 on the whole double word is filled before it is shifted. -/
theorem filled64_eq_doubleWord_of_ge (hge : 32 ≤ amount.toNat) :
    (∀ i < 64, (filled64 64 x amount).getLsbD i = ((x.setWidth 64).sshiftRight (amount.toNat % 64)).getLsbD i) ↔
      amount.toNat % 64 = 0 ∧ x = BitVec.allOnes 64 := by
  have hspec : ∀ i < 64, ((x.setWidth 64).sshiftRight (amount.toNat % 64)).getLsbD i =
      if amount.toNat % 64 + i < 64 then x.getLsbD (amount.toNat % 64 + i) else x.getLsbD 63 :=
    fun i hi => getLsbD_sshiftRight_setWidth x (by omega) hi
  have hones : ∀ i, amount.toNat % 64 + i < 64 → (filled64 64 x amount).getLsbD i = true := by
    intro i hi
    rw [getLsbD_filled64 x amount 64 hi, decide_eq_true hge]
    simp
  constructor
  · intro hbits
    by_cases hzero : amount.toNat % 64 = 0
    · refine ⟨hzero, BitVec.eq_of_getLsbD_eq fun i hi => ?_⟩
      have hbit := hbits i hi
      rw [hspec i hi, hzero, Nat.zero_add, if_pos hi, hones i (by omega)] at hbit
      rw [← hbit, BitVec.getLsbD_allOnes, decide_eq_true hi]
    · -- The last bit is zero, and the place where the sign goes is one.
      exfalso
      have hlast := hbits 63 (by omega)
      have hsign := hbits (63 - amount.toNat % 64) (by omega)
      have hplace : amount.toNat % 64 + (63 - amount.toNat % 64) = 63 := by omega
      rw [hspec 63 (by omega), if_neg (by omega), getLsbD_filled64_of_ge x amount 64 (by omega)] at hlast
      rw [hspec _ (by omega), hplace, if_pos (by omega), hones _ (by omega), ← hlast] at hsign
      cases hsign
  · rintro ⟨hzero, rfl⟩ i hi
    rw [hones i (by omega), hspec i hi, hzero, Nat.zero_add, if_pos hi, BitVec.getLsbD_allOnes, decide_eq_true hi]

theorem asr_eq_arm_iff {w : Nat} (hw : w = 32 ∨ w = 64) :
    (operation .kASR_).apply [.uint64 x, .uint64 amount, .uint64 (BitVec.ofNat 64 w)] =
        .ok (plain (armShiftReg (fun _ v n => v.sshiftRight n) w x amount)) ↔
      if x.toNat < 2 ^ 31 then AsrAgreesBelow w x amount else AsrAgreesAbove w x amount := by
  rw [asr_apply x amount hw]
  by_cases hsmall : x.toNat < 2 ^ 31
  · rw [if_pos hsmall, if_pos hsmall, plain_eq_arm_iff hw, asr_eq_arm_of_lt x amount hw hsmall]
  · rw [if_neg hsmall, if_neg hsmall]
    unfold AsrAgreesAbove
    by_cases h : amount.toNat < 2 ^ 32
    · rw [if_pos h, and_iff_right h, plain_eq_arm_iff hw]
      obtain rfl | rfl := hw
      · by_cases hin : amount.toNat % 64 < 32
        · rw [filled64_eq_word_of_lt x amount hin]
          have hnot : amount.toNat % 64 ≠ 32 := by omega
          simp [hin, hnot]
        · rw [filled64_eq_word_of_ge x amount (by omega)]
          simp [hin]
      · by_cases hin : amount.toNat < 32
        · rw [filled64_eq_doubleWord_of_lt x amount hin]
          have hnot : ¬32 ≤ amount.toNat := by omega
          simp [hin, hnot]
        · rw [filled64_eq_doubleWord_of_ge x amount (by omega)]
          have hge : 32 ≤ amount.toNat := by omega
          simp [hin, hge]
    · rw [if_neg h]
      refine iff_of_false ?_ fun hagrees => h hagrees.1
      rintro ⟨⟩

end

/-! ## All of them -/

theorem shift_eq_arm_iff {aType : eOpType} {f : (w : Nat) → BitVec w → Nat → BitVec w} (h : armShift aType = some f)
    {w : Nat} (hw : w = 32 ∨ w = 64) (x amount : BitVec 64) :
    (operation aType).apply [.uint64 x, .uint64 amount, .uint64 (BitVec.ofNat 64 w)] =
        .ok (plain (armShiftReg f w x amount)) ↔
      ShiftAgrees aType w x amount := by
  unfold armShift at h
  split at h
  case h_1 =>
    cases h
    simpa [ShiftAgrees] using lsl_eq_arm hw x amount
  case h_2 =>
    cases h
    simpa [ShiftAgrees] using lsr_eq_arm_iff hw x amount
  case h_3 =>
    cases h
    simpa [ShiftAgrees] using asr_eq_arm_iff x amount hw
  case h_4 =>
    cases h
    simpa [ShiftAgrees] using ror_eq_arm_iff x amount hw
  case h_5 => cases h

/-- The shifts and rotations of a word of 32 or 64 bits, `ones` up to 64 and `highestSetBit` of
    every number but zero, with the inputs for which each of them is right. -/
theorem shifts_eq_arm_iff (x amount length : BitVec 64) (val : BitVec 128) :
    (∀ aType f, armShift aType = some f → ∀ w, w = 32 ∨ w = 64 →
      ((operation aType).apply [.uint64 x, .uint64 amount, .uint64 (BitVec.ofNat 64 w)] =
          .ok (plain (armShiftReg f w x amount)) ↔
        ShiftAgrees aType w x amount)) ∧
    (length.toNat ≤ 64 →
      (ones length = .ok (lowOnes length.toNat) ↔ length.toNat < 32 ∨ length.toNat = 64)) ∧
    (val ≠ 0#128 → ((highestSetBit val).toNat = Nat.log2 val.toNat ↔ val = 1#128)) :=
  ⟨fun _ _ h _ hw => shift_eq_arm_iff h hw x amount, ones_eq_lowOnes_iff, highestSetBit_eq_log2_iff⟩

/-- A low word of zero under a bit that `LSR` and `ROR` move into it and that `ASR` takes for its
    sign, 32 ones, and the highest bit of two. -/
theorem not_shifts_eq_arm :
    (operation .kLSR_).apply [.uint64 (1#64 <<< 32), .uint64 1#64, .uint64 32#64] ≠
        .ok (plain (armShiftReg (fun _ v n => v >>> n) 32 (1#64 <<< 32) 1#64)) ∧
      (operation .kASR_).apply [.uint64 (1#64 <<< 32), .uint64 1#64, .uint64 32#64] ≠
        .ok (plain (armShiftReg (fun _ v n => v.sshiftRight n) 32 (1#64 <<< 32) 1#64)) ∧
      (operation .kROR_).apply [.uint64 (1#64 <<< 32), .uint64 1#64, .uint64 32#64] ≠
        .ok (plain (armShiftReg (fun _ v n => v.rotateRight n) 32 (1#64 <<< 32) 1#64)) ∧
      ones 32#64 ≠ .ok (lowOnes 32) ∧ (highestSetBit 2#128).toNat ≠ Nat.log2 (2#128).toNat := by
  refine ⟨by decide, by decide, by decide, by decide, ?_⟩
  rw [highestSetBit_eq_zero]
  decide

end narmDecoder
