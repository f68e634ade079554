import Flexus.Lib.BitPermutation
import Flexus.Lib.LeadingRun
import Flexus.ArmDecoder.Operand

/-!
# Reversals and counts

The values of `ReverseAction`, `ReorderAction` and `CountAction` against the instructions that
use them.
-/

namespace narmDecoder

open BitPermutation LeadingRun

/-! ## The actions -/

/-- `ReverseAction`. -/
def reverseValue (the64 : Bool) (in_val : BitVec 64) : BitVec 64 :=
  let dbsize := if the64 then 64 else 32
  copyBits dbsize (fun i => dbsize - i - 1) in_val

/-- `__builtin_bswap16` and its kin: the bytes of a word in the opposite order. -/
def bswap16 (x : BitVec 16) : BitVec 16 := x.extractLsb' 0 8 ++ x.extractLsb' 8 8

def bswap32 (x : BitVec 32) : BitVec 32 := bswap16 (x.extractLsb' 0 16) ++ bswap16 (x.extractLsb' 16 16)

def bswap64 (x : BitVec 64) : BitVec 64 := bswap32 (x.extractLsb' 0 32) ++ bswap32 (x.extractLsb' 32 32)

/-- `ReorderAction`. -/
def reorderValue (theContainerSize : Nat) (the64 : Bool) (in_val : BitVec 64) : BitVec 64 :=
  match theContainerSize with
  | 16 =>
    let out_val := (bswap16 (in_val.setWidth 16)).setWidth 64 |||
      ((bswap16 ((in_val >>> 16).setWidth 16)).setWidth 64 <<< 16)
    if the64 then
      out_val ||| (((bswap16 ((in_val >>> 32).setWidth 16)).setWidth 64 <<< 32) |||
        ((bswap16 ((in_val >>> 48).setWidth 16)).setWidth 64 <<< 48))
    else out_val
  | 32 =>
    let out_val := (bswap32 (in_val.setWidth 32)).setWidth 64
    if the64 then out_val ||| ((bswap32 ((in_val >>> 32).setWidth 32)).setWidth 64 <<< 32) else out_val
  | 64 => bswap64 in_val
  | _ => 0#64

inductive eCountOp where
  | kCountOp_CLZ
  | kCountOp_CLS
  deriving DecidableEq, Repr

/-- `__builtin_clz`, and 32 for zero. -/
def clz32 (val : BitVec 32) : Nat := run 32 fun j => !val.getLsbD (31 - j)

/-- The exclusive-or of every bit of the operand with the next, in which `CLS` counts zeros. -/
def neighbours (the64 : Bool) (in_val : BitVec 64) : BitVec 128 :=
  let mask : BitVec 128 := if the64 then 0x7FFFFFFFFFFFFFFF#128 else 0x7FFFFFFF#128
  (in_val >>> 1).setWidth 128 ^^^ (in_val.setWidth 128 &&& mask)

/-- `CountAction`. -/
def countValue (theCountOp : eCountOp) (the64 : Bool) (in_val : BitVec 64) : BitVec 64 :=
  match theCountOp with
  | .kCountOp_CLZ =>
    BitVec.ofNat 64 <|
      if the64 then
        if in_val >>> 32 = 0#64 then 32 + clz32 (in_val.setWidth 32) else clz32 ((in_val >>> 32).setWidth 32)
      else clz32 (in_val.setWidth 32)
  | .kCountOp_CLS =>
    let i := neighbours the64 in_val
    BitVec.ofNat 64 <|
      if the64 then
        if i >>> 32 = 0#128 then 31 + clz32 (i.setWidth 32) else clz32 ((i >>> 32).setWidth 32)
      else clz32 (i.setWidth 32)

/-- `container_size` as `REV` chooses it. There is no 64-bit container in a 32-bit register. -/
def containerSize (opc : BitVec 32) (sf : Bool) : Option Nat :=
  if opc = 1#32 then some 16
  else if opc = 2#32 then some 32
  else if opc = 3#32 then if sf then some 64 else none
  else none

/-! ## The instructions -/

/-- Where bit `i` comes from when the bytes of every group of `k` bytes are reversed. -/
def byteSwap (k i : Nat) : Nat := i / (8 * k) * (8 * k) + (k - 1 - i / 8 % k) * 8 + i % 8

/-- The number of leading zero bits. -/
def leadingZeros {w : Nat} (x : BitVec w) : Nat := run w fun j => !x.getLsbD (w - 1 - j)

/-- The number of bits behind the top bit that equal it, up to the first that does not. -/
def leadingSigns {w : Nat} (x : BitVec w) : Nat :=
  run (w - 1) fun j => x.getLsbD (w - 1) == x.getLsbD (w - 1 - (j + 1))

/-- The data-processing instructions with one source, by their opcode field. -/
inductive BitOp where
  | RBIT
  | REV16
  | REV32
  | REV64
  | CLZ
  | CLS
  deriving DecidableEq, Repr

namespace BitOp

/-- What the instruction's action computes, unless the encoding is not allocated. -/
def value (op : BitOp) (sf : Bool) (in_val : BitVec 64) : Option (BitVec 64) :=
  match op with
  | RBIT => some (reverseValue sf in_val)
  | REV16 => (containerSize 1#32 sf).map fun k => reorderValue k sf in_val
  | REV32 => (containerSize 2#32 sf).map fun k => reorderValue k sf in_val
  | REV64 => (containerSize 3#32 sf).map fun k => reorderValue k sf in_val
  | CLZ => some (countValue .kCountOp_CLZ sf in_val)
  | CLS => some (countValue .kCountOp_CLS sf in_val)

/-- The architecture's value for a register of `w` bits. -/
def arm (op : BitOp) {w : Nat} (x : BitVec w) : Option (BitVec w) :=
  match op with
  | RBIT => some (permute (fun i => w - 1 - i) x)
  | REV16 => some (permute (byteSwap 2) x)
  | REV32 => some (permute (byteSwap 4) x)
  | REV64 => if w = 64 then some (permute (byteSwap 8) x) else none
  | CLZ => some (BitVec.ofNat w (leadingZeros x))
  | CLS => some (BitVec.ofNat w (leadingSigns x))

/-- The instructions that rearrange the bits. -/
def isReversal : BitOp → Bool
  | CLZ => false
  | CLS => false
  | _ => true

end BitOp

/-- The mask that reading and writing back apply to a 32-bit register. -/
def widthMask (sf : Bool) (value : BitVec 64) : BitVec 64 := if sf then value else value &&& 0xffffffff#64

/-- What ends in the destination for the register content `x`: the operand is read, the
    action evaluated and its result written back. -/
def written (op : BitOp) (sf : Bool) (x : BitVec 64) : Option (BitVec 64) :=
  (op.value sf (widthMask sf x)).map (widthMask sf)

/-- The architecture's destination, with the upper word of a 32-bit result clear. -/
def armWritten (op : BitOp) (sf : Bool) (x : BitVec 64) : Option (BitVec 64) :=
  if sf then op.arm x else (op.arm (x.setWidth 32)).map (·.setWidth 64)

theorem widthMask_false (x : BitVec 64) : widthMask false x = (x.setWidth 32).setWidth 64 := by
  apply BitVec.eq_of_toNat_eq
  have hx : x.toNat % 2 ^ 32 < 2 ^ 64 := by omega
  have hmask : (0xffffffff#64).toNat = 2 ^ 32 - 1 := by decide
  rw [widthMask, if_neg Bool.false_ne_true, BitVec.toNat_and, hmask, Nat.and_two_pow_sub_one_eq_mod,
    BitVec.toNat_setWidth, BitVec.toNat_setWidth, Nat.mod_eq_of_lt hx]

/-! ## Reversal -/

theorem getLsbD_reverseValue (sf : Bool) (x : BitVec 64) {j : Nat} (hj : j < if sf then 64 else 32) :
    (reverseValue sf x).getLsbD j = x.getLsbD ((if sf then 64 else 32) - 1 - j) := by
  have hsize : (if sf then 64 else 32) ≤ 64 := by split <;> omega
  rw [Bool.eq_iff_iff, reverseValue, getLsbD_copyBits _ _ hsize (by omega)]
  generalize (if sf then 64 else 32) = n at hj
  constructor
  · rintro ⟨i, hi, rfl, hbit⟩
    have hback : n - 1 - (n - i - 1) = i := by omega
    rw [hback, hbit]
  · intro hbit
    exact ⟨n - 1 - j, by omega, by omega, hbit⟩

/-! ## Bytes -/

theorem getLsbD_bswap16 (x : BitVec 16) {i : Nat} (hi : i < 16) :
    (bswap16 x).getLsbD i = x.getLsbD (byteSwap 2 i) := by
  rw [bswap16, BitVec.getLsbD_append]
  unfold byteSwap
  split
  · have hsrc : i / 16 * 16 + (2 - 1 - i / 8 % 2) * 8 + i % 8 = 8 + i := by omega
    rw [hsrc, BitVec.getLsbD_extractLsb', decide_eq_true (by omega), Bool.true_and]
  · have hsrc : i / 16 * 16 + (2 - 1 - i / 8 % 2) * 8 + i % 8 = i - 8 := by omega
    rw [hsrc, BitVec.getLsbD_extractLsb', decide_eq_true (by omega), Bool.true_and, Nat.zero_add]

theorem getLsbD_bswap32 (x : BitVec 32) {i : Nat} (hi : i < 32) :
    (bswap32 x).getLsbD i = x.getLsbD (byteSwap 4 i) := by
  rw [bswap32, BitVec.getLsbD_append]
  split
  · have hsrc : 16 + byteSwap 2 i = byteSwap 4 i := by unfold byteSwap; omega
    have hlt : byteSwap 2 i < 16 := by unfold byteSwap; omega
    rw [getLsbD_bswap16 _ (by omega), BitVec.getLsbD_extractLsb', decide_eq_true hlt, Bool.true_and, hsrc]
  · have hsrc : byteSwap 2 (i - 16) = byteSwap 4 i := by unfold byteSwap; omega
    have hlt : byteSwap 2 (i - 16) < 16 := by unfold byteSwap; omega
    rw [getLsbD_bswap16 _ (by omega), BitVec.getLsbD_extractLsb', decide_eq_true hlt, Bool.true_and,
      Nat.zero_add, hsrc]

theorem getLsbD_bswap64 (x : BitVec 64) {i : Nat} (hi : i < 64) :
    (bswap64 x).getLsbD i = x.getLsbD (byteSwap 8 i) := by
  rw [bswap64, BitVec.getLsbD_append]
  split
  · have hsrc : 32 + byteSwap 4 i = byteSwap 8 i := by unfold byteSwap; omega
    have hlt : byteSwap 4 i < 32 := by unfold byteSwap; omega
    rw [getLsbD_bswap32 _ (by omega), BitVec.getLsbD_extractLsb', decide_eq_true hlt, Bool.true_and, hsrc]
  · have hsrc : byteSwap 4 (i - 32) = byteSwap 8 i := by unfold byteSwap; omega
    have hlt : byteSwap 4 (i - 32) < 32 := by unfold byteSwap; omega
    rw [getLsbD_bswap32 _ (by omega), BitVec.getLsbD_extractLsb', decide_eq_true hlt, Bool.true_and,
      Nat.zero_add, hsrc]

/-- A lane of `k` bits, taken from bit `s` on, rearranged and put back. -/
theorem getLsbD_lane {k : Nat} (x : BitVec 64) (swap : BitVec k → BitVec k) (f : Nat → Nat) (s : Nat)
    (hswap : ∀ y i, i < k → (swap y).getLsbD i = y.getLsbD (f i)) (hf : ∀ i < k, f i < k) {j : Nat} (hj : j < 64) :
    ((swap ((x >>> s).setWidth k)).setWidth 64 <<< s).getLsbD j =
      (decide (s ≤ j ∧ j < s + k) && x.getLsbD (s + f (j - s))) := by
  rw [BitVec.getLsbD_shiftLeft, BitVec.getLsbD_setWidth, decide_eq_true hj, Bool.true_and,
    decide_eq_true (show j - s < 64 by omega), Bool.true_and]
  by_cases hlow : j < s
  · simp [hlow]
  · by_cases hhigh : j - s < k
    · have hin : s ≤ j ∧ j < s + k := by omega
      rw [hswap _ _ hhigh, BitVec.getLsbD_setWidth, decide_eq_true (hf _ hhigh), Bool.true_and,
        BitVec.getLsbD_ushiftRight, decide_eq_true hin, decide_eq_false hlow, Bool.not_false]
    · rw [BitVec.getLsbD_of_ge _ _ (by omega), decide_eq_false (by omega : ¬(s ≤ j ∧ j < s + k)), Bool.and_false,
        Bool.false_and]

/-- The lowest lane, which is not shifted. -/
theorem getLsbD_lane_zero {k : Nat} (x : BitVec 64) (swap : BitVec k → BitVec k) (f : Nat → Nat)
    (hswap : ∀ y i, i < k → (swap y).getLsbD i = y.getLsbD (f i)) (hf : ∀ i < k, f i < k) {j : Nat} (hj : j < 64) :
    ((swap (x.setWidth k)).setWidth 64).getLsbD j = (decide (j < k) && x.getLsbD (f j)) := by
  have hlane := getLsbD_lane x swap f 0 hswap hf hj
  simpa using hlane

theorem byteSwap_two_lt : ∀ i < 16, byteSwap 2 i < 16 := by
  intro i hi
  unfold byteSwap
  omega

theorem byteSwap_four_lt : ∀ i < 32, byteSwap 4 i < 32 := by
  intro i hi
  unfold byteSwap
  omega

theorem getLsbD_reorderValue_16 (the64 : Bool) (x : BitVec 64) {j : Nat} (hj : j < if the64 then 64 else 32) :
    (reorderValue 16 the64 x).getLsbD j = x.getLsbD (byteSwap 2 j) := by
  have hj64 : j < 64 := by split at hj <;> omega
  have hlane := fun s => getLsbD_lane x bswap16 (byteSwap 2) s (fun y i => getLsbD_bswap16 y) byteSwap_two_lt hj64
  have hlow := getLsbD_lane_zero x bswap16 (byteSwap 2) (fun y i => getLsbD_bswap16 y) byteSwap_two_lt hj64
  have hshift : ∀ q, j / 16 = q → 16 * q + byteSwap 2 (j - 16 * q) = byteSwap 2 j := by
    intro q hq
    unfold byteSwap
    omega
  have hquot : j / 16 = 0 ∨ j / 16 = 1 ∨ j / 16 = 2 ∨ j / 16 = 3 := by omega
  cases the64
  · simp only [reorderValue, Bool.false_eq_true, if_false] at hj ⊢
    rw [BitVec.getLsbD_or, hlow, hlane 16]
    rcases hquot with hq | hq | hq | hq
    · simp [show j < 16 by omega, show ¬16 ≤ j by omega]
    · simp [show ¬j < 16 by omega, show 16 ≤ j by omega, hj, ← hshift 1 hq]
    · omega
    · omega
  · simp only [reorderValue, if_true]
    rw [BitVec.getLsbD_or, BitVec.getLsbD_or, BitVec.getLsbD_or, hlow, hlane 16, hlane 32, hlane 48]
    rcases hquot with hq | hq | hq | hq
    · simp [show j < 16 by omega, show ¬16 ≤ j by omega, show ¬32 ≤ j by omega, show ¬48 ≤ j by omega]
    · simp [show ¬j < 16 by omega, show 16 ≤ j by omega, show j < 32 by omega, show ¬32 ≤ j by omega,
        show ¬48 ≤ j by omega, ← hshift 1 hq]
    · simp [show ¬j < 16 by omega, show ¬j < 32 by omega, show 32 ≤ j by omega, show j < 48 by omega,
        show ¬48 ≤ j by omega, ← hshift 2 hq]
    · simp [show ¬j < 16 by omega, show ¬j < 32 by omega, show ¬j < 48 by omega, show 48 ≤ j by omega, hj64,
        ← hshift 3 hq]

theorem getLsbD_reorderValue_32 (the64 : Bool) (x : BitVec 64) {j : Nat} (hj : j < if the64 then 64 else 32) :
    (reorderValue 32 the64 x).getLsbD j = x.getLsbD (byteSwap 4 j) := by
  have hj64 : j < 64 := by split at hj <;> omega
  have hlane := getLsbD_lane x bswap32 (byteSwap 4) 32 (fun y i => getLsbD_bswap32 y) byteSwap_four_lt hj64
  have hlow := getLsbD_lane_zero x bswap32 (byteSwap 4) (fun y i => getLsbD_bswap32 y) byteSwap_four_lt hj64
  have hshift : 32 ≤ j → 32 + byteSwap 4 (j - 32) = byteSwap 4 j := by
    intro hle
    unfold byteSwap
    omega
  cases the64
  · simp only [reorderValue, Bool.false_eq_true, if_false] at hj ⊢
    rw [hlow, decide_eq_true hj, Bool.true_and]
  · simp only [reorderValue, if_true]
    rw [BitVec.getLsbD_or, hlow, hlane]
    rcases Nat.lt_or_ge j 32 with hlt | hge
    · simp [hlt, show ¬32 ≤ j by omega]
    · simp [show ¬j < 32 by omega, hge, hj64, ← hshift hge]

/-! ## Counts -/

theorem clz32_eq (val : BitVec 32) : clz32 val = leadingZeros val := rfl

theorem clz32_upper (v : BitVec 64) : clz32 ((v >>> 32).setWidth 32) = run 32 fun j => !v.getLsbD (63 - j) := by
  apply run_congr
  intro j hj
  have hsrc : 32 + (31 - j) = 63 - j := by omega
  rw [BitVec.getLsbD_setWidth, decide_eq_true (by omega), Bool.true_and, BitVec.getLsbD_ushiftRight, hsrc]

theorem ushiftRight_32_eq_zero_iff (v : BitVec 64) :
    v >>> 32 = 0#64 ↔ run 32 (fun j => !v.getLsbD (63 - j)) = 32 := by
  rw [run_eq_self_iff]
  constructor
  · intro hzero j hj
    have hbit := congrArg (fun u => u.getLsbD (31 - j)) hzero
    have hsrc : 32 + (31 - j) = 63 - j := by omega
    simp only [BitVec.getLsbD_ushiftRight, hsrc, BitVec.getLsbD_zero] at hbit
    rw [hbit, Bool.not_false]
  · intro h
    apply BitVec.eq_of_getLsbD_eq
    intro i hi
    rw [BitVec.getLsbD_ushiftRight, BitVec.getLsbD_zero]
    rcases Nat.lt_or_ge i 32 with hlt | hge
    · have hsrc : 63 - (31 - i) = 32 + i := by omega
      have hbit := h (31 - i) (by omega)
      rw [hsrc, Bool.not_eq_true'] at hbit
      exact hbit
    · exact BitVec.getLsbD_of_ge _ _ (by omega)

/-- The count of a 64-bit word, put together from its two halves. -/
theorem clz_halves (v : BitVec 64) :
    (if v >>> 32 = 0#64 then 32 + clz32 (v.setWidth 32) else clz32 ((v >>> 32).setWidth 32)) = leadingZeros v := by
  have hlow : clz32 (v.setWidth 32) = run 32 fun j => !v.getLsbD (63 - (32 + j)) := by
    apply run_congr
    intro j hj
    have hsrc : 63 - (32 + j) = 31 - j := by omega
    rw [BitVec.getLsbD_setWidth, decide_eq_true (by omega), Bool.true_and, hsrc]
  have hsplit : leadingZeros v = run (32 + 32) fun j => !v.getLsbD (63 - j) := rfl
  rw [hsplit, run_add, clz32_upper, hlow]
  simp only [ushiftRight_32_eq_zero_iff]

theorem countValue_clz (sf : Bool) (x : BitVec 64) :
    countValue .kCountOp_CLZ sf x =
      BitVec.ofNat 64 (if sf then leadingZeros x else leadingZeros (x.setWidth 32)) := by
  cases sf
  · simp only [countValue, Bool.false_eq_true, if_false, clz32_eq]
  · simp only [countValue, if_true, clz_halves]

/-- The exclusive-or of a word with itself, shifted by one place and without its top bit, has
    one leading zero more than the word has leading copies of its sign. -/
theorem leadingZeros_adjacent {w : Nat} (u v : BitVec w) (hw : 0 < w)
    (hv : ∀ k < w, v.getLsbD k = (decide (k + 1 < w) && (u.getLsbD (k + 1) ^^ u.getLsbD k))) :
    leadingZeros v = leadingSigns u + 1 := by
  obtain ⟨n, rfl⟩ : ∃ n, w = n + 1 := ⟨w - 1, by omega⟩
  have htop : (!v.getLsbD (n + 1 - 1 - 0)) = true := by
    rw [hv _ (by omega), decide_eq_false (by omega), Bool.false_and, Bool.not_false]
  rw [leadingZeros, run, if_pos htop, leadingSigns, Nat.add_right_cancel_iff]
  have hadj := run_adjacent n fun j => u.getLsbD (n - j)
  simp only [Nat.sub_zero] at hadj
  rw [Nat.add_sub_cancel, ← hadj]
  apply run_congr
  intro j hj
  have hnext : n - (j + 1) + 1 = n - j := by omega
  rw [hv _ (by omega), hnext, decide_eq_true (by omega), Bool.true_and]
  cases u.getLsbD (n - j) <;> cases u.getLsbD (n - (j + 1)) <;> rfl

theorem getLsbD_neighbours (the64 : Bool) (x : BitVec 64) (k : Nat) :
    (neighbours the64 x).getLsbD k =
      (x.getLsbD (k + 1) ^^ (x.getLsbD k && decide (k < if the64 then 63 else 31))) := by
  have hmask : ∀ n < 128, ((BitVec.ofNat 128 (2 ^ n - 1)).getLsbD k = decide (k < n)) := by
    intro n hn
    rw [BitVec.getLsbD_ofNat, Nat.testBit_two_pow_sub_one]
    rcases Nat.lt_or_ge k 128 with hlt | hge
    · rw [decide_eq_true hlt, Bool.true_and]
    · rw [decide_eq_false (by omega), Bool.false_and, decide_eq_false (by omega)]
  have hwide : ∀ y : BitVec 64, (y.setWidth 128).getLsbD k = y.getLsbD k := by
    intro y
    rw [BitVec.getLsbD_setWidth]
    rcases Nat.lt_or_ge k 128 with hlt | hge
    · rw [decide_eq_true hlt, Bool.true_and]
    · rw [decide_eq_false (by omega), Bool.false_and, BitVec.getLsbD_of_ge _ _ (by omega)]
  rw [neighbours, BitVec.getLsbD_xor, BitVec.getLsbD_and, hwide, hwide, BitVec.getLsbD_ushiftRight, Nat.add_comm 1 k]
  cases the64
  · rw [if_neg Bool.false_ne_true, if_neg Bool.false_ne_true, ← hmask 31 (by omega)]
    rfl
  · rw [if_pos rfl, if_pos rfl, ← hmask 63 (by omega)]
    rfl

/-- The upper word of the operand is all zeros or all ones. -/
def UpperWordUniform (x : BitVec 64) : Prop := ∀ i, 32 ≤ i → i < 63 → x.getLsbD i = x.getLsbD 63

/-- The 64 low bits of the exclusive-or, which are all it has. -/
theorem neighbours_eq (x : BitVec 64) : neighbours true x = ((neighbours true x).setWidth 64).setWidth 128 := by
  apply BitVec.eq_of_getLsbD_eq
  intro k hk
  rw [BitVec.getLsbD_setWidth, BitVec.getLsbD_setWidth, decide_eq_true hk, Bool.true_and]
  rcases Nat.lt_or_ge k 64 with hlt | hge
  · rw [decide_eq_true hlt, Bool.true_and]
  · rw [getLsbD_neighbours, BitVec.getLsbD_of_ge _ _ (by omega), BitVec.getLsbD_of_ge _ _ (by omega)]
    simp

theorem leadingZeros_neighbours (x : BitVec 64) :
    leadingZeros ((neighbours true x).setWidth 64) = leadingSigns x + 1 := by
  apply leadingZeros_adjacent x _ (by omega)
  intro k hk
  rw [BitVec.getLsbD_setWidth, decide_eq_true hk, Bool.true_and, getLsbD_neighbours, if_pos rfl]
  rcases Nat.lt_or_ge k 63 with hlt | hge
  · rw [decide_eq_true hlt, decide_eq_true (by omega), Bool.and_true, Bool.true_and]
  · rw [decide_eq_false (by omega), decide_eq_false (by omega), BitVec.getLsbD_of_ge _ (k + 1) (by omega)]
    simp

theorem leadingZeros_neighbours_word (u : BitVec 32) :
    leadingZeros ((neighbours false (u.setWidth 64)).setWidth 32) = leadingSigns u + 1 := by
  apply leadingZeros_adjacent u _ (by omega)
  intro k hk
  rw [BitVec.getLsbD_setWidth, decide_eq_true hk, Bool.true_and, getLsbD_neighbours, if_neg Bool.false_ne_true,
    BitVec.getLsbD_setWidth, BitVec.getLsbD_setWidth, decide_eq_true (by omega), decide_eq_true (by omega),
    Bool.true_and, Bool.true_and]
  rcases Nat.lt_or_ge k 31 with hlt | hge
  · rw [decide_eq_true hlt, decide_eq_true (by omega), Bool.and_true, Bool.true_and]
  · rw [decide_eq_false (by omega), decide_eq_false (by omega), BitVec.getLsbD_of_ge _ (k + 1) (by omega)]
    simp

theorem neighbours_upper_eq_zero_iff (x : BitVec 64) :
    (neighbours true x).setWidth 64 >>> 32 = 0#64 ↔ UpperWordUniform x := by
  have hrun : run 32 (fun j => !((neighbours true x).setWidth 64).getLsbD (63 - j)) =
      run 31 (fun j => x.getLsbD (63 - 0) == x.getLsbD (63 - (j + 1))) + 1 := by
    have htop : (!((neighbours true x).setWidth 64).getLsbD (63 - 0)) = true := by
      rw [BitVec.getLsbD_setWidth, decide_eq_true (by omega), Bool.true_and, getLsbD_neighbours,
        BitVec.getLsbD_of_ge _ _ (by omega)]
      simp
    rw [run, if_pos htop, Nat.add_right_cancel_iff, ← run_adjacent 31 fun j => x.getLsbD (63 - j)]
    apply run_congr
    intro j hj
    have hnext : 63 - (j + 1) + 1 = 63 - j := by omega
    rw [BitVec.getLsbD_setWidth, decide_eq_true (by omega), Bool.true_and, getLsbD_neighbours, hnext, if_pos rfl,
      decide_eq_true (by omega), Bool.and_true]
    cases x.getLsbD (63 - j) <;> cases x.getLsbD (63 - (j + 1)) <;> rfl
  have hcancel : ∀ r, r + 1 = 32 ↔ r = 31 := fun r => by omega
  rw [ushiftRight_32_eq_zero_iff, hrun, hcancel, run_eq_self_iff]
  constructor
  · intro h i hi hlt
    have hbit := h (62 - i) (by omega)
    have hsrc : 63 - (62 - i + 1) = i := by omega
    rw [hsrc, beq_iff_eq] at hbit
    exact hbit.symm
  · intro h j hj
    rw [beq_iff_eq]
    exact (h (63 - (j + 1)) (by omega) (by omega)).symm

/-- The halves of a 128-bit word that has only 64 bits. -/
theorem cls_halves (v : BitVec 64) :
    (if v.setWidth 128 >>> 32 = 0#128 then 31 + clz32 ((v.setWidth 128).setWidth 32)
      else clz32 ((v.setWidth 128 >>> 32).setWidth 32)) =
      if v >>> 32 = 0#64 then leadingZeros v - 1 else leadingZeros v := by
  have hzero : v.setWidth 128 >>> 32 = 0#128 ↔ v >>> 32 = 0#64 := by bv_omega
  have hlow : (v.setWidth 128).setWidth 32 = v.setWidth 32 := by
    apply BitVec.setWidth_setWidth_of_le
    omega
  have hhigh : (v.setWidth 128 >>> 32).setWidth 32 = (v >>> 32).setWidth 32 := by
    apply BitVec.eq_of_toNat_eq
    simp only [BitVec.toNat_setWidth, BitVec.toNat_ushiftRight]
    rw [Nat.mod_eq_of_lt (by omega : v.toNat < 2 ^ 128)]
  have hhalves := clz_halves v
  simp only [hzero, hlow, hhigh]
  split at hhalves
  · rw [if_pos ‹_›, if_pos ‹_›]
    omega
  · rw [if_neg ‹_›, if_neg ‹_›]
    exact hhalves

theorem countValue_cls (x : BitVec 64) :
    countValue .kCountOp_CLS true x =
      BitVec.ofNat 64 (if (neighbours true x).setWidth 64 >>> 32 = 0#64 then leadingSigns x else leadingSigns x + 1) := by
  have hlead := leadingZeros_neighbours x
  have heq := neighbours_eq x
  generalize (neighbours true x).setWidth 64 = v at hlead heq
  simp only [countValue, if_true, heq, cls_halves, hlead, Nat.add_sub_cancel]

theorem countValue_cls_word (u : BitVec 32) :
    countValue .kCountOp_CLS false (u.setWidth 64) = BitVec.ofNat 64 (leadingSigns u + 1) := by
  simp only [countValue, Bool.false_eq_true, if_false, clz32_eq, leadingZeros_neighbours_word]

/-! ## The instructions against the architecture -/

/-- The operands for which the code counts right: not `CLS` of a 32-bit register, nor `CLS` of
    a 64-bit one whose upper word has both zeros and ones. -/
def CountsRight (op : BitOp) (sf : Bool) (x : BitVec 64) : Prop :=
  op = .CLS → sf = true ∧ UpperWordUniform x

/-- A count is below the width. -/
theorem leadingSigns_lt {w : Nat} (x : BitVec w) (hw : 0 < w) : leadingSigns x < w := by
  have hle := run_le (w - 1) fun j => x.getLsbD (w - 1) == x.getLsbD (w - 1 - (j + 1))
  unfold leadingSigns
  omega

theorem leadingZeros_le {w : Nat} (x : BitVec w) : leadingZeros x ≤ w := run_le _ _

/-- In the 64-bit form the masks do nothing. -/
theorem written_true_iff (op : BitOp) (x : BitVec 64) :
    written op true x = armWritten op true x ↔ CountsRight op true x := by
  have hmask : written op true x = op.value true x := by
    cases h : op.value true x <;> simp [written, widthMask, h]
  rw [hmask, armWritten, if_pos rfl]
  have hsize : ∀ {j}, j < 64 → j < if true = true then 64 else 32 := fun hj => by simpa using hj
  cases op with
  | RBIT =>
    refine iff_of_true (congrArg some (BitVec.eq_of_getLsbD_eq fun i hi => ?_)) (fun h => by contradiction)
    rw [getLsbD_reverseValue true x (hsize hi), getLsbD_permute _ _ hi, if_pos rfl]
  | REV16 =>
    refine iff_of_true (congrArg some (BitVec.eq_of_getLsbD_eq fun i hi => ?_)) (fun h => by contradiction)
    rw [getLsbD_permute _ _ hi]
    exact getLsbD_reorderValue_16 true x (hsize hi)
  | REV32 =>
    refine iff_of_true (congrArg some (BitVec.eq_of_getLsbD_eq fun i hi => ?_)) (fun h => by contradiction)
    rw [getLsbD_permute _ _ hi]
    exact getLsbD_reorderValue_32 true x (hsize hi)
  | REV64 =>
    refine iff_of_true (congrArg some (BitVec.eq_of_getLsbD_eq fun i hi => ?_)) (fun h => by contradiction)
    rw [getLsbD_permute _ _ hi]
    exact getLsbD_bswap64 x hi
  | CLZ =>
    refine iff_of_true (congrArg some ?_) (fun h => by contradiction)
    rw [countValue_clz, if_pos rfl]
  | CLS =>
    have hlt := leadingSigns_lt x (by omega)
    have hne : BitVec.ofNat 64 (leadingSigns x + 1) ≠ BitVec.ofNat 64 (leadingSigns x) := by
      intro h
      have hnat := congrArg BitVec.toNat h
      simp only [BitVec.toNat_ofNat] at hnat
      omega
    have hright : CountsRight .CLS true x ↔ UpperWordUniform x :=
      ⟨fun h => (h rfl).2, fun h _ => ⟨rfl, h⟩⟩
    rw [hright, ← neighbours_upper_eq_zero_iff]
    simp only [BitOp.value, BitOp.arm, Option.some.injEq, countValue_cls]
    split
    · exact iff_of_true rfl ‹_›
    · exact iff_of_false hne ‹_›

/-- A result of which the low word is known. -/
theorem widthMask_eq_of_word {v : BitVec 64} {t : BitVec 32} (h : ∀ j < 32, v.getLsbD j = t.getLsbD j) :
    widthMask false v = t.setWidth 64 := by
  have hword : v.setWidth 32 = t := by
    apply BitVec.eq_of_getLsbD_eq
    intro j hj
    rw [BitVec.getLsbD_setWidth, decide_eq_true hj, Bool.true_and, h j hj]
  rw [widthMask_false, hword]

/-- A bit of the operand, which has been read as a word. -/
theorem getLsbD_word (u : BitVec 32) {j : Nat} (hj : j < 32) : (u.setWidth 64).getLsbD j = u.getLsbD j := by
  rw [BitVec.getLsbD_setWidth, decide_eq_true (by omega), Bool.true_and]

theorem widthMask_count {n : Nat} (hn : n ≤ 32) :
    widthMask false (BitVec.ofNat 64 n) = (BitVec.ofNat 32 n).setWidth 64 := by
  rw [widthMask_false]
  apply BitVec.eq_of_toNat_eq
  simp only [BitVec.toNat_setWidth, BitVec.toNat_ofNat]
  omega

theorem written_false_iff (op : BitOp) (x : BitVec 64) :
    written op false x = armWritten op false x ↔ CountsRight op false x := by
  have hread : written op false x = (op.value false ((x.setWidth 32).setWidth 64)).map (widthMask false) := by
    rw [written, widthMask_false]
  rw [hread, armWritten, if_neg Bool.false_ne_true]
  generalize x.setWidth 32 = u
  have hsize : ∀ {j}, j < 32 → j < if false = true then 64 else 32 := fun hj => by simpa using hj
  cases op with
  | RBIT =>
    refine iff_of_true (congrArg some (widthMask_eq_of_word fun j hj => ?_)) (fun h => by contradiction)
    rw [getLsbD_reverseValue false _ (hsize hj), getLsbD_permute _ _ hj, if_neg Bool.false_ne_true,
      getLsbD_word u (by omega)]
  | REV16 =>
    refine iff_of_true (congrArg some (widthMask_eq_of_word fun j hj => ?_)) (fun h => by contradiction)
    have hlt : byteSwap 2 j < 32 := by unfold byteSwap; omega
    rw [getLsbD_permute _ _ hj, ← getLsbD_word u hlt]
    exact getLsbD_reorderValue_16 false _ (hsize hj)
  | REV32 =>
    refine iff_of_true (congrArg some (widthMask_eq_of_word fun j hj => ?_)) (fun h => by contradiction)
    rw [getLsbD_permute _ _ hj, ← getLsbD_word u (byteSwap_four_lt j hj)]
    exact getLsbD_reorderValue_32 false _ (hsize hj)
  | REV64 => exact iff_of_true rfl (fun h => by contradiction)
  | CLZ =>
    refine iff_of_true (congrArg some ?_) (fun h => by contradiction)
    have hword : (u.setWidth 64).setWidth 32 = u := by
      rw [BitVec.setWidth_setWidth_of_le _ (by omega), BitVec.setWidth_eq]
    rw [countValue_clz, if_neg Bool.false_ne_true, hword, widthMask_count (leadingZeros_le u)]
  | CLS =>
    refine iff_of_false ?_ (fun h => Bool.false_ne_true (h rfl).1)
    have hlt := leadingSigns_lt u (by omega)
    simp only [BitOp.value, BitOp.arm, Option.map_some, Option.some.injEq, countValue_cls_word]
    rw [widthMask_count (by omega)]
    intro h
    have hnat := congrArg BitVec.toNat h
    simp only [BitVec.toNat_setWidth, BitVec.toNat_ofNat] at hnat
    omega

theorem written_eq_arm_iff (op : BitOp) (sf : Bool) (x : BitVec 64) :
    written op sf x = armWritten op sf x ↔ CountsRight op sf x := by
  cases sf
  · exact written_false_iff op x
  · exact written_true_iff op x

/-! ## Involutions -/

theorem byteSwap_byteSwap {k i : Nat} (hk : k = 2 ∨ k = 4 ∨ k = 8) : byteSwap k (byteSwap k i) = i := by
  rcases hk with rfl | rfl | rfl <;> unfold byteSwap <;> omega

theorem byteSwap_lt {k w i : Nat} (hk : k = 2 ∨ k = 4 ∨ k = 8) (hw : w % (8 * k) = 0) (hi : i < w) : byteSwap k i < w := by
  rcases hk with rfl | rfl | rfl <;> unfold byteSwap <;> omega

theorem BitOp.arm_arm {op : BitOp} {w : Nat} {x y : BitVec w} (hw : w = 32 ∨ w = 64) (hop : op.isReversal)
    (h : op.arm x = some y) : op.arm y = some x := by
  have hbytes : ∀ k, k = 2 ∨ k = 4 ∨ k = 8 → w % (8 * k) = 0 → permute (byteSwap k) (permute (byteSwap k) x) = x :=
    fun k hk hdvd => permute_permute x (fun i hi => byteSwap_lt hk hdvd hi) (fun i _ => byteSwap_byteSwap hk)
  cases op with
  | RBIT =>
    obtain rfl : permute (fun i => w - 1 - i) x = y := Option.some.inj h
    exact congrArg some (permute_permute x (fun i hi => by omega) (fun i hi => by omega))
  | REV16 =>
    obtain rfl : permute (byteSwap 2) x = y := Option.some.inj h
    exact congrArg some (hbytes 2 (by omega) (by omega))
  | REV32 =>
    obtain rfl : permute (byteSwap 4) x = y := Option.some.inj h
    exact congrArg some (hbytes 4 (by omega) (by omega))
  | REV64 =>
    rw [arm] at h ⊢
    split at h
    · obtain rfl : permute (byteSwap 8) x = y := Option.some.inj h
      rw [if_pos ‹_›, hbytes 8 (by omega) (by omega)]
    · cases h
  | CLZ => cases hop
  | CLS => cases hop

/-- A reversal that is carried out twice restores the operand. -/
theorem written_written {op : BitOp} {sf : Bool} {x y : BitVec 64} (hop : op.isReversal)
    (h : written op sf x = some y) : written op sf y = some (widthMask sf x) := by
  have hright : ∀ z, written op sf z = armWritten op sf z := fun z =>
    (written_eq_arm_iff op sf z).mpr (by rintro rfl; cases hop)
  rw [hright] at h ⊢
  cases sf
  · rw [armWritten, if_neg Bool.false_ne_true] at h ⊢
    obtain ⟨t, ht, rfl⟩ := Option.map_eq_some_iff.mp h
    have hword : (t.setWidth 64).setWidth 32 = t := by
      rw [BitVec.setWidth_setWidth_of_le _ (by omega), BitVec.setWidth_eq]
    rw [hword, BitOp.arm_arm (Or.inl rfl) hop ht, Option.map_some, widthMask_false]
  · rw [armWritten, if_pos rfl] at h ⊢
    exact BitOp.arm_arm (Or.inr rfl) hop h

/-- What an instruction has to do: leave the architecture's value in the destination, and
    restore the operand when it is a reversal and done twice. -/
def Conforms (op : BitOp) (sf : Bool) (x : BitVec 64) : Prop :=
  written op sf x = armWritten op sf x ∧
    (op.isReversal → ∀ y, written op sf x = some y → written op sf y = some (widthMask sf x))

/-- The bit reversals, byte reversals and counts follow the architecture for every operand but
    those of which `CLS` counts one bit too many. -/
theorem conforms_iff (op : BitOp) (sf : Bool) (x : BitVec 64) : Conforms op sf x ↔ CountsRight op sf x := by
  rw [← written_eq_arm_iff]
  exact ⟨And.left, fun h => ⟨h, fun hop _ hy => written_written hop hy⟩⟩

/-- `CLS` of the word zero counts 32 bits instead of 31. With a single one in bit 62, `CLS` of a
    64-bit register counts one bit instead of none. -/
theorem not_conforms : ¬Conforms .CLS false 0#64 ∧ ¬Conforms .CLS true (1#64 <<< 62) := by
  constructor
  · exact fun h => absurd h.1 (by decide)
  · exact fun h => absurd h.1 (by decide)

end narmDecoder
