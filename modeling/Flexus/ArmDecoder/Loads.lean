import Flexus.ArmDecoder.DataProcRegWired
import Flexus.ArmDecoder.LoadStore
import Flexus.Lib.Extension

/-!
# Loaded values

What the actions of a load leave in its registers, against the architecture's extension of what
was loaded.
-/

namespace narmDecoder

open nuArchARM (eSize bits)

/-! ## Actions -/

/-- The bits above the field are set if its sign is. -/
def eSignCode.fill (theSignExtend : eSignCode) (sign value : bits) : bits :=
  if theSignExtend ≠ .kNoExtension ∧ value &&& sign ≠ 0#128 then
    value ||| (if theSignExtend = .kSignExtend then 0xFFFFFFFFFFFFFF00#128 else 0#128)
  else value

/-- `LoadAction::doLoad`: the value that it sets in `kResult`. -/
def LoadAction.doLoad (theSize : eSize) (theSignExtend : eSignCode) (value : bits) : Except Fault (BitVec 64) :=
  match theSize with
  | .kByte => .ok ((theSignExtend.fill 0x80#128 (value &&& 0xFF#128)).setWidth 64)
  | .kHalfWord => .ok ((theSignExtend.fill 0x8000#128 (value &&& value)).setWidth 64)
  | .kWord => .ok ((theSignExtend.fill 0x80000000#128 (value &&& value)).setWidth 64)
  | .kDoubleWord => .ok (value.setWidth 64)
  | .kQuadWord => .error .assertion

def splitBits (input : bits) (size : Nat) : BitVec 64 × BitVec 64 :=
  let a := BitVec.allOnes 128 <<< (size / 2)
  let b := ~~~a
  (((a &&& input) >>> (size / 2)).setWidth 64, (b &&& input).setWidth 64)

/-- `LDPAction::doLoad`: the values that it sets in `kResult` and `kResult1`. An access across pages
    is read again. -/
def LDPAction.doLoad (readVirtualAddress : BitVec 64 → Nat → bits) (theSize : eSize) (addr : BitVec 64)
    (value : bits) : BitVec 64 × BitVec 64 :=
  let size := match theSize with
    | .kQuadWord => 128
    | _ => 64
  let addr_final := addr + BitVec.ofNat 64 (size / 8) - 1
  let value_new := readVirtualAddress addr (size / 8)
  let value := if addr &&& 0x1000 ≠ addr_final &&& 0x1000 ∧ value ≠ value_new then value_new else value
  let pairValues := splitBits value size
  (pairValues.2, pairValues.1)

/-- `WritebackAction::doEvaluate` and `RegisterFile::poke`. -/
def Destination.written (d : Destination) (res : BitVec 64) : BitVec 64 :=
  if d.is64 then res else res &&& 0xFFFFFFFF#64

/-- What a load leaves in its registers. -/
def Load.writes (l : Load) (readVirtualAddress : BitVec 64 → Nat → bits) (addr : BitVec 64) (value : bits) :
    Except Fault (List (BitVec 32 × BitVec 64)) :=
  match l.theAction with
  | .loadAction theSize theSignExtend => do
    let result ← LoadAction.doLoad theSize theSignExtend value
    l.theDestinations.mapM fun d => match d.theResult with
      | .kResult => .ok (d.rd, d.written result)
      | _ => .error .badGet
  | .ldpAction theSize _ =>
    let results := LDPAction.doLoad readVirtualAddress theSize addr value
    l.theDestinations.mapM fun d => match d.theResult with
      | .kResult => .ok (d.rd, d.written results.1)
      | .kResult1 => .ok (d.rd, d.written results.2)
      | _ => .error .badGet

/-! ## The architecture -/

/-- A field of the loaded bytes, extended to the width of a register and with zeros above it. -/
def armLoaded (width : Nat) (signed : Bool) (regWidth : Nat) (field : bits) : BitVec 64 :=
  if signed then ((field.setWidth width).signExtend regWidth).setWidth 64 else (field.setWidth width).setWidth 64

/-- The encodings among the registers that are neither register offsets nor immediates: atomic
    memory operations and loads with authenticated addresses. They extend with zeros. -/
def IsMemoryOperation (op : BitVec 32) : Prop :=
  extract32 op 24 2 = 0#32 ∧ extract32 op 21 1 = 1#32 ∧ extract32 op 10 2 ≠ 2#32

instance (op : BitVec 32) : Decidable (IsMemoryOperation op) := inferInstanceAs (Decidable (_ ∧ _ ∧ _))

/-- The bits that are accessed at the address, from the fields of the encoding. -/
def fieldWidth (op : BitVec 32) : Nat := 8 * 2 ^ (extract32 op 30 2).toNat

/-- The registers that the architecture writes with their values, or none for a prefetch. -/
def armLoads (op : BitVec 32) (memory : bits) : Option (List (BitVec 32 × BitVec 64)) :=
  let rt := extract32 op 0 5
  let rt2 := extract32 op 10 5
  let size := (extract32 op 30 2).toNat
  let opc := (extract32 op 22 2).toNat
  match disas_ldst op with
  | .LDAQ | .LDXR => some [(rt, armLoaded (fieldWidth op) false 64 memory)]
  | .LDR_lit =>
    -- the field that is the size of the others
    match size with
    | 0 => some [(rt, armLoaded 32 false 32 memory)]
    | 1 => some [(rt, armLoaded 64 false 64 memory)]
    | 2 => some [(rt, armLoaded 32 true 64 memory)]
    | _ => none
  | .LDP =>
    match size with
    | 0 => some [(rt, armLoaded 32 false 32 memory), (rt2, armLoaded 32 false 32 (memory >>> 32))]
    | 1 => some [(rt, armLoaded 32 true 64 memory), (rt2, armLoaded 32 true 64 (memory >>> 32))]
    | _ => some [(rt, armLoaded 64 false 64 memory), (rt2, armLoaded 64 false 64 (memory >>> 64))]
  | .LDR =>
    if IsMemoryOperation op ∨ opc = 1 then some [(rt, armLoaded (fieldWidth op) false 64 memory)]
    else if opc = 2 then if size = 3 then none else some [(rt, armLoaded (fieldWidth op) true 64 memory)]
    else some [(rt, armLoaded (fieldWidth op) true 32 memory)]
  | _ => none

/-- A negative field has no zeros above its lowest byte. -/
def Filled (width : Nat) (memory : bits) : Prop :=
  memory.getLsbD (width - 1) = true → ∀ i < width, 8 ≤ i → memory.getLsbD i = true

instance (width : Nat) (memory : bits) : Decidable (Filled width memory) := inferInstanceAs (Decidable (_ → _))

/-- When the registers get what the architecture says. -/
def ExtendsAsArm (op : BitVec 32) (memory : bits) : Prop :=
  let size := (extract32 op 30 2).toNat
  let opc := (extract32 op 22 2).toNat
  match disas_ldst op with
  | .LDAQ => size = 3 → (memory.setWidth 64).toNat < 2 ^ 32
  | .LDR_lit => size = 2 → memory.getLsbD 31 = false
  | .LDP => size = 1 → memory.getLsbD 31 = false ∧ memory.getLsbD 63 = false
  | .LDR =>
    opc = 1 ∨ if IsMemoryOperation op then memory.getLsbD (fieldWidth op - 1) = false
      else size ≠ 3 ∧ Filled (fieldWidth op) memory
  | _ => True

variable {op : BitVec 32} {memory : bits}

/-! ## Bits -/

/-- The accessed bits with zeros above them. -/
def accessed (width : Nat) (memory : bits) : bits := (memory.setWidth width).setWidth 128

theorem getLsbD_accessed {width : Nat} (hwidth : width ≤ 128) (i : Nat) :
    (accessed width memory).getLsbD i = (decide (i < width) && memory.getLsbD i) := by
  rw [accessed, BitVec.getLsbD_setWidth, BitVec.getLsbD_setWidth]
  by_cases hi : i < width
  · rw [decide_eq_true (by omega : i < 128), decide_eq_true hi, Bool.true_and]
  · rw [decide_eq_false hi, Bool.false_and, Bool.and_false]

theorem eq_iff_getLsbD {n : Nat} {x y : BitVec n} : x = y ↔ ∀ i < n, x.getLsbD i = y.getLsbD i :=
  ⟨fun h _ _ => by rw [h], BitVec.eq_of_getLsbD_eq⟩

theorem getLsbD_armLoaded_unsigned {width : Nat} (hwidth : width ≤ 64) (regWidth i : Nat) :
    (armLoaded width false regWidth memory).getLsbD i = (decide (i < width) && memory.getLsbD i) := by
  rw [armLoaded, if_neg Bool.false_ne_true, BitVec.getLsbD_setWidth, BitVec.getLsbD_setWidth]
  by_cases hi : i < width
  · rw [decide_eq_true (by omega : i < 64), decide_eq_true hi, Bool.true_and]
  · rw [decide_eq_false hi, Bool.false_and, Bool.and_false]

theorem getLsbD_armLoaded_signed {width regWidth : Nat} (hwidth : 0 < width ∧ width ≤ regWidth) {i : Nat} (hi : i < 64) :
    (armLoaded width true regWidth memory).getLsbD i =
      (decide (i < regWidth) && memory.getLsbD (min i (width - 1))) := by
  rw [armLoaded, if_pos rfl, BitVec.getLsbD_setWidth, decide_eq_true hi, Bool.true_and, BitVec.getLsbD_signExtend]
  by_cases hreg : i < regWidth
  · rw [decide_eq_true hreg, Bool.true_and, Bool.true_and]
    by_cases hlow : i < width
    · rw [if_pos hlow, Nat.min_eq_left (by omega), BitVec.getLsbD_setWidth, decide_eq_true hlow, Bool.true_and]
    · rw [if_neg hlow, Nat.min_eq_right (by omega), BitVec.msb_setWidth, decide_eq_true hwidth.1, Bool.true_and]
  · rw [decide_eq_false hreg, Bool.false_and, Bool.false_and]

theorem getLsbD_written (d : Destination) (res : BitVec 64) (i : Nat) :
    (d.written res).getLsbD i = (res.getLsbD i && (d.is64 || decide (i < 32))) := by
  rw [Destination.written]
  cases d.is64 with
  | true => rw [if_pos rfl, Bool.true_or, Bool.and_true]
  | false =>
    have hmask : 0xFFFFFFFF#64 = (BitVec.allOnes 32).setWidth 64 := rfl
    rw [if_neg Bool.false_ne_true, BitVec.getLsbD_and, hmask, BitVec.getLsbD_setWidth, BitVec.getLsbD_allOnes,
      Bool.false_or]
    by_cases hi : i < 32
    · rw [decide_eq_true hi, decide_eq_true (by omega : i < 64), Bool.true_and]
    · rw [decide_eq_false hi, Bool.and_false]

/-! ## Values -/

/-- The value of a load with the sign. -/
def signedLoad (width : Nat) (memory : bits) : BitVec 64 :=
  (if memory.getLsbD (width - 1) then accessed width memory ||| 0xFFFFFFFFFFFFFF00#128
  else accessed width memory).setWidth 64

theorem getLsbD_signedLoad {width : Nat} (hwidth : 8 ≤ width ∧ width ≤ 64) {i : Nat} (hi : i < 64) :
    (signedLoad width memory).getLsbD i =
      (decide (i < width) && memory.getLsbD i || (memory.getLsbD (width - 1) && decide (8 ≤ i))) := by
  have hupper : 0xFFFFFFFFFFFFFF00#128 = (BitVec.allOnes 56).setWidth 128 <<< 8 := rfl
  rw [signedLoad, BitVec.getLsbD_setWidth, decide_eq_true hi, Bool.true_and]
  cases memory.getLsbD (width - 1) with
  | false => rw [if_neg Bool.false_ne_true, getLsbD_accessed (by omega), Bool.false_and, Bool.or_false]
  | true =>
    rw [if_pos rfl, BitVec.getLsbD_or, getLsbD_accessed (by omega), hupper, BitVec.getLsbD_shiftLeft,
      BitVec.getLsbD_setWidth, BitVec.getLsbD_allOnes, Bool.true_and]
    congr 1
    by_cases hlow : i < 8
    · simp [hlow]
    · rw [decide_eq_true (by omega : i < 128), decide_eq_false hlow, decide_eq_true (by omega : i - 8 < 128),
        decide_eq_true (by omega : i - 8 < 56), decide_eq_true (by omega : 8 ≤ i)]
      rfl

theorem fill_accessed {width : Nat} (hwidth : 0 < width ∧ width ≤ 128) :
    eSignCode.kSignExtend.fill (BitVec.twoPow 128 (width - 1)) (accessed width memory) =
      if memory.getLsbD (width - 1) then accessed width memory ||| 0xFFFFFFFFFFFFFF00#128
      else accessed width memory := by
  have hbit : (accessed width memory).getLsbD (width - 1) = memory.getLsbD (width - 1) := by
    rw [getLsbD_accessed hwidth.2, decide_eq_true (by omega), Bool.true_and]
  rw [eSignCode.fill, BitVec.and_twoPow, hbit]
  cases memory.getLsbD (width - 1) with
  | false => simp
  | true =>
    have hne : BitVec.twoPow 128 (width - 1) ≠ 0#128 := by
      intro hzero
      have htop := congrArg (fun x => x.getLsbD (width - 1)) hzero
      simp [BitVec.getLsbD_twoPow] at htop
      omega
    simp [hne]

theorem accessed_and_byte : accessed 8 memory &&& 0xFF#128 = accessed 8 memory := by
  have hbyte : 0xFF#128 = (BitVec.allOnes 8).setWidth 128 := rfl
  apply BitVec.eq_of_getLsbD_eq
  intro i hi
  rw [BitVec.getLsbD_and, getLsbD_accessed (by omega), hbyte, BitVec.getLsbD_setWidth, BitVec.getLsbD_allOnes,
    decide_eq_true hi, Bool.true_and, Bool.and_right_comm, Bool.and_self]

theorem LoadAction.doLoad_signed {sz : eSize} (hsz : sz = .kByte ∨ sz = .kHalfWord ∨ sz = .kWord) :
    LoadAction.doLoad sz .kSignExtend (accessed (8 * sz.bytes) memory) = .ok (signedLoad (8 * sz.bytes) memory) := by
  have hfill := @fill_accessed memory
  obtain rfl | rfl | rfl := hsz
  · change Except.ok _ = _
    rw [show 8 * eSize.kByte.bytes = 8 from rfl, accessed_and_byte, signedLoad]
    exact congrArg (fun v => Except.ok (BitVec.setWidth 64 v)) (@hfill 8 (by omega))
  · change Except.ok _ = _
    rw [BitVec.and_self, signedLoad]
    exact congrArg (fun v => Except.ok (BitVec.setWidth 64 v)) (@hfill 16 (by omega))
  · change Except.ok _ = _
    rw [BitVec.and_self, signedLoad]
    exact congrArg (fun v => Except.ok (BitVec.setWidth 64 v)) (@hfill 32 (by omega))

theorem eSignCode.fill_of_ne {c : eSignCode} (hc : c ≠ .kSignExtend) (sign value : bits) :
    c.fill sign value = value := by
  rw [eSignCode.fill, if_neg hc, BitVec.or_zero, ite_self]

theorem LoadAction.doLoad_unsigned {sz : eSize} (hsz : sz ≠ .kQuadWord) {c : eSignCode} (hc : c ≠ .kSignExtend)
    (regWidth : Nat) :
    LoadAction.doLoad sz c (accessed (8 * sz.bytes) memory) =
      .ok (armLoaded (8 * sz.bytes) false regWidth memory) := by
  have hwide : ∀ width ≤ 64, (accessed width memory).setWidth 64 = armLoaded width false regWidth memory := by
    intro width hwidth
    apply BitVec.eq_of_getLsbD_eq
    intro i hi
    rw [BitVec.getLsbD_setWidth, getLsbD_accessed (by omega), getLsbD_armLoaded_unsigned hwidth, decide_eq_true hi,
      Bool.true_and]
  cases sz with
  | kByte =>
    change Except.ok _ = _
    rw [eSignCode.fill_of_ne hc]
    exact congrArg Except.ok ((congrArg (BitVec.setWidth 64) accessed_and_byte).trans (hwide 8 (by omega)))
  | kHalfWord =>
    change Except.ok _ = _
    rw [eSignCode.fill_of_ne hc, BitVec.and_self]
    exact congrArg Except.ok (hwide 16 (by omega))
  | kWord =>
    change Except.ok _ = _
    rw [eSignCode.fill_of_ne hc, BitVec.and_self]
    exact congrArg Except.ok (hwide 32 (by omega))
  | kDoubleWord => exact congrArg Except.ok (hwide 64 (by omega))
  | kQuadWord => exact absurd rfl hsz

/-! ## Values that are right -/

/-- A field as wide as its register, or narrower, is written as it is. -/
theorem written_unsigned {width : Nat} (d : Destination) (regWidth : Nat) (hwidth : width ≤ 64)
    (hd : d.is64 = true ∨ width ≤ 32) :
    d.written (armLoaded width false regWidth memory) = armLoaded width false regWidth memory := by
  apply BitVec.eq_of_getLsbD_eq
  intro i _
  rw [getLsbD_written, getLsbD_armLoaded_unsigned hwidth]
  obtain hd | hd := hd
  · rw [hd, Bool.true_or, Bool.and_true]
  · by_cases hi : i < width
    · rw [decide_eq_true (by omega : i < 32), Bool.or_true, Bool.and_true]
    · rw [decide_eq_false hi, Bool.false_and, Bool.false_and]

/-- Cutting a double word to 32 bits changes nothing if it has no more. -/
theorem written_cut_iff {d : Destination} (hd : d.is64 = false) (regWidth : Nat) :
    d.written (armLoaded 64 false regWidth memory) = armLoaded 64 false regWidth memory ↔
      (memory.setWidth 64).toNat < 2 ^ 32 := by
  rw [Extension.toNat_lt_two_pow_iff, eq_iff_getLsbD]
  constructor
  · intro hsame i hi
    by_cases hlow : i < 64
    · have hbit := hsame i hlow
      rw [getLsbD_written, getLsbD_armLoaded_unsigned (by omega), hd, decide_eq_false (by omega : ¬i < 32),
        Bool.or_false, Bool.and_false, decide_eq_true hlow, Bool.true_and] at hbit
      rw [BitVec.getLsbD_setWidth, ← hbit, Bool.and_false]
    · exact BitVec.getLsbD_of_ge _ _ (by omega)
  · intro hzero i hi
    rw [getLsbD_written, getLsbD_armLoaded_unsigned (by omega), hd, Bool.false_or]
    by_cases hlow : i < 32
    · rw [decide_eq_true hlow, Bool.and_true]
    · have hbit := hzero i (by omega)
      rw [BitVec.getLsbD_setWidth, decide_eq_true hi, Bool.true_and] at hbit
      rw [hbit, Bool.and_false, Bool.false_and]

/-- The mask extends a negative field that has no zeros above its lowest byte. -/
theorem written_signed_iff {width regWidth : Nat} {d : Destination} (hwidth : 8 ≤ width ∧ width ≤ 32)
    (hreg : width ≤ regWidth) (hd : if d.is64 then regWidth = 64 else regWidth = 32) :
    d.written (signedLoad width memory) = armLoaded width true regWidth memory ↔ Filled width memory := by
  have hshown : ∀ i, (d.is64 || decide (i < 32)) = true ↔ i < regWidth ∨ 64 ≤ regWidth := by
    intro i
    cases hcase : d.is64 <;> rw [hcase] at hd <;> simp at hd ⊢ <;> omega
  rw [eq_iff_getLsbD]
  constructor
  · intro hsame hsign i hi hlow
    have hbit := hsame i (by omega)
    have hin : (d.is64 || decide (i < 32)) = true := (hshown i).mpr (.inl (by omega))
    rw [getLsbD_written, getLsbD_signedLoad (by omega) (by omega), getLsbD_armLoaded_signed (by omega) (by omega), hin,
      Bool.and_true, decide_eq_true (by omega : i < regWidth), Bool.true_and, Nat.min_eq_left (by omega), hsign,
      decide_eq_true hlow, Bool.true_and, Bool.or_true] at hbit
    exact hbit.symm
  · intro hfilled i hi
    rw [getLsbD_written, getLsbD_signedLoad (by omega) hi, getLsbD_armLoaded_signed (by omega) hi]
    by_cases hin : i < regWidth
    · rw [(hshown i).mpr (.inl hin), Bool.and_true, decide_eq_true hin, Bool.true_and]
      by_cases hfield : i < width
      · rw [Nat.min_eq_left (by omega), decide_eq_true hfield, Bool.true_and]
        cases hsign : memory.getLsbD (width - 1) with
        | false => rw [Bool.false_and, Bool.or_false]
        | true =>
          by_cases hlow : 8 ≤ i
          · rw [hfilled hsign i hfield hlow, Bool.true_or]
          · rw [decide_eq_false hlow, Bool.and_false, Bool.or_false]
      · rw [Nat.min_eq_right (by omega), decide_eq_false hfield, Bool.false_and, Bool.false_or,
          decide_eq_true (by omega : 8 ≤ i), Bool.and_true]
    · have hout : (d.is64 || decide (i < 32)) = false :=
        Bool.eq_false_iff.mpr fun h => ((hshown i).mp h).elim hin (by omega)
      rw [hout, Bool.and_false, decide_eq_false hin, Bool.false_and]

/-- A value that agrees with the field is extended with zeros where a signed one would not be. -/
theorem written_signed_unsigned_iff {width : Nat} {d : Destination} (regWidth : Nat) (hwidth : 8 ≤ width ∧ width ≤ 32)
    (hd : d.is64 = true ∨ width < 32) :
    d.written (signedLoad width memory) = armLoaded width false regWidth memory ↔
      memory.getLsbD (width - 1) = false := by
  rw [eq_iff_getLsbD]
  constructor
  · intro hsame
    have hbit := hsame width (by omega)
    have hin : (d.is64 || decide (width < 32)) = true := by
      obtain hd | hd := hd
      · rw [hd, Bool.true_or]
      · rw [decide_eq_true hd, Bool.or_true]
    rwa [getLsbD_written, getLsbD_signedLoad (by omega) (by omega), getLsbD_armLoaded_unsigned (by omega), hin,
      Bool.and_true, decide_eq_false (Nat.lt_irrefl _), Bool.false_and, Bool.false_or, decide_eq_true hwidth.1,
      Bool.and_true] at hbit
  · intro hsign i hi
    rw [getLsbD_written, getLsbD_signedLoad (by omega) hi, getLsbD_armLoaded_unsigned (by omega), hsign, Bool.false_and,
      Bool.or_false]
    by_cases hfield : i < width
    · have hin : (d.is64 || decide (i < 32)) = true := by rw [decide_eq_true (by omega : i < 32), Bool.or_true]
      rw [hin, Bool.and_true]
    · rw [decide_eq_false hfield, Bool.false_and, Bool.false_and]

/-- A word that is cut to 32 bits is the signed extension to 64 bits if it is not negative. -/
theorem written_word_iff {d : Destination} {res : BitVec 64} (hd : d.is64 = false)
    (hres : memory.getLsbD 31 = false → ∀ i < 32, res.getLsbD i = memory.getLsbD i) :
    d.written res = armLoaded 32 true 64 memory ↔ memory.getLsbD 31 = false := by
  rw [eq_iff_getLsbD]
  constructor
  · intro hsame
    have hbit := hsame 32 (by omega)
    rwa [getLsbD_written, getLsbD_armLoaded_signed (by omega) (by omega), hd, decide_eq_false (Nat.lt_irrefl _),
      Bool.or_false, Bool.and_false, decide_eq_true (by omega : 32 < 64), Bool.true_and, eq_comm] at hbit
  · intro hsign i hi
    rw [getLsbD_written, getLsbD_armLoaded_signed (by omega) hi, hd, Bool.false_or, decide_eq_true hi, Bool.true_and]
    by_cases hlow : i < 32
    · rw [decide_eq_true hlow, Bool.and_true, hres hsign i hlow, Nat.min_eq_left (by omega)]
    · rw [decide_eq_false hlow, Bool.and_false, Nat.min_eq_right (by omega), hsign]

/-! ## Encodings -/

theorem two_bits (op : BitVec 32) (start : Nat) :
    extract32 op start 2 = 0#32 ∨ extract32 op start 2 = 1#32 ∨ extract32 op start 2 = 2#32 ∨
      extract32 op start 2 = 3#32 := by
  have hlt : (extract32 op start 2).toNat < 2 ^ 2 := extract32_lt op start (by omega)
  simp only [← BitVec.toNat_inj, BitVec.toNat_ofNat]
  omega

/-- What each class can be given to. -/
theorem disas_ldst_excl_ne (op : BitVec 32) : disas_ldst_excl op ≠ .LDR ∧ disas_ldst_excl op ≠ .LDP ∧
    disas_ldst_excl op ≠ .LDR_lit := by
  rw [disas_ldst_excl]
  split
  · exact ⟨nofun, nofun, nofun⟩
  · split <;> exact ⟨nofun, nofun, nofun⟩

theorem disas_ld_lit_cases (op : BitVec 32) : disas_ld_lit op = .LDR_lit ∨ disas_ld_lit op = .blackBox := by
  rw [disas_ld_lit]
  split
  · exact .inl rfl
  · exact .inl rfl
  · exact .inl rfl
  · exact .inl rfl
  · exact .inr rfl

theorem disas_ldst_pair_ne (op : BitVec 32) : disas_ldst_pair op ≠ .LDR ∧ disas_ldst_pair op ≠ .LDXR ∧
    disas_ldst_pair op ≠ .LDR_lit := by
  rw [disas_ldst_pair]
  split
  · exact ⟨nofun, nofun, nofun⟩
  · split
    · exact ⟨nofun, nofun, nofun⟩
    · split <;> exact ⟨nofun, nofun, nofun⟩

theorem disas_ldst_reg_ne (op : BitVec 32) : disas_ldst_reg op ≠ .LDXR := by
  rw [disas_ldst_reg, disas_ldst_reg_roffset, disas_ldst_reg_imm9, disas_ldst_reg_unsigned_imm]
  repeat' split
  all_goals exact nofun

/-- Encodings of the registers are given to `LDR` with these fields. -/
def LDRFields (op : BitVec 32) : Prop :=
  extract32 op 22 2 ≠ 0#32 ∧ (extract32 op 22 2 = 3#32 → ¬1#32 < extract32 op 30 2) ∧
    (IsMemoryOperation op → ¬(extract32 op 30 2 = 3#32 ∧ extract32 op 22 2 = 2#32))

theorem disas_reg_LDR (h : disas_ldst_reg op = .LDR) : LDRFields op := by
  rw [disas_ldst_reg] at h
  split at h
  · split at h
    · next hroffset =>
      rw [disas_ldst_reg_roffset] at h
      split at h
      · cases h
      · split at h
        · cases h
        · next hallocated =>
          split at h
          · cases h
          · next hV =>
            split at h
            · cases h
            · next hload =>
              exact ⟨hload, fun hopc hsize => hallocated ⟨hV, hopc, hsize⟩,
                fun hmemory => absurd hroffset.2 hmemory.2.2⟩
    · rw [disas_ldst_reg_imm9] at h
      split at h
      · cases h
      · next hprefetch =>
        split at h
        · cases h
        · next hallocated =>
          split at h
          · cases h
          · split at h
            · cases h
            · next hload => exact ⟨hload, fun hopc hsize => hallocated ⟨hopc, hsize⟩, fun _ => hprefetch⟩
  · rw [disas_ldst_reg_unsigned_imm] at h
    split at h
    · cases h
    · next hprefetch =>
      split at h
      · cases h
      · next hallocated =>
        split at h
        · cases h
        · split at h
          · cases h
          · next hload =>
            exact ⟨fun hopc => hload (.inl hopc), fun hopc hsize => hallocated ⟨hopc, hsize⟩, fun _ => hprefetch⟩
  · cases h

theorem disas_LDR (h : disas_ldst op = .LDR) : LDRFields op := by
  rw [disas_ldst] at h
  split at h
  case h_1 => exact absurd h (disas_ldst_excl_ne op).1
  case h_2 | h_3 =>
    obtain hlit | hlit := disas_ld_lit_cases op
    all_goals
      rw [hlit] at h
      cases h
  case h_4 | h_5 | h_6 | h_7 => exact absurd h (disas_ldst_pair_ne op).1
  case h_8 | h_9 | h_10 | h_11 => exact disas_reg_LDR h
  all_goals cases h

/-- A pair is never given to `LDXR`. -/
theorem disas_LDXR (h : disas_ldst op = .LDXR) : bit op 21 = false := by
  rw [disas_ldst] at h
  split at h
  case h_1 =>
    rw [disas_ldst_excl] at h
    split at h
    · cases h
    · cases ho1 : bit op 21 with
      | false => rfl
      | true =>
        rw [ho1] at h
        exfalso
        revert h
        cases bit op 15 <;> cases bit op 22 <;> cases bit op 23 <;> exact nofun
  case h_2 | h_3 =>
    obtain hlit | hlit := disas_ld_lit_cases op
    all_goals
      rw [hlit] at h
      cases h
  case h_4 | h_5 | h_6 | h_7 => exact absurd h (disas_ldst_pair_ne op).2.1
  case h_8 | h_9 | h_10 | h_11 => exact absurd h (disas_ldst_reg_ne op)
  all_goals cases h

/-! ## What is built -/

theorem fieldWidth_eq {op : BitVec 32} {n : Nat} (h : extract32 op 30 2 = BitVec.ofNat 32 n) (hn : n < 4) :
    fieldWidth op = 8 * 2 ^ n := by
  rw [fieldWidth, h, BitVec.toNat_ofNat, Nat.mod_eq_of_lt (by omega)]

/-- The size that the decoder functions take from the first two bits. -/
theorem dbSize_shiftLeft (op : BitVec 32) : ∃ sz, dbSize (8#32 <<< extract32 op 30 2) = .ok sz ∧ sz ≠ .kQuadWord ∧
    8 * sz.bytes = fieldWidth op ∧ (sz = .kDoubleWord ↔ extract32 op 30 2 = 3#32) ∧
    (8#32 <<< extract32 op 30 2 = 64#32 ↔ extract32 op 30 2 = 3#32) := by
  obtain h | h | h | h := two_bits op 30
  · exact ⟨.kByte, by rw [h]; rfl, nofun, (fieldWidth_eq h (by omega)).symm, by rw [h]; decide, by rw [h]; decide⟩
  · exact ⟨.kHalfWord, by rw [h]; rfl, nofun, (fieldWidth_eq h (by omega)).symm, by rw [h]; decide, by rw [h]; decide⟩
  · exact ⟨.kWord, by rw [h]; rfl, nofun, (fieldWidth_eq h (by omega)).symm, by rw [h]; decide, by rw [h]; decide⟩
  · exact ⟨.kDoubleWord, by rw [h]; rfl, nofun, (fieldWidth_eq h (by omega)).symm, by rw [h]; decide,
      by rw [h]; decide⟩

variable {l : Load} {readVirtualAddress : BitVec 64 → Nat → bits} {addr : BitVec 64}

/-- What a load of the accessed bytes leaves in its registers is what the architecture says. -/
def LoadsAsArm (op : BitVec 32) (l : Load) (readVirtualAddress : BitVec 64 → Nat → bits) (addr : BitVec 64)
    (memory : bits) : Prop :=
  ∃ writes, armLoads op memory = some writes ∧
    l.writes readVirtualAddress addr (accessed (8 * l.theSize.bytes) memory) = .ok writes

theorem loadsAsArm_single {sz : eSize} {c : eSignCode} {rd : BitVec 32} {is64 : Bool} {r x : BitVec 64}
    (hload : LoadAction.doLoad sz c (accessed (8 * sz.bytes) memory) = .ok r)
    (harm : armLoads op memory = some [(rd, x)]) :
    LoadsAsArm op ⟨sz, .loadAction sz c, [⟨rd, .kResult, is64⟩]⟩ readVirtualAddress addr memory ↔
      Destination.written ⟨rd, .kResult, is64⟩ r = x := by
  have hwrites : Load.writes ⟨sz, .loadAction sz c, [⟨rd, .kResult, is64⟩]⟩ readVirtualAddress addr
      (accessed (8 * sz.bytes) memory) = .ok [(rd, Destination.written ⟨rd, .kResult, is64⟩ r)] := by
    simp only [Load.writes, hload]
    rfl
  rw [LoadsAsArm, harm, hwrites]
  simp [eq_comm]

theorem kZeroExtend_ne : eSignCode.kZeroExtend ≠ .kSignExtend := nofun

theorem kNoExtension_ne : eSignCode.kNoExtension ≠ .kSignExtend := nofun

theorem bytes_le_of_ne {sz : eSize} (hquad : sz ≠ .kQuadWord) (hdouble : sz ≠ .kDoubleWord) : 8 * sz.bytes ≤ 32 := by
  cases sz with
  | kByte | kHalfWord | kWord => decide
  | kDoubleWord => exact absurd rfl hdouble
  | kQuadWord => exact absurd rfl hquad

theorem bytes_le {sz : eSize} (hquad : sz ≠ .kQuadWord) : 8 * sz.bytes ≤ 64 := by
  cases sz with
  | kByte | kHalfWord | kWord | kDoubleWord => decide
  | kQuadWord => exact absurd rfl hquad

theorem loadsAsArm_unsigned {sz : eSize} {c : eSignCode} {rd : BitVec 32} {is64 : Bool} (hquad : sz ≠ .kQuadWord)
    (hc : c ≠ .kSignExtend) (regWidth : Nat) (hd : is64 = true ∨ 8 * sz.bytes ≤ 32)
    (harm : armLoads op memory = some [(rd, armLoaded (8 * sz.bytes) false regWidth memory)]) :
    LoadsAsArm op ⟨sz, .loadAction sz c, [⟨rd, .kResult, is64⟩]⟩ readVirtualAddress addr memory := by
  rw [loadsAsArm_single (LoadAction.doLoad_unsigned hquad hc regWidth) harm]
  exact written_unsigned _ regWidth (bytes_le hquad) hd

/-- A double word is cut to 32 bits. -/
theorem LDAQ_iff (hop : disas_ldst op = .LDAQ) (hbuilt : LDAQ op = .ok (some l)) :
    LoadsAsArm op l readVirtualAddress addr memory ↔ ExtendsAsArm op memory := by
  obtain ⟨sz, hsize, hquad, hwidth, hdouble, -⟩ := dbSize_shiftLeft op
  have hregsize : (8#32 <<< extract32 op 30 2 = 0x3#32) = False := by
    obtain h | h | h | h := two_bits op 30 <;> rw [h] <;> decide
  simp only [LDAQ, hsize, hregsize] at hbuilt
  obtain rfl := Option.some.inj (Except.ok.inj hbuilt)
  have harm : armLoads op memory = some [(extract32 op 0 5, armLoaded (8 * sz.bytes) false 64 memory)] := by
    rw [armLoads, hop, hwidth]
  have hthree : (extract32 op 30 2).toNat = 3 ↔ sz = .kDoubleWord := by
    rw [hdouble, ← BitVec.toNat_inj]
    rfl
  rw [ExtendsAsArm, hop]
  dsimp only
  rw [hthree]
  by_cases hd : sz = .kDoubleWord
  · subst hd
    rw [forall_prop_of_true rfl, loadsAsArm_single (LoadAction.doLoad_unsigned hquad kZeroExtend_ne 64) harm]
    exact written_cut_iff rfl 64
  · rw [forall_prop_of_false hd, iff_true]
    exact loadsAsArm_unsigned hquad kZeroExtend_ne 64 (.inr (bytes_le_of_ne hquad hd)) harm

theorem LDXR_iff (hop : disas_ldst op = .LDXR) (hbuilt : LDXR op = .ok (some l)) :
    LoadsAsArm op l readVirtualAddress addr memory ↔ ExtendsAsArm op memory := by
  obtain ⟨sz, hsize, hquad, hwidth, hdouble, hregsize⟩ := dbSize_shiftLeft op
  simp only [LDXR, hsize, disas_LDXR hop, Bool.false_eq_true, not_false_eq_true, if_true] at hbuilt
  obtain rfl := Option.some.inj (Except.ok.inj hbuilt)
  rw [ExtendsAsArm, hop]
  dsimp only
  rw [iff_true]
  apply loadsAsArm_unsigned hquad kZeroExtend_ne 64
  · by_cases hd : sz = .kDoubleWord
    · exact .inl (decide_eq_true (hregsize.mpr (hdouble.mp hd)))
    · exact .inr (bytes_le_of_ne hquad hd)
  · rw [armLoads, hop, hwidth]

/-- A signed word is cut to 32 bits. -/
theorem LDR_lit_iff (hop : disas_ldst op = .LDR_lit) (hbuilt : LDR_lit op = .ok (some l)) :
    LoadsAsArm op l readVirtualAddress addr memory ↔ ExtendsAsArm op memory := by
  rw [ExtendsAsArm, hop]
  rw [LDR_lit] at hbuilt
  obtain h | h | h | h := two_bits op 30
  · rw [h] at hbuilt ⊢
    obtain rfl := Option.some.inj (Except.ok.inj hbuilt)
    refine iff_of_true (loadsAsArm_unsigned (by decide) kNoExtension_ne 32 (.inr (by decide)) ?_) nofun
    rw [armLoads, hop, h]
    rfl
  · rw [h] at hbuilt ⊢
    obtain rfl := Option.some.inj (Except.ok.inj hbuilt)
    refine iff_of_true (loadsAsArm_unsigned (by decide) kNoExtension_ne 64 (.inl rfl) ?_) nofun
    rw [armLoads, hop, h]
    rfl
  · rw [h] at hbuilt ⊢
    obtain rfl := Option.some.inj (Except.ok.inj hbuilt)
    have harm : armLoads op memory = some [(extract32 op 0 5, armLoaded 32 true 64 memory)] := by
      rw [armLoads, hop, h]
      rfl
    refine (loadsAsArm_single (LoadAction.doLoad_signed (.inr (.inr rfl))) harm).trans ?_
    change _ ↔ (2 = 2 → memory.getLsbD 31 = false)
    rw [forall_prop_of_true rfl]
    refine written_word_iff rfl fun hsign i hi => ?_
    rw [getLsbD_signedLoad (by decide) (by omega)]
    change (decide (i < 32) && _ || (memory.getLsbD 31 && _)) = _
    rw [hsign, decide_eq_true hi, Bool.true_and, Bool.false_and, Bool.or_false]
  · rw [h] at hbuilt
    cases hbuilt

/-! ## Pairs -/

theorem splitBits_accessed {n : Nat} (hn : n ≤ 64) :
    splitBits (accessed (2 * n) memory) (2 * n) =
      (armLoaded n false n (memory >>> n), armLoaded n false n memory) := by
  have hhalf : 2 * n / 2 = n := by omega
  rw [splitBits, hhalf]
  refine Prod.ext (BitVec.eq_of_getLsbD_eq fun i hi => ?_) (BitVec.eq_of_getLsbD_eq fun i hi => ?_)
  · rw [getLsbD_armLoaded_unsigned hn, BitVec.getLsbD_setWidth, decide_eq_true hi, Bool.true_and,
      BitVec.getLsbD_ushiftRight, BitVec.getLsbD_and, getLsbD_accessed (by omega), BitVec.getLsbD_shiftLeft,
      BitVec.getLsbD_allOnes, BitVec.getLsbD_ushiftRight]
    by_cases hin : i < n
    · rw [decide_eq_true (by omega : n + i < 128), decide_eq_false (by omega : ¬n + i < n),
        decide_eq_true (by omega : n + i - n < 128), decide_eq_true (by omega : n + i < 2 * n), decide_eq_true hin]
      rfl
    · rw [decide_eq_false (by omega : ¬n + i < 2 * n), decide_eq_false hin, Bool.false_and, Bool.and_false]
  · rw [getLsbD_armLoaded_unsigned hn, BitVec.getLsbD_setWidth, decide_eq_true hi, Bool.true_and, BitVec.getLsbD_and,
      getLsbD_accessed (by omega), BitVec.getLsbD_not, BitVec.getLsbD_shiftLeft, BitVec.getLsbD_allOnes]
    by_cases hin : i < n
    · rw [decide_eq_true (by omega : i < 128), decide_eq_true hin, decide_eq_true (by omega : i < 2 * n)]
      rfl
    · rw [decide_eq_true (by omega : i < 128), decide_eq_false hin, decide_eq_true (by omega : i - n < 128)]
      rfl

/-- An access across pages reads the same again. -/
theorem LDPAction.doLoad_eq {sz : eSize} {n : Nat} (hn : n ≤ 64) (hsz : 8 * sz.bytes = 2 * n)
    (hwide : sz = .kDoubleWord ∨ sz = .kQuadWord)
    (hread : readVirtualAddress addr sz.bytes = accessed (8 * sz.bytes) memory) :
    LDPAction.doLoad readVirtualAddress sz addr (accessed (8 * sz.bytes) memory) =
      (armLoaded n false n memory, armLoaded n false n (memory >>> n)) := by
  have hsplit := @splitBits_accessed memory n hn
  have hagain : ∀ P : Prop, ∀ [Decidable P], (if P ∧ accessed (8 * sz.bytes) memory ≠ readVirtualAddress addr sz.bytes
      then readVirtualAddress addr sz.bytes else accessed (8 * sz.bytes) memory) = accessed (8 * sz.bytes) memory := by
    intro P _
    rw [hread, ite_self]
  rw [← hsz] at hsplit
  obtain rfl | rfl := hwide
  all_goals
    simp only [LDPAction.doLoad]
    erw [hagain, hsplit]

theorem loadsAsArm_pair {sz : eSize} {c : eSignCode} {rd rd1 : BitVec 32} {is64 : Bool} {x y : BitVec 64} {n : Nat}
    (hn : n ≤ 64) (hsz : 8 * sz.bytes = 2 * n) (hwide : sz = .kDoubleWord ∨ sz = .kQuadWord)
    (hread : readVirtualAddress addr sz.bytes = accessed (8 * sz.bytes) memory)
    (harm : armLoads op memory = some [(rd, x), (rd1, y)]) :
    LoadsAsArm op ⟨sz, .ldpAction sz c, addPairDestination rd rd1 is64⟩ readVirtualAddress addr memory ↔
      Destination.written ⟨rd, .kResult, is64⟩ (armLoaded n false n memory) = x ∧
        Destination.written ⟨rd1, .kResult1, is64⟩ (armLoaded n false n (memory >>> n)) = y := by
  have hwrites : Load.writes ⟨sz, .ldpAction sz c, addPairDestination rd rd1 is64⟩ readVirtualAddress addr
      (accessed (8 * sz.bytes) memory) =
        .ok [(rd, Destination.written ⟨rd, .kResult, is64⟩ (armLoaded n false n memory)),
          (rd1, Destination.written ⟨rd1, .kResult1, is64⟩ (armLoaded n false n (memory >>> n)))] := by
    simp only [Load.writes, LDPAction.doLoad_eq hn hsz hwide hread]
    rfl
  rw [LoadsAsArm, harm, hwrites]
  simp [eq_comm]

theorem LDP_built (hbuilt : LDP op = .ok (some l)) :
    let size := 8#32 <<< (2 + extract32 (extract32 op 30 2) 1 1 + 1)
    extract32 op 30 2 ≠ 3#32 ∧ ∃ sz c, dbSize size = .ok sz ∧
      l = ⟨sz, .ldpAction sz c, addPairDestination (extract32 op 0 5) (extract32 op 10 5) (size / 2 = 64#32)⟩ := by
  intro size
  rw [LDP] at hbuilt
  change (dbSize size >>= _) = _ at hbuilt
  cases hsize : dbSize size with
  | error f =>
    rw [hsize] at hbuilt
    cases hbuilt
  | ok sz =>
    rw [hsize] at hbuilt
    change (if _ then _ else _) = _ at hbuilt
    split at hbuilt
    · cases hbuilt
    · next hbuild =>
      obtain rfl := Option.some.inj (Except.ok.inj hbuilt)
      exact ⟨fun hopc => hbuild (.inr (.inl hopc)), sz, _, rfl, rfl⟩

/-- The action of a pair has no sign extension. -/
theorem LDP_iff (hop : disas_ldst op = .LDP) (hbuilt : LDP op = .ok (some l))
    (hread : readVirtualAddress addr l.theSize.bytes = accessed (8 * l.theSize.bytes) memory) :
    LoadsAsArm op l readVirtualAddress addr memory ↔ ExtendsAsArm op memory := by
  obtain ⟨hopc, sz, c, hsize, rfl⟩ := LDP_built hbuilt
  rw [ExtendsAsArm, hop]
  obtain h | h | h | h := two_bits op 30
  · rw [h] at hsize ⊢
    obtain rfl : eSize.kDoubleWord = sz := Except.ok.inj hsize
    have harm : armLoads op memory = some [(extract32 op 0 5, armLoaded 32 false 32 memory),
        (extract32 op 10 5, armLoaded 32 false 32 (memory >>> 32))] := by
      rw [armLoads, hop, h]
      rfl
    refine iff_of_true ((loadsAsArm_pair (n := 32) (by omega) rfl (.inl rfl) hread harm).mpr ⟨?_, ?_⟩) nofun
    · exact written_unsigned _ 32 (by omega) (.inr (by omega))
    · exact written_unsigned _ 32 (by omega) (.inr (by omega))
  · rw [h] at hsize ⊢
    obtain rfl : eSize.kDoubleWord = sz := Except.ok.inj hsize
    have harm : armLoads op memory = some [(extract32 op 0 5, armLoaded 32 true 64 memory),
        (extract32 op 10 5, armLoaded 32 true 64 (memory >>> 32))] := by
      rw [armLoads, hop, h]
      rfl
    have hlow : ∀ value : bits, value.getLsbD 31 = false → ∀ i < 32,
        (armLoaded 32 false 32 value).getLsbD i = value.getLsbD i := by
      intro value _ i hi
      rw [getLsbD_armLoaded_unsigned (by omega), decide_eq_true hi, Bool.true_and]
    have hupper : (memory >>> 32).getLsbD 31 = memory.getLsbD 63 := by
      rw [BitVec.getLsbD_ushiftRight]
    change _ ↔ (1 = 1 → memory.getLsbD 31 = false ∧ memory.getLsbD 63 = false)
    rw [loadsAsArm_pair (n := 32) (by omega) rfl (.inl rfl) hread harm, written_word_iff rfl (hlow memory),
      written_word_iff rfl (hlow (memory >>> 32)), hupper, forall_prop_of_true rfl]
  · rw [h] at hsize ⊢
    obtain rfl : eSize.kQuadWord = sz := Except.ok.inj hsize
    have harm : armLoads op memory = some [(extract32 op 0 5, armLoaded 64 false 64 memory),
        (extract32 op 10 5, armLoaded 64 false 64 (memory >>> 64))] := by
      rw [armLoads, hop, h]
      rfl
    refine iff_of_true ((loadsAsArm_pair (n := 64) (by omega) rfl (.inr rfl) hread harm).mpr ⟨?_, ?_⟩) nofun
    · exact written_unsigned _ 64 (by omega) (.inl rfl)
    · exact written_unsigned _ 64 (by omega) (.inl rfl)
  · exact absurd h hopc

/-! ## Registers -/

/-- What `LDR` builds, by the second field of the encoding. -/
theorem LDR_built (hbuilt : LDR op = .ok (some l)) : ∃ sz c is64, sz ≠ .kQuadWord ∧ 8 * sz.bytes = fieldWidth op ∧
    (sz = .kDoubleWord ↔ extract32 op 30 2 = 3#32) ∧
    l = ⟨sz, .loadAction sz c, [⟨extract32 op 0 5, .kResult, is64⟩]⟩ ∧
    (extract32 op 22 2 = 1#32 → c = .kZeroExtend ∧ (is64 = true ∨ sz ≠ .kDoubleWord)) ∧
    (extract32 op 22 2 = 2#32 → c = .kSignExtend ∧ (sz ≠ .kDoubleWord → is64 = true)) ∧
    (extract32 op 22 2 = 3#32 → c = .kSignExtend ∧ is64 = false) := by
  obtain ⟨sz, hsize, hquad, hwidth, hdouble, -⟩ := dbSize_shiftLeft op
  rw [LDR, hsize] at hbuilt
  obtain rfl := Option.some.inj (Except.ok.inj hbuilt)
  refine ⟨sz, _, _, hquad, hwidth, hdouble, rfl, fun hopc => ?_, fun hopc => ?_, fun hopc => ?_⟩
  all_goals rw [hopc]
  · refine ⟨rfl, ?_⟩
    by_cases hd : sz = .kDoubleWord
    · rw [hdouble.mp hd]
      exact .inl rfl
    · exact .inr hd
  · refine ⟨rfl, fun hd => ?_⟩
    rw [if_neg (by decide), if_pos (fun h => hd (hdouble.mpr h)), if_neg (by decide)]
    rfl
  · refine ⟨rfl, ?_⟩
    rw [if_neg (by decide)]
    split <;> rfl

theorem signed_sizes {sz : eSize} (hquad : sz ≠ .kQuadWord) (hdouble : sz ≠ .kDoubleWord) :
    sz = .kByte ∨ sz = .kHalfWord ∨ sz = .kWord := by
  cases sz with
  | kByte => exact .inl rfl
  | kHalfWord => exact .inr (.inl rfl)
  | kWord => exact .inr (.inr rfl)
  | kDoubleWord => exact absurd rfl hdouble
  | kQuadWord => exact absurd rfl hquad

theorem bytes_ge (sz : eSize) : 8 ≤ 8 * sz.bytes := by
  cases sz <;> decide

/-- The mask of a negative value sets the bits above its lowest byte; and the memory operations have
    the field that says to extend with the sign. -/
theorem LDR_iff (hop : disas_ldst op = .LDR) (hbuilt : LDR op = .ok (some l)) :
    LoadsAsArm op l readVirtualAddress addr memory ↔ ExtendsAsArm op memory := by
  obtain ⟨hload, hnarrow, hmemory⟩ := disas_LDR hop
  obtain ⟨sz, c, is64, hquad, hwidth, hdouble, rfl, hone, htwo, hthree⟩ := LDR_built hbuilt
  have hthird : (extract32 op 30 2).toNat = 3 ↔ sz = .kDoubleWord := by
    rw [hdouble, ← BitVec.toNat_inj]
    rfl
  rw [ExtendsAsArm, hop]
  dsimp only
  rw [← hwidth]
  obtain h | h | h | h := two_bits op 22
  · exact absurd h hload
  · obtain ⟨rfl, hd⟩ := hone h
    rw [h]
    refine iff_of_true (loadsAsArm_unsigned hquad kZeroExtend_ne 64 ?_ ?_) (.inl rfl)
    · exact hd.imp_right (bytes_le_of_ne hquad)
    · rw [armLoads, hop, h, ← hwidth]
      exact if_pos (.inr rfl)
  · obtain ⟨rfl, hd⟩ := htwo h
    rw [h, or_iff_right (by decide), ne_eq, hthird]
    by_cases hmem : IsMemoryOperation op
    · have hne : sz ≠ .kDoubleWord := fun hsz => hmemory hmem ⟨hdouble.mp hsz, h⟩
      have harm : armLoads op memory = some [(extract32 op 0 5, armLoaded (8 * sz.bytes) false 64 memory)] := by
        rw [armLoads, hop, ← hwidth]
        exact if_pos (.inl hmem)
      rw [if_pos hmem, loadsAsArm_single (LoadAction.doLoad_signed (signed_sizes hquad hne)) harm]
      exact written_signed_unsigned_iff 64 ⟨bytes_ge sz, bytes_le_of_ne hquad hne⟩ (.inl (hd hne))
    · have hregular : ¬(IsMemoryOperation op ∨ (2#32).toNat = 1) := fun h => h.elim hmem (by decide)
      rw [if_neg hmem]
      by_cases hsz : sz = .kDoubleWord
      · have harm : armLoads op memory = none := by
          rw [armLoads, hop, h]
          dsimp only
          rw [if_neg hregular, if_pos (by decide : (2#32).toNat = 2), if_pos (hthird.mpr hsz)]
        refine iff_of_false ?_ fun h => h.1 hsz
        rintro ⟨writes, hsome, -⟩
        rw [harm] at hsome
        cases hsome
      · have harm : armLoads op memory = some [(extract32 op 0 5, armLoaded (8 * sz.bytes) true 64 memory)] := by
          rw [armLoads, hop, h, ← hwidth]
          dsimp only
          rw [if_neg hregular, if_pos (by decide : (2#32).toNat = 2), if_neg fun h => hsz (hthird.mp h)]
        rw [loadsAsArm_single (LoadAction.doLoad_signed (signed_sizes hquad hsz)) harm, and_iff_right hsz]
        have hword := bytes_le_of_ne hquad hsz
        refine written_signed_iff ⟨bytes_ge sz, hword⟩ (by omega) ?_
        rw [hd hsz, if_pos rfl]
  · obtain ⟨rfl, rfl⟩ := hthree h
    have hsmall : 8 * sz.bytes ≤ 16 := by
      have hle : (extract32 op 30 2).toNat ≤ 1 := Nat.le_of_not_lt (hnarrow h)
      have hpow := Nat.pow_le_pow_right (by omega : 0 < 2) hle
      rw [hwidth, fieldWidth]
      omega
    have hne : sz ≠ .kDoubleWord := by
      rintro rfl
      exact absurd hsmall (by decide)
    rw [h, or_iff_right (by decide), ne_eq, hthird]
    by_cases hmem : IsMemoryOperation op
    · have harm : armLoads op memory = some [(extract32 op 0 5, armLoaded (8 * sz.bytes) false 64 memory)] := by
        rw [armLoads, hop, ← hwidth]
        exact if_pos (.inl hmem)
      rw [if_pos hmem, loadsAsArm_single (LoadAction.doLoad_signed (signed_sizes hquad hne)) harm]
      exact written_signed_unsigned_iff 64 ⟨bytes_ge sz, by omega⟩ (.inr (by omega))
    · have hregular : ¬(IsMemoryOperation op ∨ (3#32).toNat = 1) := fun h => h.elim hmem (by decide)
      have harm : armLoads op memory = some [(extract32 op 0 5, armLoaded (8 * sz.bytes) true 32 memory)] := by
        rw [armLoads, hop, h, ← hwidth]
        dsimp only
        rw [if_neg hregular, if_neg (by decide)]
      rw [if_neg hmem, loadsAsArm_single (LoadAction.doLoad_signed (signed_sizes hquad hne)) harm, and_iff_right hne]
      refine written_signed_iff ⟨bytes_ge sz, by omega⟩ (by omega) ?_
      rw [if_neg Bool.false_ne_true]

end narmDecoder
