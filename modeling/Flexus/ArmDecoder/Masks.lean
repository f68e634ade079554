import Flexus.Lib.ElementMasks
import Flexus.ArmDecoder.DataProcImm

/-!
# The masks of bit fields and logical immediates

`logic_imm_decode_wmask` against the architecture's decoding of the fields `N`, `imms` and
`immr`: the same immediates are reserved, and the two masks have the same bits.
-/

namespace narmDecoder

open ElementMasks

/-- The bits of the two masks that `N`, `imms` and `immr` stand for, or none where they are
    reserved. The element size is the highest power of two below `N:NOT(imms)`. -/
def decodeBitMasks (immN imms immr : Nat) (immediate : Bool) : Option ((Nat → Bool) × (Nat → Bool)) :=
  let select := immN * 64 + (63 - imms)
  if select < 2 then none
  else
    let esize := 2 ^ Nat.log2 select
    let S := imms % esize
    let R := immr % esize
    let d := (S + esize - R) % esize
    if immediate ∧ S = esize - 1 then none
    else some (fun i => decide ((i + R) % esize ≤ S), fun i => decide (i % esize ≤ d))

/-! ## The element size -/

theorem toNat_select {immn imms : BitVec 32} (hn : immn < 2#32) (hs : imms < 64#32) :
    ((immn <<< 6) ||| (~~~imms &&& 0x3f#32)).toNat = immn.toNat * 64 + (63 - imms.toNat) := by
  have hall : ∀ (a : BitVec 1) (b : BitVec 6),
      ((a.setWidth 32 <<< 6) ||| (~~~(b.setWidth 32) &&& 0x3f#32)).toNat =
        (a.setWidth 32).toNat * 64 + (63 - (b.setWidth 32).toNat) := by decide +kernel
  have hn' : (immn.setWidth 1).setWidth 32 = immn := by
    apply BitVec.eq_of_toNat_eq
    rw [BitVec.lt_def, BitVec.toNat_ofNat] at hn
    rw [BitVec.toNat_setWidth, BitVec.toNat_setWidth]
    omega
  have hs' : (imms.setWidth 6).setWidth 32 = imms := by
    apply BitVec.eq_of_toNat_eq
    rw [BitVec.lt_def, BitVec.toNat_ofNat] at hs
    rw [BitVec.toNat_setWidth, BitVec.toNat_setWidth]
    omega
  have h := hall (immn.setWidth 1) (imms.setWidth 6)
  rwa [hn', hs'] at h

/-- The place of the highest bit that is set. -/
theorem sub_clz32 {x : BitVec 32} (hx : x.toNat < 128) :
    ((31 : Nat) : Int) - (clz32 x : Int) = if x.toNat = 0 then -1 else (Nat.log2 x.toNat : Int) := by
  have hall : ∀ v : BitVec 7, ((31 : Nat) : Int) - (clz32 (v.setWidth 32) : Int) =
      if (v.setWidth 32).toNat = 0 then -1 else (Nat.log2 (v.setWidth 32).toNat : Int) := by decide +kernel
  have hx' : (x.setWidth 7).setWidth 32 = x := by
    apply BitVec.eq_of_toNat_eq
    rw [BitVec.toNat_setWidth, BitVec.toNat_setWidth]
    omega
  have h := hall (x.setWidth 7)
  rwa [hx'] at h

/-! ## Replication -/

theorem getLsbD_replicateFrom {k : Nat} (hk : k ≤ 6) {mask : BitVec 64} {p : Nat → Bool}
    (hp : ∀ i, p (i + 2 ^ k) = p i) (hm : ∀ i < 64, mask.getLsbD i = (decide (i < 2 ^ k) && p i)) :
    ∀ i < 64, (replicateFrom mask (2 ^ k)).getLsbD i = p i := by
  -- The element size doubles up to the width of the word.
  obtain ⟨n, rfl⟩ : ∃ n, k = 6 - n := ⟨6 - k, by omega⟩
  induction n generalizing mask p with
  | zero =>
    intro i hi
    have hlow : i < 2 ^ (6 - 0) := hi
    rw [replicateFrom, if_neg (by decide), hm i hi, decide_eq_true hlow, Bool.true_and]
  | succ n ih =>
    by_cases hn : n < 6
    · have hstep : 2 ^ (6 - n) = 2 ^ (6 - (n + 1)) * 2 := by
        rw [← pow_succ]
        congr 1
        omega
      have hlt : 2 ^ (6 - (n + 1)) < 64 := by
        have hmono : 2 ^ (6 - (n + 1)) ≤ 2 ^ 5 := Nat.pow_le_pow_right (by omega) (by omega)
        omega
      intro i hi
      rw [replicateFrom, if_pos ⟨Nat.two_pow_pos _, hlt⟩, ← hstep]
      apply ih (by omega) _ _ i hi
      · intro j
        rw [hstep, Nat.mul_two, ← Nat.add_assoc, hp, hp]
      · intro j hj
        rw [hstep]
        exact getLsbD_double hp hm hj
    · have hsame : 6 - (n + 1) = 6 - n := by omega
      rw [hsame] at hp hm ⊢
      exact ih (by omega) hp hm

/-! ## The masks -/

theorem bitmask64_ok {n : Nat} (h : 0 < n ∧ n ≤ 64) : bitmask64 n = .ok (BitVec.allOnes 64 >>> (64 - n)) := by
  rw [bitmask64, assert, if_pos h]
  rfl

theorem bitfield_replicate_ok {mask : BitVec 64} {e : Nat} (h : e ≠ 0) :
    bitfield_replicate mask e = .ok (replicateFrom mask e) := by
  rw [bitfield_replicate, assert, if_pos h]
  rfl

theorem toNat_and_levels (v : BitVec 32) {l : Nat} (hl : l ≤ 6) :
    (v &&& BitVec.ofNat 32 (1 <<< l - 1)).toNat = v.toNat % 2 ^ l := by
  have hlt : 2 ^ l ≤ 2 ^ 6 := Nat.pow_le_pow_right (by omega) hl
  rw [BitVec.toNat_and, BitVec.toNat_ofNat, Nat.one_shiftLeft, Nat.mod_eq_of_lt (a := 2 ^ l - 1) (by omega),
    Nat.and_two_pow_sub_one_eq_mod]

/-- The rotated run of ones, within an element. -/
def rotated (e r : Nat) (mask : BitVec 64) : BitVec 64 :=
  if r = 0 then mask else ((mask >>> r) ||| (mask <<< (e - r))) &&& (BitVec.allOnes 64 >>> (64 - e))

theorem getLsbD_rotated {e r s : Nat} (hr : r < e) (hs : s < e) (he : e ≤ 64) (i : Nat) :
    (rotated e r (BitVec.allOnes 64 >>> (64 - (s + 1)))).getLsbD i = (decide (i < e) && decide ((i + r) % e ≤ s)) := by
  have hrun : ∀ j, (BitVec.allOnes 64 >>> (64 - (s + 1))).getLsbD j = decide (j ≤ s) := by
    intro j
    rw [getLsbD_allOnes_ushiftRight (by omega), decide_eq_decide]
    omega
  by_cases hzero : r = 0
  · subst hzero
    rw [rotated, if_pos rfl, hrun, Nat.add_zero]
    by_cases hi : i < e
    · rw [decide_eq_true hi, Bool.true_and, Nat.mod_eq_of_lt hi]
    · have hnot : ¬i ≤ s := by omega
      rw [decide_eq_false hi, decide_eq_false hnot, Bool.false_and]
  · rw [rotated, if_neg hzero, getLsbD_rotate (by omega) hr hs he hrun]

/-- The steps of the decoding, once the element size is known. -/
theorem decode_of_size {l : Nat} (hl : 1 ≤ l ∧ l ≤ 6) (imms immr : BitVec 32) :
    let levels := BitVec.ofNat 32 (1 <<< l - 1)
    let s := imms &&& levels
    let r := immr &&& levels
    let d := (s - r) &&& levels
    let S := imms.toNat % 2 ^ l
    let R := immr.toNat % 2 ^ l
    s.toNat = S ∧ r.toNat = R ∧ d.toNat = (S + 2 ^ l - R) % 2 ^ l ∧ (s = levels ↔ S = 2 ^ l - 1) ∧ (r = 0#32 ↔ R = 0) := by
  intro levels s r d S R
  have hs : s.toNat = S := toNat_and_levels imms hl.2
  have hr : r.toNat = R := toNat_and_levels immr hl.2
  have hlt : 2 ^ l ≤ 2 ^ 6 := Nat.pow_le_pow_right (by omega) hl.2
  have hS : S < 2 ^ l := Nat.mod_lt _ (Nat.two_pow_pos l)
  have hR : R < 2 ^ l := Nat.mod_lt _ (Nat.two_pow_pos l)
  have hlevels : levels.toNat = 2 ^ l - 1 := by
    rw [BitVec.toNat_ofNat, Nat.one_shiftLeft]
    exact Nat.mod_eq_of_lt (by omega)
  refine ⟨hs, hr, ?_, ?_, ?_⟩
  · have hd : d.toNat = (s - r).toNat % 2 ^ l := toNat_and_levels (s - r) hl.2
    have hdvd : 2 ^ l ∣ 2 ^ 32 := Nat.pow_dvd_pow 2 (by omega)
    obtain ⟨q, hq⟩ := hdvd
    rw [hd, BitVec.toNat_sub, hs, hr, Nat.mod_mod_of_dvd _ ⟨q, hq⟩]
    -- Both differ from `S - R` by a multiple of the element size.
    have hq1 : 1 ≤ q := by
      by_contra hcontra
      have hzero : q = 0 := by omega
      rw [hzero, Nat.mul_zero] at hq
      exact absurd hq (by decide)
    have hshift : 2 ^ 32 - R + S = S + 2 ^ l - R + 2 ^ l * (q - 1) := by
      have hmul : 2 ^ l * q = 2 ^ l * (q - 1) + 2 ^ l := by
        rw [← Nat.mul_succ]
        congr 1
        omega
      omega
    rw [hshift, Nat.add_mul_mod_self_left]
  · rw [← BitVec.toNat_inj, hs, hlevels]
  · rw [← BitVec.toNat_inj, hr]
    exact Iff.rfl

theorem log2_bounds {n : Nat} (h : 2 ≤ n) (hn : n < 128) : 1 ≤ Nat.log2 n ∧ Nat.log2 n ≤ 6 := by
  have hne : n ≠ 0 := by omega
  have hlow : Nat.log2 n < 7 := (Nat.log2_lt hne).mpr hn
  refine ⟨(Nat.le_log2 hne).mpr h, by omega⟩

/-- The masks of the code are those of the architecture, and the same immediates are reserved. -/
theorem logic_imm_decode_wmask_spec {immn imms immr : BitVec 32} (hn : immn < 2#32) (hs : imms < 64#32)
    (hr : immr < 64#32) (immediate : Bool) :
    match decodeBitMasks immn.toNat imms.toNat immr.toNat immediate with
    | none => logic_imm_decode_wmask immn imms immr immediate = .ok none
    | some (w, t) => ∃ wmask tmask, logic_imm_decode_wmask immn imms immr immediate = .ok (some (wmask, tmask)) ∧
        (∀ i < 64, wmask.getLsbD i = w i) ∧ ∀ i < 64, tmask.getLsbD i = t i := by
  have hselect := toNat_select hn hs
  have hbound : immn.toNat * 64 + (63 - imms.toNat) < 128 := by
    have hn' : immn.toNat < 2 := hn
    omega
  have hclz := sub_clz32 (lt_of_eq_of_lt hselect hbound)
  rw [hselect] at hclz
  have hfields : immn < 2#32 ∧ imms < 64#32 ∧ immr < 64#32 := ⟨hn, hs, hr⟩
  unfold logic_imm_decode_wmask decodeBitMasks
  rw [hclz]
  generalize immn.toNat * 64 + (63 - imms.toNat) = select at hbound
  simp only [assert, if_pos hfields, bind, Except.bind, pure, Except.pure]
  by_cases hsmall : select < 2
  · have hlen : (if select = 0 then (-1 : Int) else (Nat.log2 select : Int)) < 1 := by
      interval_cases select <;> decide
    rw [if_pos hsmall]
    dsimp only
    rw [if_pos hlen]
  · have hlog := log2_bounds (by omega) hbound
    have hlen : (if select = 0 then (-1 : Int) else (Nat.log2 select : Int)) = (Nat.log2 select : Int) := if_neg (by omega)
    have hge : ¬((Nat.log2 select : Int) < 1) := by omega
    rw [hlen, if_neg hsmall, if_neg hge, Int.toNat_natCast]
    generalize Nat.log2 select = l at hlog
    have hsteps := decode_of_size hlog imms immr
    have hpow : 2 ^ l ≤ 2 ^ 6 := Nat.pow_le_pow_right (by omega) hlog.2
    have hSlt : imms.toNat % 2 ^ l < 2 ^ l := Nat.mod_lt _ (Nat.two_pow_pos l)
    have hRlt : immr.toNat % 2 ^ l < 2 ^ l := Nat.mod_lt _ (Nat.two_pow_pos l)
    have hdlt : (imms.toNat % 2 ^ l + 2 ^ l - immr.toNat % 2 ^ l) % 2 ^ l < 2 ^ l := Nat.mod_lt _ (Nat.two_pow_pos l)
    dsimp only at hsteps ⊢
    generalize BitVec.ofNat 32 (1 <<< l - 1) = levels at hsteps ⊢
    obtain ⟨hS, hR, hd, hlast, hzero⟩ := hsteps
    generalize imms.toNat % 2 ^ l = S at *
    generalize immr.toNat % 2 ^ l = R at *
    generalize (S + 2 ^ l - R) % 2 ^ l = d at *
    rw [hS, hR, hd, Nat.one_shiftLeft, bitmask64_ok (by omega), bitmask64_ok (by omega), bitmask64_ok (by omega)]
    by_cases hres : immediate = true ∧ S = 2 ^ l - 1
    · rw [if_pos hres, if_pos ⟨hres.1, hlast.mpr hres.2⟩]
    · rw [if_neg hres, if_neg (fun h => hres ⟨h.1, hlast.mp h.2⟩)]
      have hne : 2 ^ l ≠ 0 := by positivity
      have hrot : ∀ m : BitVec 64, rotated (2 ^ l) R m = if immr &&& levels ≠ 0#32 then
          (m >>> R ||| m <<< (2 ^ l - R)) &&& BitVec.allOnes 64 >>> (64 - 2 ^ l) else m := by
        intro m
        by_cases hR0 : R = 0
        · rw [rotated, if_pos hR0, if_neg (not_not.mpr (hzero.mpr hR0))]
        · rw [rotated, if_neg hR0, if_pos (fun h => hR0 (hzero.mp h))]
      refine ⟨replicateFrom (rotated (2 ^ l) R (BitVec.allOnes 64 >>> (64 - (S + 1)))) (2 ^ l),
        replicateFrom (BitVec.allOnes 64 >>> (64 - (d + 1))) (2 ^ l), ?_, ?_, ?_⟩
      · rw [hrot]
        simp only [bitfield_replicate_ok hne]
        split <;> rfl
      · apply getLsbD_replicateFrom hlog.2
        · intro i
          rw [Nat.add_right_comm, Nat.add_mod_right]
        · intro i _
          exact getLsbD_rotated hRlt hSlt hpow i
      · apply getLsbD_replicateFrom hlog.2
        · exact periodic_mod (2 ^ l) fun j => decide (j ≤ d)
        · intro i _
          rw [getLsbD_allOnes_ushiftRight (by omega)]
          by_cases hi : i < 2 ^ l
          · rw [decide_eq_true hi, Bool.true_and, Nat.mod_eq_of_lt hi, decide_eq_decide]
            omega
          · have hnot : ¬i < d + 1 := by omega
            rw [decide_eq_false hi, decide_eq_false hnot, Bool.false_and]

end narmDecoder
