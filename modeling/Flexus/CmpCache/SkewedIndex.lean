import Flexus.CmpCache.BankIndex
import Mathlib.Data.Nat.Bitwise

/-!
# Folded addresses

The functional directory folds the upper bits of an address into the number of the set of the
whole cache, the directory of a bank folds them by a distance that leaves out the groups, and its
loader folds the first address of every set, too. The three agree for some sizes only.
-/

namespace nCMPCache

open SetArray Interleave XorShift

namespace StdArrayInfo

variable {info : StdArrayInfo}

section Skewed

variable {R : SetReader nFastCMPCache.StdDirEntrySerializer (Nat → DirBlock)} {off idx bank group bi gi : Nat}

/-- The distance by which the timing directory folds. -/
def skewBits (info : StdArrayInfo) : Nat := info.skewShift.toNat

namespace Sizes

theorem skewBits_eq (h : info.Sizes off idx bank group bi gi) :
    info.skewBits = 34 - (idx + bank + off) := by
  obtain ⟨hoff, hidx, hbank, -, -, -⟩ := h.bits
  rw [skewBits, skewShift, hoff, hidx, hbank]
  omega

theorem skew_eq (h : info.Sizes off idx bank group bi gi) (hle : idx + bank + off ≤ 34) :
    info.skew true = fun a => some (xorShift info.skewBits a) := by
  obtain ⟨hoff, hidx, hbank, -, -, -⟩ := h.bits
  have hshift : 0 ≤ info.skewShift := by
    rw [skewShift, hoff, hidx, hbank]
    omega
  funext a
  rw [skew, if_pos rfl, if_pos hshift]
  rfl

theorem skew_eq_none (h : info.Sizes off idx bank group bi gi) (hlt : 34 < idx + bank + off) :
    info.skew true = fun _ => none := by
  obtain ⟨hoff, hidx, hbank, -, -, -⟩ := h.bits
  funext a
  rw [skew, if_pos rfl, skewShift, hoff, hidx, hbank, if_neg (by omega)]

theorem get_set_false (h : info.Sizes off idx bank group bi gi) (hassoc : 0 < info.theAssociativity)
    (a : MemoryAddress) :
    (info.fastDirectory false hassoc).get_set a = a / info.theBlockSize % info.theTotalSets := by
  obtain ⟨hoff, -⟩ := h.bits
  simp only [fastDirectory, nFastCMPCache.StandardConfig.get_set, nFastCMPCache.StandardConfig.theSetMask,
    Bool.false_eq_true, if_false]
  rw [hoff, h.total, Nat.and_two_pow_sub_one_eq_mod, Nat.shiftRight_eq_div_pow, h.blockSize]

theorem get_set_true (h : info.Sizes off idx bank group bi gi) (hassoc : 0 < info.theAssociativity)
    (a : MemoryAddress) : (info.fastDirectory true hassoc).get_set a =
      (a / 2 ^ off ^^^ a / 2 ^ (34 - (idx + bank + group))) % 2 ^ (idx + bank + group) := by
  obtain ⟨hoff, -⟩ := h.bits
  simp only [fastDirectory, nFastCMPCache.StandardConfig.get_set, nFastCMPCache.StandardConfig.theSetMask,
    Bool.false_eq_true, if_false, if_true]
  rw [hoff, h.total, Nat.log2_two_pow, Nat.and_two_pow_sub_one_eq_mod, Nat.shiftRight_eq_div_pow,
    Nat.shiftRight_eq_div_pow]

/-- With one group the functional directory folds by the same distance. -/
theorem get_set_skewed (h : info.Sizes off idx bank group bi gi) (hassoc : 0 < info.theAssociativity)
    (hgroup : group = 0) (hlt : idx + bank + off ≤ 34) (a : MemoryAddress) :
    (info.fastDirectory true hassoc).get_set a =
      xorShift info.skewBits a / info.theBlockSize % info.theTotalSets := by
  have hshift : off + info.skewBits = 34 - (idx + bank + group) := by
    rw [h.skewBits_eq]
    omega
  rw [h.get_set_true, h.blockSize, h.total, window, hshift]

/-- Every set of the whole cache has a folded address. -/
theorem exists_folded (h : info.Sizes off idx bank group bi gi) (hlt : idx + bank + off < 34) {k x : Nat}
    (hk : k ≤ 64) (hx : x < 2 ^ k) : ∃ a < 2 ^ 64, a < 2 ^ k ∧ xorShift info.skewBits a = x := by
  have hpos : 0 < info.skewBits := by
    rw [h.skewBits_eq]
    omega
  obtain ⟨a, ha, heq⟩ := exists_xorShift hpos hx
  exact ⟨a, Nat.lt_of_lt_of_le ha (Nat.pow_le_pow_right (by omega) hk), ha, heq⟩

/-- The folding keeps the bank of the first address of every set when there is one bank, or when
    no set number reaches over the bank. -/
theorem skewed_indexed (h : info.Sizes off idx bank group bi gi) (hR : R.Sound info.theAssociativity)
    (hassoc : 0 < info.theAssociativity) (hlow : off ≤ bi) (hfit : bi ≤ idx + off)
    (htotal : idx + bank + group < 31) (hgroup : group = 0) (hlt : idx + bank + off < 34)
    (hbank : bank = 0 ∨ 2 * (idx + bank + off) ≤ 34 + bi) :
    (info.banked R info.fields (info.skew true) (info.fastDirectory true hassoc).get_set).Indexed := by
  have htotal' : info.theTotalSets < 2 ^ 31 := by
    rw [h.total]
    exact Nat.pow_lt_pow_right (by omega) htotal
  rw [h.skew_eq hlt.le]
  apply (h.layout hlow hfit (.inl hgroup)).indexed hR htotal' (h.get_set_skewed hassoc hgroup hlt.le)
  · intro τ hτ
    rw [h.total] at hτ
    have hx : τ * 2 ^ off < 2 ^ (idx + bank + group + off) := by
      rw [Nat.pow_add]
      exact Nat.mul_lt_mul_of_pos_right hτ (Nat.two_pow_pos off)
    obtain ⟨a, ha, -, heq⟩ := h.exists_folded hlt (by omega) hx
    refine ⟨a, ha, ?_⟩
    rw [h.get_set_skewed hassoc hgroup hlt.le, heq, h.blockSize, Nat.mul_div_cancel _ (Nat.two_pow_pos off),
      h.total, Nat.mod_eq_of_lt hτ]
  · intro τ hτ
    rw [h.total] at hτ
    constructor
    · rw [h.getBank_eq, h.getBank_eq, window]
      rcases hbank with hzero | hreach
      · rw [hzero, Nat.pow_zero, Nat.mod_one, Nat.mod_one]
      · have habove : τ * info.theBlockSize / 2 ^ (bi + info.skewBits) = 0 := by
          apply Nat.div_eq_of_lt
          calc τ * info.theBlockSize < 2 ^ (idx + bank + group) * 2 ^ off := by
                rw [h.blockSize]
                exact Nat.mul_lt_mul_of_pos_right hτ (Nat.two_pow_pos off)
            _ = 2 ^ (idx + bank + group + off) := (Nat.pow_add 2 _ _).symm
            _ ≤ 2 ^ (bi + info.skewBits) := by
                apply Nat.pow_le_pow_right (by omega)
                rw [h.skewBits_eq]
                omega
        rw [habove, Nat.xor_zero]
    · rw [h.getGroup_eq, h.getGroup_eq, hgroup, Nat.pow_zero, Nat.mod_one, Nat.mod_one]


/-- A fold by no distance makes every address zero. -/
theorem not_indexed_of_unshifted (h : info.Sizes off idx bank group bi gi) {globalSet : MemoryAddress → Nat}
    (hmany : 0 < idx + bank) :
    ¬ (info.banked R info.fields (fun a => some (xorShift 0 a)) globalSet).Indexed := by
  intro hA
  have hpow : ∀ k, 0 < k → 1 < 2 ^ k := fun k hk => Nat.one_lt_two_pow hk.ne'
  obtain ⟨hbank0, -, hset0⟩ := h.fields_zero
  rcases Nat.eq_zero_or_pos idx with hzero | hpos
  · have hnode : 1 < info.theBanks * info.theGroups := h.node_lt (hpow _ (by omega))
    have hset : 0 < info.theNumSets := by
      rw [h.numSets]
      exact Nat.two_pow_pos _
    obtain ⟨a, -, hlocal, -⟩ := hA.exists_address 1 hnode 0 hset
    have hbank := (banked_local_iff.mp hlocal).1
    rw [xorShift_zero_left, hbank0, h.banks, Nat.mod_eq_of_lt (hpow bank (by omega))] at hbank
    cases hbank
  · have hset : 1 < info.theNumSets := by
      rw [h.numSets]
      exact hpow idx hpos
    obtain ⟨a, -, -, hmake⟩ := hA.exists_address 0 (h.node_lt (Nat.two_pow_pos _)) 1 hset
    have hone : info.makeSet (xorShift 0 a) = 1 := Option.some.inj hmake
    rw [xorShift_zero_left, hset0] at hone
    cases hone

section Folded

variable (h : info.Sizes off idx bank group bi gi) (hR : R.Sound info.theAssociativity)
  (hassoc : 0 < info.theAssociativity)
  (hA : (info.banked R info.fields (fun a => some (xorShift info.skewBits a))
    (info.fastDirectory true hassoc).get_set).Indexed)

include h hR hA

/-- The functional directory has to tell the bit above the index from none. -/
theorem skewed_uncut (hlow : off ≤ bi) (hfit : bi ≤ idx + off) (hlt : idx + bank + off < 34) :
    group = 0 ∨ gi ≤ idx + bank + off := by
  by_contra hcut
  rw [not_or, Nat.not_le] at hcut
  obtain ⟨hgroup, hcut⟩ := hcut
  have htotal := h.total_lt hR hA
  obtain ⟨hbank0, hgroup0, hset0⟩ := h.fields_zero
  obtain ⟨hbank1, hgroup1, hset1⟩ := h.fields_above hlow hfit hcut
  have hshift : 0 < info.skewBits := by
    rw [h.skewBits_eq]
    omega
  have hnode : 2 ^ bank < info.theBanks * info.theGroups :=
    h.node_lt (Nat.pow_lt_pow_right (by omega) (by omega))
  by_cases hsame : 34 - (idx + bank + group) = off
  · -- the two parts that the functional directory folds are the same
    have hset : 0 < info.theNumSets := by
      rw [h.numSets]
      exact Nat.two_pow_pos _
    obtain ⟨a, ha, hlocal, hmake⟩ := hA.exists_address _ hnode 0 hset
    obtain ⟨-, -, hmine, -⟩ := hA.place hR hnode ha hlocal hmake
    have hzero : (info.fastDirectory true hassoc).get_set a = 0 := by
      rw [h.get_set_true, hsame, Nat.xor_self, Nat.zero_mod]
    have hmine' := (banked_local_iff.mp (of_decide_eq_true hmine)).2
    change info.getGroup (xorShift _ ((info.fastDirectory true hassoc).get_set a * info.theBlockSize)) = _ at hmine'
    rw [hzero, Nat.zero_mul, xorShift_zero, hgroup0, h.banks, Nat.div_self (Nat.two_pow_pos _)] at hmine'
    cases hmine'
  · have hy' : 2 ^ (off + bank + idx) < 2 ^ (off + bank + idx + 1) := Nat.pow_lt_pow_right (by omega) (by omega)
    obtain ⟨y, hy, hylt, hfold⟩ := h.exists_folded hlt (by omega) hy'
    have hyge : 2 ^ (off + bank + idx) ≤ y := by
      by_contra hsmall
      have hfold_lt := xorShift_lt (s := info.skewBits) (Nat.not_le.mp hsmall)
      exact Nat.lt_irrefl _ (hfold ▸ hfold_lt)
    refine h.not_indexed_of_same hR (a := y) (b := 0) hy (Nat.two_pow_pos 64)
      ⟨hfold ▸ hbank1, by rwa [xorShift_zero]⟩ ⟨hfold ▸ hgroup1, by rwa [xorShift_zero]⟩ (by rw [hfold, xorShift_zero, hset1, hset0]) ?_ hA
    have hdiv : ∀ k, k ≤ off + bank + idx → 2 ^ (off + bank + idx - k) ≤ y / 2 ^ k ∧
        y / 2 ^ k < 2 ^ (off + bank + idx - k + 1) := by
      intro k hk
      rw [Nat.le_div_iff_mul_le (Nat.two_pow_pos k), Nat.div_lt_iff_lt_mul (Nat.two_pow_pos k), ← Nat.pow_add,
        ← Nat.pow_add]
      exact ⟨by rwa [Nat.sub_add_cancel hk], by rwa [Nat.add_right_comm, Nat.sub_add_cancel hk]⟩
    rw [h.get_set_true, h.get_set_true, Nat.zero_div, Nat.zero_div, Nat.xor_self, Nat.zero_mod]
    rcases Nat.lt_or_gt_of_ne hsame with hless | hmore
    · obtain ⟨hge, hlt'⟩ := hdiv (34 - (idx + bank + group)) (by omega)
      rw [Nat.xor_comm]
      refine window_ne_zero hge hlt' ?_ (by omega)
      rw [Nat.div_lt_iff_lt_mul (Nat.two_pow_pos off), ← Nat.pow_add]
      exact Nat.lt_of_lt_of_le hylt (Nat.pow_le_pow_right (by omega) (by omega))
    · obtain ⟨hge, hlt'⟩ := hdiv off (by omega)
      refine window_ne_zero hge hlt' ?_ (by omega)
      rw [Nat.div_lt_iff_lt_mul (Nat.two_pow_pos _), ← Nat.pow_add]
      exact Nat.lt_of_lt_of_le hylt (Nat.pow_le_pow_right (by omega) (by omega))

/-- The highest bit of the index comes back to the functional directory from further above when
    there are groups. -/
theorem skewed_one_group (hlow : off ≤ bi) (hfit : bi ≤ idx + off) (hlt : idx + bank + off < 34) :
    group = 0 := by
  by_contra hgroup
  have htotal := h.total_lt hR hA
  have hlayout := h.layout hlow hfit (h.skewed_uncut hR hassoc hA hlow hfit hlt)
  have hshift := h.skewBits_eq
  obtain ⟨hbank0, hgroup0, hset0⟩ := h.fields_zero
  have hx : 2 ^ (off + info.skewBits + (idx + bank + group) - 1) < 2 ^ 64 :=
    Nat.pow_lt_pow_right (by omega) (by omega)
  generalize hxdef : 2 ^ (off + info.skewBits + (idx + bank + group) - 1) = x at hx
  have hzero : (info.fastDirectory true hassoc).get_set x = 0 := by
    rw [h.get_set_true, Nat.xor_mod_two_pow, ← hxdef, two_pow_div_mod, two_pow_div_mod, if_neg (by omega),
      if_neg (by omega), Nat.xor_self]
  have hindex : xorShift info.skewBits x / info.theBlockSize % info.theTotalSets =
      2 ^ (idx + bank + group - 1) := by
    rw [h.blockSize, h.total, window, Nat.xor_mod_two_pow, ← hxdef, two_pow_div_mod, two_pow_div_mod,
      if_neg (by omega), if_pos (by omega), Nat.zero_xor]
    congr 1
    omega
  obtain ⟨hnode, hmod, hdiv⟩ := hlayout.nodeOf_spec (xorShift info.skewBits x)
  have hlocal : (info.banked R info.fields (fun a => some (xorShift info.skewBits a))
      (info.fastDirectory true hassoc).get_set).Local (info.nodeOf (xorShift info.skewBits x)) x := by
    rw [banked_local_iff]
    exact ⟨hmod.symm, hdiv.symm⟩
  obtain ⟨-, -, hmine, hcount⟩ := hA.place hR hnode hx hlocal rfl
  change BankedArray.isLocal _ _ ((info.fastDirectory true hassoc).get_set x) = true at hmine
  change Nat.count _ ((info.fastDirectory true hassoc).get_set x) = info.makeSet _ at hcount
  rw [hzero] at hmine hcount
  have hmine' := banked_local_iff.mp (of_decide_eq_true hmine)
  rw [Nat.zero_mul, xorShift_zero, hmod, hdiv] at hmine'
  rw [Nat.count_zero] at hcount
  have hsame := hlayout.globalSet_injective hmine'.1 hmine'.2 (hset0.trans hcount)
  rw [hindex, Nat.zero_div, Nat.zero_mod] at hsame
  exact absurd hsame (Nat.two_pow_pos _).ne

/-- The loader folds the first address of a set, which is then that of another bank when the set
    number reaches over the bank. -/
theorem skewed_reach (hlow : off ≤ bi) (hfit : bi ≤ idx + off) (hlt : idx + bank + off < 34) :
    bank = 0 ∨ 2 * (idx + bank + off) ≤ 34 + bi := by
  by_contra hreach
  rw [not_or, Nat.not_le] at hreach
  obtain ⟨hbank, hreach⟩ := hreach
  have htotal := h.total_lt hR hA
  have hgroup := h.skewed_one_group hR hassoc hA hlow hfit hlt
  have hlayout := h.layout hlow hfit (.inl hgroup)
  have hshift := h.skewBits_eq
  have hj : 2 ^ (bi + info.skewBits) < 2 ^ (off + (idx + bank + group)) :=
    Nat.pow_lt_pow_right (by omega) (by omega)
  obtain ⟨a, ha, -, hfold⟩ := h.exists_folded hlt (by omega) hj
  have hset : (info.fastDirectory true hassoc).get_set a * info.theBlockSize = 2 ^ (bi + info.skewBits) := by
    rw [h.get_set_skewed hassoc hgroup hlt.le, hfold, h.blockSize, h.total, two_pow_div_mod, if_pos (by omega),
      ← Nat.pow_add]
    congr 1
    omega
  obtain ⟨hnode, hmod, hdiv⟩ := hlayout.nodeOf_spec (xorShift info.skewBits a)
  have hlocal : (info.banked R info.fields (fun a => some (xorShift info.skewBits a))
      (info.fastDirectory true hassoc).get_set).Local (info.nodeOf (xorShift info.skewBits a)) a := by
    rw [banked_local_iff]
    exact ⟨hmod.symm, hdiv.symm⟩
  obtain ⟨-, -, hmine, -⟩ := hA.place hR hnode ha hlocal rfl
  have hbanks := (banked_local_iff.mp (of_decide_eq_true hmine)).1
  change info.getBank (xorShift _ ((info.fastDirectory true hassoc).get_set a * info.theBlockSize)) = _ at hbanks
  rw [hset, hmod, hfold, h.getBank_eq, h.getBank_eq, window, Nat.pow_div (by omega) (by omega),
    Nat.add_sub_cancel_left, Nat.div_self (Nat.two_pow_pos _)] at hbanks
  have hparity := congrArg (· % 2) hbanks
  have hdvd : 2 ∣ 2 ^ bank := dvd_pow_self 2 hbank
  have heven : 2 ^ info.skewBits % 2 = 0 := Nat.mod_eq_zero_of_dvd (dvd_pow_self 2 (by omega))
  simp only [Nat.mod_mod_of_dvd _ hdvd, Nat.xor_mod_two_eq] at hparity
  omega

end Folded

theorem skewed_indexed_iff (h : info.Sizes off idx bank group bi gi) (hR : R.Sound info.theAssociativity)
    (hassoc : 0 < info.theAssociativity) (hlow : off ≤ bi) (hfit : bi ≤ idx + off) :
    (info.banked R info.fields (info.skew true) (info.fastDirectory true hassoc).get_set).Indexed ↔
      idx + bank + group < 31 ∧ group = 0 ∧ idx + bank + off < 34 ∧
        (bank = 0 ∨ 2 * (idx + bank + off) ≤ 34 + bi) := by
  constructor
  · intro hA
    rcases Nat.lt_trichotomy (idx + bank + off) 34 with hlt | heq | hgt
    · rw [h.skew_eq hlt.le] at hA
      exact ⟨h.total_lt hR hA, h.skewed_one_group hR hassoc hA hlow hfit hlt, hlt,
        h.skewed_reach hR hassoc hA hlow hfit hlt⟩
    · have hoff := h.off_lt
      rw [h.skew_eq heq.le, h.skewBits_eq, heq, Nat.sub_self] at hA
      exact absurd hA (h.not_indexed_of_unshifted (by omega))
    · obtain ⟨m, -, hm⟩ := hA.makeSet_lt 0 (Nat.two_pow_pos 64)
      rw [h.skew_eq_none hgt] at hm
      cases hm
  · rintro ⟨htotal, hgroup, hlt, hbank⟩
    exact h.skewed_indexed hR hassoc hlow hfit htotal hgroup hlt hbank

end Sizes

end Skewed

/-! ## The array and the directory -/

section Both

variable {β γ : Type} {off idx bank group bi gi : Nat} {policy : ReplacementPolicy} {theSkewSet : Bool}
  {theNumSharers : Nat}

namespace Sizes

theorem unskewed_indexed_iff {R : SetReader β γ} (h : info.Sizes off idx bank group bi gi)
    (hR : R.Sound info.theAssociativity) (hlow : off ≤ bi) (hfit : bi ≤ idx + off)
    {globalSet : MemoryAddress → Nat}
    (hglobal : ∀ a, globalSet a = a / info.theBlockSize % info.theTotalSets) :
    (info.banked R info.fields some globalSet).Indexed ↔
      (group = 0 ∨ gi ≤ idx + bank + off) ∧ idx + bank + group < 31 := by
  have hoff := h.off_lt
  have hinterleaving := h.interleaving
  have hgi := h.gi_lt
  constructor
  · intro hA
    refine ⟨?_, h.total_lt hR hA⟩
    by_contra hcut
    rw [not_or, Nat.not_le] at hcut
    obtain ⟨hbank0, hgroup0, hset0⟩ := h.fields_zero
    obtain ⟨hbank1, hgroup1, hset1⟩ := h.fields_above hlow hfit hcut.2
    refine h.not_indexed_of_same hR (a := 2 ^ (off + bank + idx)) (b := 0)
      (Nat.pow_lt_pow_right (by omega) (by omega)) (Nat.two_pow_pos 64) ⟨hbank1, hbank0⟩ ⟨hgroup1, hgroup0⟩
      (hset1.trans hset0.symm) ?_ hA
    rw [hglobal, hglobal, h.blockSize, h.total, two_pow_div_mod, if_pos (by omega), Nat.zero_div, Nat.zero_mod]
    exact (Nat.two_pow_pos _).ne'
  · rintro ⟨hgroup, htotal⟩
    have htotal' : info.theTotalSets < 2 ^ 31 := by
      rw [h.total]
      exact Nat.pow_lt_pow_right (by omega) htotal
    apply (h.layout hlow hfit hgroup).indexed hR htotal' hglobal
    · intro τ hτ
      refine ⟨τ * info.theBlockSize, ?_, by rw [hglobal, (h.layout hlow hfit hgroup).set_address hτ]⟩
      calc τ * info.theBlockSize < 2 ^ 31 * 2 ^ 31 := by
            apply Nat.mul_lt_mul_of_lt_of_lt (hτ.trans htotal')
            rw [h.blockSize]
            exact Nat.pow_lt_pow_right (by omega) hoff
        _ < 2 ^ 64 := by decide
    · exact fun _ _ => ⟨rfl, rfl⟩

/-- The second replacement policy loads nothing. -/
theorem not_indexed_of_plru (h : info.Sizes off idx bank group bi gi)
    {skewed : MemoryAddress → Option MemoryAddress} {globalSet : MemoryAddress → Nat} :
    ¬ (info.banked (CacheSet.reader info.theAssociativity .REPLACEMENT_PLRU) info.fields skewed
      globalSet).Indexed := by
  intro hA
  have hnode : 0 < info.theBanks * info.theGroups := h.node_lt (Nat.two_pow_pos _)
  have hset : 0 < info.theNumSets := by
    rw [h.numSets]
    exact Nat.two_pow_pos _
  let record : List nFastCache.BlockSerializer :=
    List.replicate info.theAssociativity { tag := 1, state := 'S' }
  obtain ⟨a, ha, hlocal, hmake⟩ := hA.exists_address 0 hnode 0 hset
  obtain ⟨theSets, hload, hstored⟩ := hA.loaded 0 hnode (fun _ => record) (by
    refine fun _ => ⟨List.length_replicate, fun bs hbs => ?_⟩
    rw [List.eq_of_mem_replicate hbs]
    rfl)
  unfold BankedArray.loadState at hload
  split at hload
  · obtain rfl := Dealing.deal_idle (fun _ => rfl) _ _ _ _ _ hload
    have hfirst : record.reverse[0]? = some { tag := 1, state := 'S' } := by
      simp [record, h.associativity]
    obtain ⟨state, -, hblock⟩ := hstored a ha hlocal 0 hmake 0 _ hfirst
    cases congrArg Block.tag hblock
  · cases hload

theorem stdArray_eq (h : info.Sizes off idx bank group bi gi) (hlow : off ≤ bi) (hfit : bi ≤ idx + off) :
    info.stdArray policy = .ok (info.banked (CacheSet.reader info.theAssociativity policy) info.fields some
      (info.fastCache h.associativity).get_set) := by
  rw [stdArray, dif_pos h.arrayAsserts, h.indexFields_eq hlow hfit]
  rfl

theorem stdDirectory_eq (h : info.Sizes off idx bank group bi gi) (hlow : off ≤ bi) (hfit : bi ≤ idx + off) :
    info.stdDirectory theSkewSet theNumSharers =
      .ok (info.banked (DirSet.reader info.theAssociativity theNumSharers) info.fields (info.skew theSkewSet)
        (info.fastDirectory theSkewSet h.associativity).get_set) := by
  rw [stdDirectory, dif_pos h.arrayAsserts.1, h.indexFields_eq hlow hfit]
  rfl

theorem stdArray_indexed_iff (h : info.Sizes off idx bank group bi gi) :
    (∃ A, info.stdArray policy = .ok A ∧ A.Indexed) ↔ policy = .REPLACEMENT_LRU ∧ info.Fits := by
  rw [h.fits_iff]
  by_cases hfit : off ≤ bi ∧ bi ≤ idx + off
  · rw [h.stdArray_eq hfit.1 hfit.2]
    cases policy with
    | REPLACEMENT_LRU =>
      have hglobal : ∀ a, (info.fastCache h.associativity).get_set a =
          a / info.theBlockSize % info.theTotalSets := fun _ => rfl
      have hiff := h.unskewed_indexed_iff (CacheSet.reader_sound h.associativity) hfit.1 hfit.2 hglobal
      simp [hiff, hfit]
    | REPLACEMENT_PLRU =>
      simp [h.not_indexed_of_plru]
  · rw [stdArray, dif_pos h.arrayAsserts, h.indexFields_of_not_fit hfit]
    constructor
    · rintro ⟨A, hA, -⟩
      cases hA
    · exact fun hall => absurd ⟨hall.2.1, hall.2.2.1⟩ hfit

theorem stdDirectory_indexed_iff (h : info.Sizes off idx bank group bi gi) :
    (∃ D, info.stdDirectory theSkewSet theNumSharers = .ok D ∧ D.Indexed) ↔
      info.Fits ∧ (theSkewSet = true → info.SkewFits) := by
  have hsound : (DirSet.reader info.theAssociativity theNumSharers).Sound info.theAssociativity :=
    DirSet.reader_sound h.associativity
  rw [h.fits_iff, h.skewFits_iff]
  by_cases hfit : off ≤ bi ∧ bi ≤ idx + off
  · rw [h.stdDirectory_eq hfit.1 hfit.2]
    cases theSkewSet with
    | false =>
      have hiff := h.unskewed_indexed_iff hsound hfit.1 hfit.2 (h.get_set_false h.associativity)
      have hskew : info.skew false = some := rfl
      simp [hskew, hiff, hfit]
    | true =>
      have hiff := h.skewed_indexed_iff hsound h.associativity hfit.1 hfit.2
      simp only [Except.ok.injEq, exists_eq_left', hiff, hfit, true_and, forall_true_left]
      constructor
      · rintro ⟨htotal, hgroup, hrest⟩
        exact ⟨⟨.inl hgroup, htotal⟩, hgroup, hrest⟩
      · rintro ⟨⟨-, htotal⟩, hgroup, hrest⟩
        exact ⟨htotal, hgroup, hrest⟩
  · rw [stdDirectory, dif_pos h.arrayAsserts.1, h.indexFields_of_not_fit hfit]
    constructor
    · rintro ⟨D, hD, -⟩
      cases hD
    · exact fun hall => absurd ⟨hall.1.1, hall.1.2.1⟩ hfit

end Sizes

end Both

/-- For sizes that are accepted, the array of every bank has its sets right exactly when it replaces
    by recency and its interleavings fit, and the directory when they fit and, where it folds
    addresses, when the folds agree. -/
theorem banks_indexed_iff (info : StdArrayInfo) (policy : ReplacementPolicy) (theSkewSet : Bool)
    (theNumSharers : Nat) (h : info.Accepted) :
    ((∃ A, info.stdArray policy = .ok A ∧ A.Indexed) ↔ policy = .REPLACEMENT_LRU ∧ info.Fits) ∧
      ((∃ D, info.stdDirectory theSkewSet theNumSharers = .ok D ∧ D.Indexed) ↔
        info.Fits ∧ (theSkewSet = true → info.SkewFits)) := by
  obtain ⟨off, idx, bank, group, bi, gi, hsizes⟩ := h.exists_sizes
  exact ⟨hsizes.stdArray_indexed_iff, hsizes.stdDirectory_indexed_iff⟩

/-- Two banks of sixteen sets that take turns by blocks. -/
def twoBanks : StdArrayInfo where
  theNumSets := 16
  theAssociativity := 2
  theBlockSize := 64
  theBanks := 2
  theBankInterleaving := 64
  theGroups := 1
  theGroupInterleaving := 4096

theorem twoBanks_accepted : twoBanks.Accepted where
  numSets := ⟨4, rfl⟩
  blockSize := ⟨6, rfl⟩
  banks := ⟨1, rfl⟩
  groups := ⟨0, rfl⟩
  bankInterleaving := ⟨6, rfl⟩
  groupInterleaving := ⟨12, rfl⟩
  associativity := by decide
  interleaving := by decide
  numSets_lt := by decide
  blockSize_lt := by decide
  groupInterleaving_lt := by decide

theorem banks_indexed_iff_two :
    (∃ A, twoBanks.stdArray .REPLACEMENT_LRU = .ok A ∧ A.Indexed) ∧
      ∃ D, twoBanks.stdDirectory true 4 = .ok D ∧ D.Indexed := by
  have hfits : twoBanks.Fits := by
    unfold Fits
    decide
  have hskew : twoBanks.SkewFits := by
    unfold SkewFits
    decide
  obtain ⟨harray, hdirectory⟩ := banks_indexed_iff twoBanks .REPLACEMENT_LRU true 4 twoBanks_accepted
  exact ⟨harray.mpr ⟨rfl, hfits⟩, hdirectory.mpr ⟨hfits, fun _ => hskew⟩⟩

/-- Two groups of a bank of sixteen sets, which take turns after more blocks than a bank has. -/
def twoGroups : StdArrayInfo where
  theNumSets := 16
  theAssociativity := 2
  theBlockSize := 64
  theBanks := 1
  theBankInterleaving := 64
  theGroups := 2
  theGroupInterleaving := 4096

theorem twoGroups_sizes : twoGroups.Sizes 6 4 0 1 6 12 where
  blockSize := rfl
  numSets := rfl
  banks := rfl
  groups := rfl
  bankInterleaving := rfl
  groupInterleaving := rfl
  associativity := by decide
  interleaving := by decide
  off_lt := by decide
  idx_lt := by decide
  gi_lt := by decide

theorem twoGroups_accepted : twoGroups.Accepted where
  numSets := ⟨4, rfl⟩
  blockSize := ⟨6, rfl⟩
  banks := ⟨0, rfl⟩
  groups := ⟨1, rfl⟩
  bankInterleaving := ⟨6, rfl⟩
  groupInterleaving := ⟨12, rfl⟩
  associativity := by decide
  interleaving := by decide
  numSets_lt := by decide
  blockSize_lt := by decide
  groupInterleaving_lt := by decide

/-- The first and the seventeenth set of the whole cache are one set of the first group. -/
theorem twoGroups_not_indexed : twoGroups.Accepted ∧
    (∃ A, twoGroups.stdArray .REPLACEMENT_LRU = .ok A ∧ ¬ A.Indexed) ∧
    ∃ D, twoGroups.stdDirectory false 4 = .ok D ∧ ¬ D.Indexed := by
  have hcut : ¬ (1 = 0 ∨ 12 ≤ 4 + 0 + 6) := by decide
  refine ⟨twoGroups_accepted, ⟨_, twoGroups_sizes.stdArray_eq (by decide) (by decide), fun hA => ?_⟩,
    _, twoGroups_sizes.stdDirectory_eq (by decide) (by decide), fun hD => ?_⟩
  · exact hcut ((twoGroups_sizes.unskewed_indexed_iff (CacheSet.reader_sound (by decide)) (by decide)
      (by decide) fun _ => rfl).mp hA).1
  · exact hcut ((twoGroups_sizes.unskewed_indexed_iff (DirSet.reader_sound (by decide)) (by decide)
      (by decide) (twoGroups_sizes.get_set_false (by decide))).mp hD).1

end StdArrayInfo

end nCMPCache
