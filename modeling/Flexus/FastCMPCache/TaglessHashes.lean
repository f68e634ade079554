import Flexus.FastCMPCache.AbstractDirectory

/-!
# The hash functions of the tagless directory

The directory finds the buckets of a block by several hash functions.
-/

namespace nFastCMPCache

/-- The table is in increasing order but for one entry. -/
def prime_list : List Nat :=
  [2, 3, 5, 7, 11, 13, 17, 19, 23, 29, 31, 37, 41, 43, 47, 53, 59, 61, 67, 71, 73, 79, 83, 89, 97,
   101, 103, 107, 109, 113, 127, 131, 137, 139, 149, 151, 157, 163, 167, 173, 179, 181, 191, 193,
   197, 199, 211, 223, 227, 229, 233, 239, 241, 251, 257, 263, 269, 271, 277, 281, 283, 293, 307,
   311, 313, 317, 331, 337, 347, 349, 353, 359, 367, 373, 379, 383, 389, 397, 401, 409, 419, 421,
   431, 433, 439, 443, 449, 457, 461, 463, 467, 479, 487, 491, 499, 503, 509, 521, 523, 541, 547,
   557, 563, 569, 571, 577, 587, 593, 599, 601, 607, 613, 617, 619, 631, 641, 643, 647, 653, 659,
   661, 673, 677, 683, 691, 701, 709, 719, 727, 733, 739, 743, 751, 757, 761, 769, 773, 787, 797,
   809, 811, 821, 823, 827, 829, 839, 853, 857, 859, 863, 877, 881, 883, 887, 907, 911, 919, 929,
   937, 941, 947, 953, 967, 971, 977, 983, 991, 997, 1009, 1013, 1019, 1021, 1031, 1033, 1039,
   1049, 1051, 1061, 1063, 1069, 1087, 1091, 1093, 1097, 1103, 1109, 1117, 1123, 1129, 1151, 1153,
   1163, 1171, 1181, 1187, 1193, 1201, 1213, 1217, 1223, 1229, 1231, 1237, 1249, 1259, 1277, 1279,
   1283, 1289, 1291, 1297, 1301, 1303, 1307, 1319, 1321, 1327, 1361, 1367, 1373, 1381, 1399, 1409,
   1423, 1427, 1429, 1433, 1439, 1447, 1451, 1453, 1459, 1471, 1481, 1483, 1487, 1489, 1493, 1499,
   1511, 1523, 1531, 1543, 1549, 1553, 1559, 1567, 1571, 1579, 1583, 1597, 1601, 1607, 1609, 1613,
   1619, 1621, 1627, 1637, 1657, 1663, 1667, 1669, 1693, 1697, 1699, 1709, 1721, 1723, 1733, 1741,
   1747, 1753, 1759, 1777, 1783, 1787, 1789, 1801, 1811, 1823, 1831, 1847, 1861, 1867, 1871, 1873,
   1877, 1879, 1889, 1901, 1907, 1913, 1931, 1933, 1949, 1951, 1973, 1979, 1987, 1993, 1997, 1999,
   2003, 2011, 2017, 2027, 2029, 2039, 2053, 2063, 2069, 2081, 2083, 2087, 2089, 2099, 2111, 2113,
   2129, 2131, 2137, 2141, 2143, 2153, 2161, 2179, 2203, 2207, 2213, 2221, 2237, 2239, 2243, 2251,
   2267, 2269, 2273, 2281, 2287, 2293, 2297, 2309, 2311, 2333, 2339, 2341, 2347, 2351, 2357, 2371,
   2377, 2381, 2383, 2389, 2393, 2399, 2411, 2417, 2423, 2437, 2441, 2447, 2459, 2467, 2473, 2477,
   2503, 2521, 2531, 2539, 2543, 2549, 2551, 2557, 2579, 2591, 2593, 2609, 2617, 2621, 2633, 2647,
   2657, 2659, 2663, 2671, 2677, 2683, 2687, 2689, 2693, 2699, 2707, 2711, 2713, 2719, 2729, 2731,
   2741, 2749, 2753, 2767, 2777, 2789, 2791, 2797, 2801, 2803, 2819, 2833, 2837, 2843, 2851, 2857,
   2861, 2879, 2887, 2897, 2903, 2909, 2917, 2927, 2939, 2953, 2957, 2963, 2969, 2971, 2999, 3001,
   3011, 3019, 3023, 3037, 3041, 3049, 3061, 3067, 3079, 3083, 3089, 3109, 3119, 3121, 3137, 3163,
   3167, 3169, 3181, 3187, 3191, 3203, 3209, 3217, 3221, 3229, 3251, 3253, 3257, 3259, 3271, 3299,
   3301, 3307, 3313, 3319, 3323, 3329, 3331, 3343, 3347, 3359, 3361, 3371, 3373, 3389, 3391, 3407,
   3413, 433, 3449, 3457, 3461, 3463, 3467, 3469, 3491, 3499, 3511, 3517, 3527, 3529, 3533, 3539,
   3541, 3547, 3557, 3559, 3571, 3581, 3583, 3593, 3607, 3613, 3617, 3623, 3631, 3637, 3643, 3659,
   3671, 3673, 3677, 3691, 3697, 3701, 3709, 3719, 3727, 3733, 3739, 3761, 3767, 3769, 3779, 3793,
   3797, 3803, 3821, 3823, 3833, 3847, 3851, 3853, 3863, 3877, 3881, 3889, 3907, 3911, 3917, 3919,
   3923, 3929, 3931, 3943, 3947, 3967, 3989, 4001, 4003, 4007, 4013, 4019, 4021, 4027, 4049, 4051,
   4057, 4073, 4079, 4091, 4093, 4099, 4111, 4127, 4129, 4133, 4139, 4153, 4157, 4159, 4177, 4201,
   4211, 4217, 4219, 4229, 4231, 4241, 4243, 4253, 4259, 4261, 4271, 4273, 4283, 4289, 4297, 4327,
   4337, 4339, 4349, 4357, 4363, 4373, 4391, 4397, 4409, 4421, 4423, 4441, 4447, 4451, 4457, 4463,
   4481, 4483, 4493, 4507, 4513, 4517, 4519, 4523, 4547, 4549, 4561, 4567, 4583, 4591, 4597, 4603,
   4621, 4637, 4639, 4643, 4649, 4651, 4657, 4663, 4673, 4679, 4691, 4703, 4721, 4723, 4729, 4733,
   4751, 4759, 4783, 4787, 4789, 4793, 4799, 4801, 4813, 4817, 4831, 4861, 4871, 4877, 4889, 4903,
   4909, 4919, 4931, 4933, 4937, 4943, 4951, 4957, 4967, 4969, 4973, 4987, 4993, 4999, 5003, 5009,
   5011, 5021, 5023, 5039, 5051, 5059, 5077, 5081, 5087, 5099, 5101, 5107, 5113, 5119, 5147, 5153,
   5167, 5171, 5179, 5189, 5197, 5209, 5227, 5231, 5233, 5237, 5261, 5273, 5279, 5281, 5297, 5303,
   5309, 5323, 5333, 5347, 5351, 5381, 5387, 5393, 5399, 5407, 5413, 5417, 5419, 5431, 5437, 5441,
   5443, 5449, 5471, 5477, 5479, 5483, 5501, 5503, 5507, 5519, 5521, 5527, 5531, 5557, 5563, 5569,
   5573, 5581, 5591, 5623, 5639, 5641, 5647, 5651, 5653, 5657, 5659, 5669, 5683, 5689, 5693, 5701,
   5711, 5717, 5737, 5741, 5743, 5749, 5779, 5783, 5791, 5801, 5807, 5813, 5821, 5827, 5839, 5843,
   5849, 5851, 5857, 5861, 5867, 5869, 5879, 5881, 5897, 5903, 5923, 5927, 5939, 5953, 5981, 5987,
   6007, 6011, 6029, 6037, 6043, 6047, 6053, 6067, 6073, 6079, 6089, 6091, 6101, 6113, 6121, 6131,
   6133, 6143, 6151, 6163, 6173, 6197, 6199, 6203, 6211, 6217, 6221, 6229, 6247, 6257, 6263, 6269,
   6271, 6277, 6287, 6299, 6301, 6311, 6317, 6323, 6329, 6337, 6343, 6353, 6359, 6361, 6367, 6373,
   6379, 6389, 6397, 6421, 6427, 6449, 6451, 6469, 6473, 6481, 6491, 6521, 6529, 6547, 6551, 6553,
   6563, 6569, 6571, 6577, 6581, 6599, 6607, 6619, 6637, 6653, 6659, 6661, 6673, 6679, 6689, 6691,
   6701, 6703, 6709, 6719, 6733, 6737, 6761, 6763, 6779, 6781, 6791, 6793, 6803, 6823, 6827, 6829,
   6833, 6841, 6857, 6863, 6869, 6871, 6883, 6899, 6907, 6911, 6917, 6947, 6949, 6959, 6961, 6967,
   6971, 6977, 6983, 6991, 6997, 7001, 7013, 7019, 7027, 7039, 7043, 7057, 7069, 7079, 7103, 7109,
   7121, 7127, 7129, 7151, 7159, 7177, 7187, 7193, 7207, 7211, 7213, 7219, 7229, 7237, 7243, 7247,
   7253, 7283, 7297, 7307, 7309, 7321, 7331, 7333, 7349, 7351, 7369, 7393, 7411, 7417, 7433, 7451,
   7457, 7459, 7477, 7481, 7487, 7489, 7499, 7507, 7517, 7523, 7529, 7537, 7541, 7547, 7549, 7559,
   7561, 7573, 7577, 7583, 7589, 7591, 7603, 7607, 7621, 7639, 7643, 7649, 7669, 7673, 7681, 7687,
   7691, 7699, 7703, 7717, 7723, 7727, 7741, 7753, 7757, 7759, 7789, 7793, 7817, 7823, 7829, 7841,
   7853, 7867, 7873, 7877, 7879, 7883, 7901, 7907, 7919]

/-- The entry before the first one that is larger. The loop of the source goes on past the
    end of the table when there is none. -/
def searchPrimes (num : Nat) : Nat → List Nat → Option Nat
  | _, [] => none
  | prev, p :: ps => if num < p then some prev else searchPrimes num p ps

def get_next_prime (num : Nat) : Option Nat := searchPrimes num num prime_list

section Primes

variable {num prev r : Nat} {l : List Nat}

theorem searchPrimes_le (hprev : prev ≤ num) (h : searchPrimes num prev l = some r) : r ≤ num := by
  induction l generalizing prev with
  | nil => cases h
  | cons p ps ih =>
    unfold searchPrimes at h
    split at h
    · exact Option.some.inj h ▸ hprev
    · next hle => exact ih (by omega) h

theorem searchPrimes_pos (hprev : 0 < prev) (hl : ∀ p ∈ l, 0 < p) (h : searchPrimes num prev l = some r) :
    0 < r := by
  induction l generalizing prev with
  | nil => cases h
  | cons p ps ih =>
    unfold searchPrimes at h
    split at h
    · exact Option.some.inj h ▸ hprev
    · exact ih (hl p List.mem_cons_self) (fun q hq => hl q (List.mem_cons_of_mem _ hq)) h

theorem searchPrimes_eq_none : searchPrimes num prev l = none ↔ ∀ p ∈ l, p ≤ num := by
  induction l generalizing prev with
  | nil => simp [searchPrimes]
  | cons p ps ih =>
    unfold searchPrimes
    split
    · next hlt =>
      simp only [List.mem_cons, forall_eq_or_imp, reduceCtorEq, false_iff]
      omega
    · next hle =>
      rw [ih, List.forall_mem_cons]
      exact ⟨fun h => ⟨by omega, h⟩, fun h => h.2⟩

theorem prime_list_bounds : ∀ p ∈ prime_list, 0 < p ∧ p ≤ 7919 := by decide +kernel

theorem largest_mem_prime_list : 7919 ∈ prime_list := by decide +kernel

theorem get_next_prime_eq_none : get_next_prime num = none ↔ 7919 ≤ num := by
  rw [get_next_prime, searchPrimes_eq_none]
  exact ⟨fun h => h _ largest_mem_prime_list, fun h p hp => (prime_list_bounds p hp).2.trans h⟩

theorem get_next_prime_le (h : get_next_prime num = some r) : r ≤ num := searchPrimes_le le_rfl h

theorem get_next_prime_pos (hnum : 0 < num) (h : get_next_prime num = some r) : 0 < r :=
  searchPrimes_pos hnum (fun p hp => (prime_list_bounds p hp).1) h

end Primes

inductive HashPolicy where
  | simple | rotated_prime | full_prime | prime | my_hash | overlap | xor
  | shift (shift : Int)
  | matrix (rows : List Nat)
  deriving DecidableEq, Repr

namespace HashPolicy

/-- The policies that hash modulo the number of buckets. The others mask their values. -/
def isPrime : HashPolicy → Bool
  | rotated_prime | full_prime | prime => true
  | _ => false

/-- The policies whose creation asserts that the number of buckets is a power of two. -/
def needsPowerOfTwo : HashPolicy → Bool
  | simple | my_hash | overlap | xor | shift _ => true
  | _ => false

end HashPolicy

/-- The options of the directory. Those that were not given are arbitrary. -/
structure TaglessConfig where
  theBlockSize : Nat
  theNumSets : Nat
  theNumBuckets : Nat
  thePartitioned : Bool
  theUpdateOnSnoop : Bool
  theHashXORShift : Int
  theRotation : Nat
  theHashPolicyList : List HashPolicy
  deriving DecidableEq, Repr

/-- The sizes and the hash functions of a directory. The functions read the sizes when they
    are used, except that they all keep the first mask. -/
structure TaglessSizes where
  thePartitioned : Bool
  theUpdateOnSnoop : Bool
  theSetShift : Nat
  theSetMask : Nat
  theHashShift : Nat
  theHashMask : Nat
  theHashBits : Nat
  theRotation : Nat
  theTotalNumBuckets : Nat
  theNumBuckets : Nat
  theHashXORShift : Int
  hash_fns : List HashPolicy
  deriving DecidableEq, Repr

namespace TaglessSizes

variable (d : TaglessSizes)

def simple_hash (addr : Nat) : Nat := (addr >>> d.theHashShift) &&& d.theHashMask

def shift_hash (shift : Int) (addr : Nat) : Nat :=
  (addr >>> (d.theHashShift + shift).toNat) &&& d.theHashMask

def xor_hash (addr : Nat) : Nat :=
  ((addr >>> d.theHashShift) ^^^ (addr >>> d.theHashXORShift.toNat)) &&& d.theHashMask

def prime_modulo_hash (addr : Nat) : Nat := (addr >>> d.theHashShift) % d.theNumBuckets

def full_prime_modulo_hash (addr : Nat) : Nat := addr % d.theNumBuckets

def rotated_prime_modulo_hash (addr : Nat) : Nat :=
  let x := addr % 2 ^ 32
  let x := ((x >>> (32 - d.theRotation)) &&& ((1 <<< d.theRotation) - 1)) |||
    (x <<< d.theRotation) % 2 ^ 32
  x % d.theNumBuckets

def my_hash (addr : Nat) : Nat :=
  let a := (addr >>> (16 + 12)) &&& 0xF
  let b := (addr >>> (16 + 8)) &&& 0xF
  let c := (addr >>> (16 + 4)) &&& 0xF
  let d' := (addr >>> (16 + 0)) &&& 0xF
  ((c <<< 6) ||| (d' <<< 4) ||| (b <<< 1) ||| a) &&& d.theHashMask

/-- The loop of `overlap_hash`, for the bits that are left. -/
def overlapBits : Nat → Nat → Nat → Nat → Nat
  | 0, _, _, ret => ret
  | i + 1, addr, bit_mask, ret =>
    let ret := ret ^^^ (addr &&& bit_mask)
    let bit_mask := bit_mask <<< 1
    overlapBits i (addr >>> 1) bit_mask (ret ||| (addr &&& bit_mask))

def overlap_hash (addr : Nat) : Nat :=
  overlapBits d.theHashBits (addr >>> d.theHashShift) 1 0 &&& d.theHashMask

/-- The rows of the matrix for the bits that are set. -/
def matrixRows : List Nat → Nat → Nat → Nat
  | [], _, ret => ret
  | row :: rows, addr, ret =>
    matrixRows rows (addr >>> 1) (if addr &&& 1 ≠ 0 then ret ^^^ row else ret)

def matrix_hash (rows : List Nat) (addr : Nat) : Nat :=
  matrixRows rows (addr >>> d.theHashShift) 0 &&& d.theHashMask

/-- The hash function that a policy stands for. -/
def hash (policy : HashPolicy) (addr : Nat) : Nat :=
  match policy with
  | .simple => d.simple_hash addr
  | .rotated_prime => d.rotated_prime_modulo_hash addr
  | .full_prime => d.full_prime_modulo_hash addr
  | .prime => d.prime_modulo_hash addr
  | .my_hash => d.my_hash addr
  | .overlap => d.overlap_hash addr
  | .xor => d.xor_hash addr
  | .shift shift => d.shift_hash shift addr
  | .matrix rows => d.matrix_hash rows addr

end TaglessSizes

/-- Why a directory is not created: an assertion fails, or the table of primes is read past
    its end. -/
inductive InitFault where
  | assertion | pastTable
  deriving DecidableEq, Repr

def isPowerOfTwo (n : Nat) : Bool := n &&& (n - 1) == 0

/-- Append the hash function of a policy, and prepare the sizes for it. -/
def createHashPolicy (d : TaglessSizes) (policy : HashPolicy) : Except InitFault TaglessSizes :=
  let d' := { d with hash_fns := d.hash_fns ++ [policy] }
  if policy.isPrime then
    match get_next_prime d.theNumBuckets with
    | some p => .ok { d' with theNumBuckets := p }
    | none => .error .pastTable
  else if policy.needsPowerOfTwo && !isPowerOfTwo d.theNumBuckets then .error .assertion
  else if policy = .xor ∧ d.theHashXORShift ≤ 0 then
    .ok { d' with theHashXORShift := 32 - (d.theNumBuckets.log2 : Int) }
  else .ok d'

namespace TaglessConfig

variable (c : TaglessConfig)

/-- The sizes before any policy is created. -/
def sizes : TaglessSizes where
  thePartitioned := c.thePartitioned
  theUpdateOnSnoop := c.theUpdateOnSnoop
  theSetShift := c.theBlockSize.log2
  theSetMask := c.theNumSets - 1
  theHashShift := c.theNumSets.log2 + c.theBlockSize.log2
  theHashMask := c.theNumBuckets - 1
  theHashBits := c.theNumBuckets.log2
  theRotation := c.theRotation
  theTotalNumBuckets :=
    if c.thePartitioned then c.theHashPolicyList.length * c.theNumBuckets else c.theNumBuckets
  theNumBuckets := c.theNumBuckets
  theHashXORShift := c.theHashXORShift
  hash_fns := []

def init : Except InitFault TaglessSizes :=
  if c.theNumSets = 0 ∨ c.theNumBuckets = 0 ∨ isPowerOfTwo c.theNumSets = false ∨
      c.theHashPolicyList.length = 0 then .error .assertion
  else c.theHashPolicyList.foldlM createHashPolicy c.sizes

end TaglessConfig

/-! ## What the policies leave behind -/

/-- The sizes that no policy changes are those of the configuration, and the number of
    buckets has not grown. -/
structure TaglessSizes.Keeps (d d' : TaglessSizes) : Prop where
  partitioned : d'.thePartitioned = d.thePartitioned
  mask : d'.theHashMask = d.theHashMask
  total : d'.theTotalNumBuckets = d.theTotalNumBuckets
  buckets_le : d'.theNumBuckets ≤ d.theNumBuckets
  buckets_pos : 0 < d.theNumBuckets → 0 < d'.theNumBuckets

namespace TaglessSizes

variable {d d' d'' : TaglessSizes} {policy : HashPolicy} {policies : List HashPolicy} {addr : Nat}

theorem Keeps.refl (d : TaglessSizes) : d.Keeps d := ⟨rfl, rfl, rfl, le_rfl, id⟩

theorem Keeps.trans (h : d.Keeps d') (h' : d'.Keeps d'') : d.Keeps d'' where
  partitioned := h'.partitioned.trans h.partitioned
  mask := h'.mask.trans h.mask
  total := h'.total.trans h.total
  buckets_le := h'.buckets_le.trans h.buckets_le
  buckets_pos := fun hpos => h'.buckets_pos (h.buckets_pos hpos)

theorem createHashPolicy_ok (h : createHashPolicy d policy = .ok d') :
    d.Keeps d' ∧ d'.hash_fns = d.hash_fns ++ [policy] ∧
      if policy.isPrime then d.theNumBuckets < 7919 else d'.theNumBuckets = d.theNumBuckets := by
  unfold createHashPolicy at h
  split at h
  · next hprime =>
    split at h
    · next p hp =>
      obtain rfl := Except.ok.inj h
      refine ⟨⟨rfl, rfl, rfl, get_next_prime_le hp, fun hpos => get_next_prime_pos hpos hp⟩, rfl, ?_⟩
      rw [if_pos hprime]
      by_contra hlarge
      rw [get_next_prime_eq_none.mpr (by omega)] at hp
      cases hp
    · cases h
  · next hmasked =>
    split at h
    · cases h
    · split at h
      · obtain rfl := Except.ok.inj h
        exact ⟨⟨rfl, rfl, rfl, le_rfl, id⟩, rfl, (if_neg hmasked).mpr rfl⟩
      · obtain rfl := Except.ok.inj h
        exact ⟨⟨rfl, rfl, rfl, le_rfl, id⟩, rfl, (if_neg hmasked).mpr rfl⟩

theorem createHashPolicy_pastTable (h : createHashPolicy d policy = .error .pastTable) :
    policy.isPrime = true ∧ 7919 ≤ d.theNumBuckets := by
  unfold createHashPolicy at h
  split at h
  · next hprime =>
    split at h
    · cases h
    · next hnone => exact ⟨hprime, get_next_prime_eq_none.mp hnone⟩
  · split at h
    · cases h
    · split at h <;> cases h

theorem foldlM_ok (h : policies.foldlM createHashPolicy d = .ok d') :
    d.Keeps d' ∧ d'.hash_fns = d.hash_fns ++ policies := by
  induction policies generalizing d with
  | nil =>
    obtain rfl := Except.ok.inj h
    exact ⟨.refl _, (List.append_nil _).symm⟩
  | cons policy policies ih =>
    rw [List.foldlM_cons] at h
    cases hone : createHashPolicy d policy with
    | error e =>
      rw [hone] at h
      cases h
    | ok d₁ =>
      rw [hone] at h
      obtain ⟨hkeeps, hfns, -⟩ := createHashPolicy_ok hone
      obtain ⟨hkeeps', hfns'⟩ := ih h
      exact ⟨hkeeps.trans hkeeps', by rw [hfns', hfns, List.append_assoc, List.singleton_append]⟩

/-- The table of primes is only read past its end by the first policy that uses it, and then
    for a number that the configuration gave. -/
theorem foldlM_pastTable_iff (haccepted : policies.foldlM createHashPolicy d ≠ .error .assertion) :
    policies.foldlM createHashPolicy d = .error .pastTable ↔
      (∃ p ∈ policies, p.isPrime = true) ∧ 7919 ≤ d.theNumBuckets := by
  induction policies generalizing d with
  | nil => exact iff_of_false (fun h => by cases h) (by simp)
  | cons policy policies ih =>
    rw [List.foldlM_cons] at haccepted ⊢
    cases hone : createHashPolicy d policy with
    | error e =>
      rw [hone] at haccepted
      cases e with
      | assertion => exact absurd rfl haccepted
      | pastTable =>
        obtain ⟨hprime, hlarge⟩ := createHashPolicy_pastTable hone
        exact iff_of_true rfl ⟨⟨policy, List.mem_cons_self, hprime⟩, hlarge⟩
    | ok d₁ =>
      rw [hone] at haccepted
      obtain ⟨hkeeps, -, hbuckets⟩ := createHashPolicy_ok hone
      have hrest := ih (d := d₁) haccepted
      have hle := hkeeps.buckets_le
      split at hbuckets
      · exact iff_of_false (fun h => by have := (hrest.mp h).2; omega) (fun h => by have := h.2; omega)
      · next hmasked =>
        refine hrest.trans ?_
        rw [hbuckets]
        simp [hmasked]

theorem hash_le_mask (hmasked : policy.isPrime = false) (addr : Nat) :
    d.hash policy addr ≤ d.theHashMask := by
  cases policy with
  | rotated_prime => cases hmasked
  | full_prime => cases hmasked
  | prime => cases hmasked
  | simple => exact Nat.and_le_right
  | my_hash => exact Nat.and_le_right
  | overlap => exact Nat.and_le_right
  | xor => exact Nat.and_le_right
  | shift shift => exact Nat.and_le_right
  | matrix rows => exact Nat.and_le_right

theorem hash_lt_buckets (hprime : policy.isPrime = true) (hpos : 0 < d.theNumBuckets) :
    d.hash policy addr < d.theNumBuckets := by
  cases policy with
  | rotated_prime => exact Nat.mod_lt _ hpos
  | full_prime => exact Nat.mod_lt _ hpos
  | prime => exact Nat.mod_lt _ hpos
  | simple => cases hprime
  | my_hash => cases hprime
  | overlap => cases hprime
  | xor => cases hprime
  | shift shift => cases hprime
  | matrix rows => cases hprime

end TaglessSizes

namespace TaglessConfig

variable {c : TaglessConfig} {d : TaglessSizes}

/-- What an accepted configuration leads to. -/
structure Leads (c : TaglessConfig) (d : TaglessSizes) : Prop where
  partitioned : d.thePartitioned = c.thePartitioned
  mask : d.theHashMask = c.theNumBuckets - 1
  total : d.theTotalNumBuckets =
    if c.thePartitioned then c.theHashPolicyList.length * c.theNumBuckets else c.theNumBuckets
  fns : d.hash_fns = c.theHashPolicyList
  fns_ne : d.hash_fns ≠ []
  buckets_le : d.theNumBuckets ≤ c.theNumBuckets
  buckets_pos : 0 < d.theNumBuckets

theorem leads_of_init (h : c.init = .ok d) : c.Leads d := by
  unfold init at h
  split at h
  · cases h
  · next hgood =>
    push Not at hgood
    obtain ⟨-, hbuckets, -, hlist⟩ := hgood
    obtain ⟨hkeeps, hfns⟩ := TaglessSizes.foldlM_ok h
    have hfns' : d.hash_fns = c.theHashPolicyList := hfns
    refine ⟨hkeeps.partitioned, hkeeps.mask, hkeeps.total, hfns', ?_, hkeeps.buckets_le,
      hkeeps.buckets_pos (Nat.pos_of_ne_zero hbuckets)⟩
    rw [hfns']
    exact fun hnil => hlist (by rw [hnil]; rfl)

/-- An accepted configuration is carried through unless a prime policy looks for its number
    past the end of the table. -/
theorem exists_init_iff (haccepted : c.init ≠ .error .assertion) :
    (∃ d, c.init = .ok d) ↔
      ((∃ p ∈ c.theHashPolicyList, p.isPrime = true) → c.theNumBuckets < 7919) := by
  unfold init at haccepted ⊢
  split at haccepted
  · exact absurd rfl haccepted
  · next hgood =>
    rw [if_neg hgood]
    have hpast := TaglessSizes.foldlM_pastTable_iff haccepted
    cases hfold : c.theHashPolicyList.foldlM createHashPolicy c.sizes with
    | ok d =>
      refine iff_of_true ⟨d, rfl⟩ fun hprime => ?_
      by_contra hlarge
      have hlarge' : 7919 ≤ c.sizes.theNumBuckets := Nat.le_of_not_lt hlarge
      rw [hpast.mpr ⟨hprime, hlarge'⟩] at hfold
      cases hfold
    | error e =>
      cases e with
      | assertion => exact absurd hfold haccepted
      | pastTable =>
        obtain ⟨hprime, hlarge⟩ := hpast.mp hfold
        refine iff_of_false (fun ⟨d, hd⟩ => by cases hd) fun h => ?_
        exact absurd (h hprime) (Nat.not_lt.mpr hlarge)

end TaglessConfig

end nFastCMPCache
