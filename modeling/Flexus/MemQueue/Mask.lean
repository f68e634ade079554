import Flexus.Lib.Lanes
import Flexus.MemQueue.Entry

open Lanes

namespace nuArchARM

/-- The value bits an access of this size may set, at the low end of the word. -/
def mask : eSize → bits
  | .kByte => 0xFF#128
  | .kHalfWord => 0xFFFF#128
  | .kWord => 0xFFFFFFFF#128
  | .kDoubleWord => 0xFFFFFFFFFFFFFFFF#128
  | .kQuadWord => -1#128

/-- The distance, in bytes, from the end of the access to the end of its
    16-byte window. The subtraction is unsigned, so an access that leaves the
    window gets an enormous distance. -/
def offset (anEntry : MemQueueEntry) : BitVec 64 :=
  BitVec.ofNat 64 (16 - anEntry.theSize.bytes) - (anEntry.thePaddr - anEntry.thePaddr_aligned)

def makeMask (anEntry : MemQueueEntry) : bits :=
  (mask anEntry.theSize <<< ((16 - anEntry.theSize.bytes) * 8)) >>> (offset anEntry * 8#64).toNat

def covers (aStore aLoad : MemQueueEntry) : Bool :=
  makeMask aLoad &&& makeMask aStore == makeMask aLoad

def intersects (aStore aLoad : MemQueueEntry) : Bool :=
  makeMask aLoad &&& makeMask aStore != 0

/-- `align` of a value the entry holds: `*theValue << (16 - theSize) * 8`,
    moved down to the lanes of the access. -/
def align (anEntry : MemQueueEntry) (aValue : bits) : bits :=
  (aValue <<< ((16 - anEntry.theSize.bytes) * 8)) >>> (offset anEntry * 8#64).toNat

/-- The value `writeAligned` stores in the load value of an entry. -/
def writeAligned (anEntry : MemQueueEntry) (anAlignedValue : bits) : bits :=
  ((anAlignedValue &&& makeMask anEntry) <<< (offset anEntry * 8#64).toNat) >>>
    ((16 - anEntry.theSize.bytes) * 8)

/-- The load value after the bytes of a store value are pasted over it. -/
def overlay (aStore : MemQueueEntry) (aStoreValue : bits) (aLoad : MemQueueEntry)
    (aLoadValue : bits) : bits :=
  let available := makeMask aStore
  let store_aligned := align aStore aStoreValue
  let load_aligned := align aLoad aLoadValue &&& ~~~available
  writeAligned aLoad (load_aligned ||| (store_aligned &&& available))

namespace MemQueueEntry

/-- The position of the access in its 16-byte window. -/
def lead (e : MemQueueEntry) : Nat :=
  (e.thePaddr - e.thePaddr_aligned).toNat

/-- The access ends inside the 16-byte window that starts at its aligned address. -/
def InWindow (e : MemQueueEntry) : Prop :=
  e.lead + e.theSize.bytes ≤ 16

instance (e : MemQueueEntry) : Decidable e.InWindow :=
  inferInstanceAs (Decidable (_ ≤ _))

/-- The access touches this byte of memory. -/
def touches (e : MemQueueEntry) (a : PhysicalMemoryAddress) : Prop :=
  ∃ k, k < e.theSize.bytes ∧ a = e.thePaddr + BitVec.ofNat 64 k

instance (e : MemQueueEntry) (a : PhysicalMemoryAddress) : Decidable (e.touches a) :=
  inferInstanceAs (Decidable (∃ k, k < e.theSize.bytes ∧ a = e.thePaddr + BitVec.ofNat 64 k))

private theorem clear_three_bits (p : BitVec 64) : p &&& 0xFFFFFFFFFFFFFFF8#64 = p >>> 3 <<< 3 := by
  apply BitVec.eq_of_getLsbD_eq
  intro i hi
  simp only [BitVec.getLsbD_and, BitVec.getLsbD_shiftLeft, BitVec.getLsbD_ushiftRight]
  interval_cases i <;> simp

theorem Aligned.toNat_eq {e : MemQueueEntry} (haligned : e.Aligned) :
    e.thePaddr_aligned.toNat = e.thePaddr.toNat / 8 * 8 := by
  rw [haligned, clear_three_bits, clearLow_toNat]
  norm_num

theorem Aligned.lead_eq {e : MemQueueEntry} (haligned : e.Aligned) :
    e.lead = e.thePaddr.toNat % 8 := by
  have hbase := haligned.toNat_eq
  have hle : e.thePaddr_aligned ≤ e.thePaddr := by
    rw [BitVec.le_def, hbase]
    exact Nat.div_mul_le_self _ _
  rw [lead, BitVec.toNat_sub_of_le hle, hbase]
  omega

theorem Aligned.lead_lt {e : MemQueueEntry} (haligned : e.Aligned) : e.lead < 8 := by
  rw [haligned.lead_eq]
  exact Nat.mod_lt _ (by omega)

/-- Only a quad word that does not start on its bucket's boundary leaves the window. -/
theorem Aligned.not_inWindow_iff {e : MemQueueEntry} (haligned : e.Aligned) :
    ¬ e.InWindow ↔ e.theSize = .kQuadWord ∧ e.lead ≠ 0 := by
  have hlt := haligned.lead_lt
  unfold InWindow
  cases e.theSize <;> simp [eSize.bytes] <;> omega

end MemQueueEntry

theorem eSize.bytes_pos (s : eSize) : 0 < s.bytes := by
  cases s <;> decide

theorem eSize.bytes_le (s : eSize) : s.bytes ≤ 16 := by
  cases s <;> decide

theorem mask_eq_window (s : eSize) : mask s = window 128 0 s.bytes := by
  cases s <;> decide

private theorem offset_toNat {e : MemQueueEntry} (hwin : e.InWindow) :
    (offset e * 8#64).toNat = 8 * (16 - e.theSize.bytes - e.lead) := by
  have hlead : (e.thePaddr - e.thePaddr_aligned).toNat = e.lead := rfl
  have hsize := e.theSize.bytes_pos
  unfold MemQueueEntry.InWindow at hwin
  rw [offset]
  bv_omega

private theorem offset_toNat_large {e : MemQueueEntry} (haligned : e.Aligned) (hwin : ¬ e.InWindow) :
    128 ≤ (offset e * 8#64).toNat := by
  have hlead : (e.thePaddr - e.thePaddr_aligned).toNat = e.lead := rfl
  have hlt := haligned.lead_lt
  have hsize := e.theSize.bytes_le
  unfold MemQueueEntry.InWindow at hwin
  rw [offset]
  bv_omega

/-- The mask of an access inside its window is the window of its bytes. -/
theorem makeMask_eq_window {e : MemQueueEntry} (hwin : e.InWindow) :
    makeMask e = window 128 e.lead (e.lead + e.theSize.bytes) := by
  have hsize := e.theSize.bytes_le
  have hend : e.lead + e.theSize.bytes ≤ 16 := hwin
  rw [makeMask, mask_eq_window, offset_toNat hwin, Nat.mul_comm _ 8, window_shiftLeft,
    window_shiftRight (by omega) (by omega)]
  congr 1 <;> omega

/-- An access that leaves its window has an empty mask. -/
theorem makeMask_eq_zero {e : MemQueueEntry} (haligned : e.Aligned) (hwin : ¬ e.InWindow) :
    makeMask e = 0 := by
  rw [makeMask]
  exact BitVec.ushiftRight_eq_zero (offset_toNat_large haligned hwin)

/-- Two accesses in their windows intersect exactly when they share a lane. -/
theorem intersects_iff {s l : MemQueueEntry} (hs : s.InWindow) (hl : l.InWindow) :
    intersects s l = true ↔ ∃ k, (l.lead ≤ k ∧ k < l.lead + l.theSize.bytes) ∧
      s.lead ≤ k ∧ k < s.lead + s.theSize.bytes := by
  have hend : l.lead + l.theSize.bytes ≤ 16 := hl
  rw [intersects, makeMask_eq_window hs, makeMask_eq_window hl, bne_iff_ne]
  exact window_and_ne_zero_iff (by omega)

/-- A store covers a load exactly when its lanes include the load's. -/
theorem covers_iff {s l : MemQueueEntry} (hs : s.InWindow) (hl : l.InWindow) :
    covers s l = true ↔ s.lead ≤ l.lead ∧ l.lead + l.theSize.bytes ≤ s.lead + s.theSize.bytes := by
  have hend : l.lead + l.theSize.bytes ≤ 16 := hl
  have hpos := l.theSize.bytes_pos
  rw [covers, makeMask_eq_window hs, makeMask_eq_window hl, beq_iff_eq]
  exact window_and_eq_left_iff (by omega) (by omega)

theorem MemQueueEntry.thePaddr_eq (e : MemQueueEntry) :
    e.thePaddr = e.thePaddr_aligned + BitVec.ofNat 64 e.lead := by
  rw [lead, BitVec.ofNat_toNat, BitVec.setWidth_eq, BitVec.add_comm, BitVec.sub_add_cancel]

/-- Counted from the bucket, the bytes of an access are its lanes. -/
theorem touches_iff_lane (e : MemQueueEntry) (a : PhysicalMemoryAddress) :
    e.touches a ↔ ∃ k, (e.lead ≤ k ∧ k < e.lead + e.theSize.bytes) ∧
      a = e.thePaddr_aligned + BitVec.ofNat 64 k := by
  have hpaddr := e.thePaddr_eq
  constructor
  · rintro ⟨k, hk, rfl⟩
    refine ⟨e.lead + k, ⟨by omega, by omega⟩, ?_⟩
    rw [BitVec.ofNat_add, ← BitVec.add_assoc, ← hpaddr]
  · rintro ⟨k, ⟨hlo, hhi⟩, rfl⟩
    refine ⟨k - e.lead, by omega, ?_⟩
    have hk : BitVec.ofNat 64 k = BitVec.ofNat 64 e.lead + BitVec.ofNat 64 (k - e.lead) := by
      rw [← BitVec.ofNat_add]
      congr 1
      omega
    rw [hk, ← BitVec.add_assoc, ← hpaddr]

/-- Within one bucket, an access touches the `k`-th byte of another exactly when that byte lies in
    its lanes. -/
theorem touches_byte_iff {e l : MemQueueEntry} (hbucket : e.thePaddr_aligned = l.thePaddr_aligned)
    (he : e.InWindow) (hl : l.InWindow) {k : Nat} (hk : k < l.theSize.bytes) :
    e.touches (l.thePaddr + BitVec.ofNat 64 k) ↔
      e.lead ≤ l.lead + k ∧ l.lead + k < e.lead + e.theSize.bytes := by
  have heend : e.lead + e.theSize.bytes ≤ 16 := he
  have hlend : l.lead + l.theSize.bytes ≤ 16 := hl
  have hbyte : l.thePaddr + BitVec.ofNat 64 k =
      e.thePaddr_aligned + BitVec.ofNat 64 (l.lead + k) := by
    rw [l.thePaddr_eq, hbucket, BitVec.ofNat_add, BitVec.add_assoc]
  rw [touches_iff_lane, hbyte]
  constructor
  · rintro ⟨n, ⟨hlo, hhi⟩, heq⟩
    have hn : l.lead + k = n := by bv_omega
    omega
  · intro hin
    exact ⟨l.lead + k, hin, rfl⟩

theorem byte_distance {e l : MemQueueEntry} (hbucket : e.thePaddr_aligned = l.thePaddr_aligned)
    (hl : l.InWindow) {k : Nat} (hk : k < l.theSize.bytes) (hle : e.lead ≤ l.lead + k) :
    (l.thePaddr + BitVec.ofNat 64 k - e.thePaddr).toNat = l.lead + k - e.lead := by
  have hlend : l.lead + l.theSize.bytes ≤ 16 := hl
  rw [l.thePaddr_eq, e.thePaddr_eq, hbucket]
  bv_omega

/-- Two accesses of one bucket, in their windows, intersect exactly when they
    touch a common byte of memory. -/
theorem intersects_iff_touches {s l : MemQueueEntry} (hbucket : s.thePaddr_aligned = l.thePaddr_aligned)
    (hs : s.InWindow) (hl : l.InWindow) :
    intersects s l = true ↔ ∃ a, s.touches a ∧ l.touches a := by
  have hsend : s.lead + s.theSize.bytes ≤ 16 := hs
  have hlend : l.lead + l.theSize.bytes ≤ 16 := hl
  rw [intersects_iff hs hl]
  constructor
  · rintro ⟨k, hkl, hks⟩
    refine ⟨l.thePaddr_aligned + BitVec.ofNat 64 k, ?_, ?_⟩
    · exact (touches_iff_lane s _).mpr ⟨k, hks, by rw [hbucket]⟩
    · exact (touches_iff_lane l _).mpr ⟨k, hkl, rfl⟩
  · rintro ⟨a, hsa, hla⟩
    obtain ⟨k, hks, rfl⟩ := (touches_iff_lane s a).mp hsa
    obtain ⟨k', hkl, heq⟩ := (touches_iff_lane l _).mp hla
    rw [hbucket] at heq
    have hnat : k = k' := by bv_omega
    exact ⟨k, hnat ▸ hkl, hks⟩

/-- An access that leaves its window never intersects anything. -/
theorem inWindow_of_intersects {s l : MemQueueEntry} (hs : s.Aligned) (hl : l.Aligned)
    (hinter : intersects s l = true) : s.InWindow ∧ l.InWindow := by
  constructor <;> by_contra hout
  · rw [intersects, makeMask_eq_zero hs hout] at hinter
    simp at hinter
  · rw [intersects, makeMask_eq_zero hl hout] at hinter
    simp at hinter

/-- Aligning a value moves its byte `k` to the lane of the `k`-th byte of the access. -/
theorem lane_align {e : MemQueueEntry} (hwin : e.InWindow) (v : bits) {k : Nat}
    (hk : k < e.theSize.bytes) : lane (align e v) (e.lead + k) = lane v k := by
  have hsize := e.theSize.bytes_le
  have hend : e.lead + e.theSize.bytes ≤ 16 := hwin
  rw [align, offset_toNat hwin, Nat.mul_comm _ 8, lane_shiftRight,
    lane_shiftLeft _ (by omega) (by omega)]
  congr 1
  omega

/-- Writing an aligned value back takes byte `k` from the lane of the `k`-th byte. -/
theorem lane_writeAligned {e : MemQueueEntry} (hwin : e.InWindow) (v : bits) {k : Nat}
    (hk : k < e.theSize.bytes) : lane (writeAligned e v) k = lane v (e.lead + k) := by
  have hsize := e.theSize.bytes_le
  have hend : e.lead + e.theSize.bytes ≤ 16 := hwin
  rw [writeAligned, makeMask_eq_window hwin, offset_toNat hwin, Nat.mul_comm _ 8, lane_shiftRight,
    lane_shiftLeft _ (by omega) (by omega), lane_and_window _ (by omega) (by omega)]
  congr 1
  omega

/-- Overlaying a store replaces exactly the load bytes that lie in the store's lanes. -/
theorem lane_overlay_entry {s l : MemQueueEntry} (hs : s.InWindow) (hl : l.InWindow) (sv lv : bits)
    {k : Nat} (hk : k < l.theSize.bytes) :
    lane (overlay s sv l lv) k =
      if s.lead ≤ l.lead + k ∧ l.lead + k < s.lead + s.theSize.bytes then
        lane sv (l.lead + k - s.lead) else lane lv k := by
  rw [overlay, lane_writeAligned hl _ hk, makeMask_eq_window hs, lane_overlay, lane_align hl lv hk]
  split
  case isTrue hin =>
    have hsplit : l.lead + k = s.lead + (l.lead + k - s.lead) := by omega
    rw [hsplit, lane_align hs sv (by omega)]
    congr 1
    omega
  case isFalse hout => rfl

end nuArchARM
