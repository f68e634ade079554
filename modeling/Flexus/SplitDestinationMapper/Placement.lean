import Flexus.SplitDestinationMapper.Homes

/-!
# Messages that do not arrive

Where a system is not well placed some message fails to reach whom it names, so that the
placement is exactly what the mapper relies on.
-/

namespace nSplitDestinationMapper

namespace Config

variable {c : Config} {m : Maps} {net : NetworkMessage} {k i : Nat}

theorem bank_of_dirOf {node : Nat} (h : c.dirOf m node = some k) : k < c.Banks := by
  unfold dirOf at h
  obtain ⟨dir, -, h⟩ := Option.bind_eq_some_iff.mp h
  split at h
  · cases h
  · next hbanks =>
    dsimp only at h
    split at h
    · next hdir =>
      obtain rfl := Option.some.inj h
      have hlt := Int.tmod_lt_of_pos dir (b := c.Banks) (by omega)
      omega
    · cases h

theorem bank_of_deliver (h : c.deliver m net = some (.DirSnoopOut k)) : k < c.Banks := by
  unfold deliver at h
  split at h
  · dsimp only at h
    split at h
    · unfold FromNIC0 at h
      split at h
      · split at h
        · split at h <;> cases h
        · cases h
      · split at h
        · obtain ⟨index, hindex, hout⟩ := Option.map_eq_some_iff.mp h
          split at hout
          · cases hout
          · obtain rfl := Output.DirSnoopOut.inj hout
            exact bank_of_dirOf hindex
          · cases hout
        · split at h
          · obtain ⟨index, -, hout⟩ := Option.map_eq_some_iff.mp h
            cases hout
          · cases h
    · unfold FromNIC1 at h
      split at h
      · split at h <;> cases h
      · cases h
  · cases h

/-- A directory at memory that has no controller is nowhere. -/
theorem unplaced_directory (hleads : c.Leads m) (hat : c.DirLocation = .eAtMemory) (hk : c.MemControllers ≤ k) :
    at? m.theDir.index k = none ∨ at? m.theDir.index k = some (-1) := by
  have hothers := (hleads.atMemory hat).others k (.inr (by rw [hleads.length]; omega))
  rw [at?_natCast, hothers, PortMap.unplaced]
  dsimp only
  rw [List.getElem?_replicate]
  split
  · exact .inr rfl
  · exact .inl rfl

namespace Delivers

variable (h : c.Delivers m)
include h

/-- A message to a directory arrives there. -/
theorem toDirectory (requester : Int) (hhas : c.Has (.DirectoryBank k)) (hlt : requester < 2 * c.theTotalNumCores) :
    ∃ net, c.buildNetworkMessage m { type := .Directory, requester := requester, directory := k } 0 .SNOOP_VC =
      some net ∧ c.ValidPort net.dest ∧ c.deliver m net = some (.DirSnoopOut k) :=
  h _ 0 .SNOOP_VC (.DirectoryBank k) _ (homeNamed_eq_some.mpr ⟨k, rfl, rfl⟩) hhas hlt rfl

theorem bank_lt (hhas : c.Has (.DirectoryBank k)) : k < c.Banks := by
  have hcores := theTotalNumCores_pos (c := c)
  obtain ⟨net, -, -, hout⟩ := h.toDirectory (-1) hhas (by omega)
  exact bank_of_deliver hout

theorem toMemory (hhas : c.Has (.MemoryController i)) :
    ∃ net, c.buildNetworkMessage m { type := .Memory, memory := i } 0 .REPLY_VC = some net ∧
      c.ValidPort net.dest ∧ c.deliver m net = some (.MemoryOut i) :=
  h _ 0 .REPLY_VC (.MemoryController i) _ (homeNamed_eq_some.mpr ⟨i, rfl, rfl⟩) hhas
    (by have := theTotalNumCores_pos (c := c); dsimp only; omega) rfl

theorem cores_ne : c.Cores ≠ 0 := by
  have hcores := theTotalNumCores_pos (c := c)
  obtain ⟨net, hnet, hvalid, -⟩ := h { type := .Requester, requester := 0 } 0 .SNOOP_VC (.DataCache 0) _ rfl hcores
    (by dsimp only; omega) rfl
  obtain rfl := Option.some.inj hnet
  rintro hzero
  have hlt := hvalid.2
  rw [hzero] at hlt
  revert hlt
  decide

theorem hashed (hle : c.Banks ≤ c.Directories) (hxor : 0 < c.DirXORShift) (hne : c.DirXORShift ≠ c.theDirShift) :
    c.Banks = c.Directories := by
  have hshift : c.theDirShift < 31 := by
    unfold theDirShift
    rcases Nat.eq_zero_or_pos c.DirInterleaving with hzero | hpos
    · rw [hzero]
      decide
    · exact (Nat.log2_lt (by omega)).mpr c.dirInterleaving_lt
  have hmask : c.theDirMask < 2 ^ 31 := by
    have hlt := c.directories_lt
    unfold theDirMask
    omega
  obtain ⟨a, ha, hall⟩ := BitFields.exists_xor_shifts_and
    (s := c.theDirShift) (t := c.DirXORShift.toNat) (by omega) hmask
  have hsmall : a < 2 ^ 64 := lt_of_lt_of_le ha (Nat.pow_le_pow_right (by omega) (by omega))
  have hlast := h.bank_lt (.inr ⟨a, hsmall, rfl⟩)
  unfold getDirectoryLocation at hlast
  rw [if_pos hxor, hall] at hlast
  unfold theDirMask at hlast
  omega

theorem distinct (hleads : c.Leads m) : c.MemLocation.Nodup := by
  rw [List.nodup_iff_getElem?_ne_getElem?]
  intro i j hij hj heq
  have hi : i < c.MemLocation.length := hij.trans hj
  have hindex : ∀ k, (hk : k < c.MemLocation.length) →
      at? m.theMem.index k = some (c.MemLocation[k] + c.offset MEM_PORT) := by
    intro k hk
    have hplaced := hleads.mem.placed k _ (List.getElem?_eq_getElem hk)
    rw [Nat.zero_add] at hplaced
    rw [at?_natCast, hplaced]
  have hsame : c.MemLocation[i] = c.MemLocation[j] := by
    rw [List.getElem?_eq_getElem hi, List.getElem?_eq_getElem hj] at heq
    exact Option.some.inj heq
  obtain ⟨net, hnet, -, hout⟩ := h.toMemory (i := i) (.inl (hleads.length ▸ hi))
  obtain ⟨net', hnet', -, hout'⟩ := h.toMemory (i := j) (.inl (hleads.length ▸ hj))
  unfold buildNetworkMessage at hnet hnet'
  dsimp only at hnet hnet'
  rw [hindex i hi, hsame] at hnet
  rw [hindex j hj] at hnet'
  obtain rfl := Option.some.inj (hnet.symm.trans hnet')
  exact absurd (Output.MemoryOut.inj (Option.some.inj (hout.symm.trans hout'))) (Nat.ne_of_lt hij)

theorem local_one (hlocal : c.LocalDir = true) (hbanks : 0 < c.Banks) : c.Banks = 1 := by
  by_contra hmany
  have hcores := theTotalNumCores_pos (c := c)
  obtain ⟨net, hnet, -, hout⟩ := h.toDirectory 0 (k := 0) (.inl hbanks) (by omega)
  obtain ⟨net', hnet', -, hout'⟩ := h.toDirectory 0 (k := 1) (.inl (by omega)) (by omega)
  unfold buildNetworkMessage at hnet hnet'
  dsimp only at hnet hnet'
  rw [if_pos ⟨hlocal, le_rfl⟩] at hnet hnet'
  obtain rfl := Option.some.inj (hnet.symm.trans hnet')
  cases hout.symm.trans hout'

theorem local_fits (hleads : c.Leads m) (hlocal : c.LocalDir = true) (hbanks : 0 < c.Banks)
    (hat : c.DirLocation = .eAtMemory) : c.theTotalNumCores ≤ c.MemControllers := by
  by_contra hfew
  obtain ⟨net, hnet, hvalid, -⟩ := h.toDirectory (2 * (c.MemControllers : Int)) (k := 0)
    (.inl hbanks) (by omega)
  unfold buildNetworkMessage at hnet
  dsimp only at hnet
  rw [if_pos ⟨hlocal, by omega⟩, Int.mul_ediv_cancel_left _ (by decide)] at hnet
  rcases unplaced_directory hleads hat le_rfl with hnone | hneg
  · rw [hnone] at hnet
    cases hnet
  · rw [hneg] at hnet
    obtain rfl := Option.some.inj hnet
    exact absurd hvalid.1 (by decide)

theorem banks_fit (hleads : c.Leads m) (hat : c.DirLocation = .eAtMemory) : c.Banks ≤ c.MemControllers := by
  by_contra hmany
  have hcores := theTotalNumCores_pos (c := c)
  obtain ⟨net, hnet, hvalid, -⟩ := h.toDirectory (-1) (k := c.MemControllers) (.inl (by omega))
    (by omega)
  unfold buildNetworkMessage at hnet
  dsimp only at hnet
  rw [if_neg (by simp), if_pos (by omega)] at hnet
  rcases unplaced_directory hleads hat le_rfl with hnone | hneg
  · rw [hnone] at hnet
    cases hnet
  · rw [hneg] at hnet
    obtain rfl := Option.some.inj hnet
    exact absurd hvalid.1 (by decide)

theorem wellPlaced (hleads : c.Leads m) : c.WellPlaced := by
  have hcores := h.cores_ne
  have hsame : c.theTotalNumCores = c.Cores := if_pos hcores
  have hbanks : 0 < c.Banks := Nat.zero_lt_of_lt (h.bank_lt (.inr ⟨0, by decide, rfl⟩))
  have hcontrollers : 0 < c.MemControllers := by
    obtain ⟨net, hnet, -⟩ := h.toMemory (.inr ⟨0, by decide, rfl⟩)
    obtain ⟨port, hport, -⟩ := Option.map_eq_some_iff.mp hnet
    rw [at?_natCast] at hport
    obtain ⟨hlt, -⟩ := List.getElem?_eq_some_iff.mp hport
    rw [hleads.mem.length, PortMap.unplaced, List.length_replicate] at hlt
    exact Nat.zero_lt_of_lt hlt
  refine ⟨hcores, hbanks, hcontrollers, fun loc hloc => ?_, h.distinct hleads, fun hat => ⟨h.banks_fit hleads hat, ?_⟩,
    h.hashed hleads.banks_le, fun hlocal => ⟨h.local_one hlocal hbanks, fun hat => ?_⟩⟩
  · obtain ⟨hpos, hlt⟩ := hleads.mem.inside loc hloc
    rw [PortMap.unplaced, List.length_replicate] at hlt
    omega
  · have hroom := (hleads.atMemory hat).room (by rw [← List.length_pos_iff, hleads.length]; exact hcontrollers)
    rw [PortMap.unplaced, List.length_replicate, hleads.length] at hroom
    omega
  · exact hsame ▸ h.local_fits hleads hlocal hbanks hat

end Delivers

/-- Messages reach whom they name, and agree on the homes of an address, exactly in a
    well-placed system. -/
theorem sound_iff (haccepted : c.init ≠ .error .assertion) : c.Sound ↔ c.WellPlaced := by
  constructor
  · rintro ⟨m, hinit, hdelivers, -⟩
    exact hdelivers.wellPlaced (leads_of_init hinit)
  · intro h
    have hsame : c.theTotalNumCores = c.Cores := if_pos h.cores
    obtain ⟨m, hinit⟩ := exists_init haccepted (fun loc hloc => hsame.symm ▸ h.inside loc hloc)
      (fun hat => (h.atMemory hat).2)
    have hleads := leads_of_init hinit
    exact ⟨m, hinit, h.delivers hleads, h.agreesOnHomes hleads⟩

/-- Four cores, with directories at the two memory controllers. -/
def fewControllers : Config where
  Cores := 4
  systemWidth := 4
  MemControllers := 2
  Directories := 4
  Banks := 4
  DirInterleaving := 64
  MemInterleaving := 4096
  DirXORShift := 0
  MemXORShift := 0
  DirLocation := .eAtMemory
  MemLocation := [0, 3]
  MemReplyToDir := true
  MemAcksNeedData := true
  TwoPhaseWB := false
  LocalDir := false
  systemWidth_pos := by decide
  directories_lt := by decide
  dirInterleaving_lt := by decide

theorem sound_iff_fewControllers :
    fewControllers.init ≠ .error .assertion ∧ (fewControllers.Sound ↔ fewControllers.WellPlaced) :=
  ⟨by decide, sound_iff (by decide)⟩

/-- What `initialize` leaves for the four cores. -/
def fewControllersMaps : Maps where
  theMem := { index := [8, 11], reverse := [0, -1, -1, 1] }
  theDir := { index := [4, 7, -1, -1], reverse := [0, -1, -1, 1] }

/-- The third directory has no port, although addresses are mapped to it. -/
theorem request_without_port : fewControllers.init = .ok fewControllersMaps ∧
    fewControllers.getDirectoryLocation 128 = 2 ∧
      ((fewControllers.push fewControllersMaps .CacheRequestIn 0
        { msg := { type := .ReadReq, address := 128 }, dest := none }).map fun sent => sent.2.dest) = some (-1) ∧
          (¬ fewControllers.ValidPort (-1)) ∧ ¬ fewControllers.Sound := by
  have hinit : fewControllers.init = .ok fewControllersMaps := by decide
  refine ⟨hinit, by decide, by decide, by decide, ?_⟩
  rintro ⟨m, hm, hdelivers, -⟩
  have hfit := hdelivers.banks_fit (leads_of_init hm) rfl
  revert hfit
  decide

end Config

end nSplitDestinationMapper
