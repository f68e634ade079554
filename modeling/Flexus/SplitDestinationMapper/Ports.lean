import Flexus.SplitDestinationMapper.Mapper

/-!
# The ports of the components

What the loops of `initialize` leave in the index maps and in the reverse maps, and when they
stay inside of them.
-/

namespace nSplitDestinationMapper

section Vectors

variable {l l' : List Int} {i v : Int}

theorem at?_natCast (l : List Int) (i : Nat) : at? l i = l[i]? := by
  unfold at?
  rw [if_pos (Int.natCast_nonneg i), Int.toNat_natCast]

theorem store?_eq_some :
    store? l i v = some l' ↔ (0 ≤ i ∧ i.toNat < l.length) ∧ l.set i.toNat v = l' := by
  unfold store?
  split
  · next hin => simp [hin]
  · next hout => simp [hout]

end Vectors

namespace PortMap

variable {offset : Int} {i : Nat} {loc : Int} {locs : List Int} {p p' : PortMap}

theorem place_eq_some : p.place offset i loc = some p' ↔
    i < p.index.length ∧ (0 ≤ loc ∧ loc.toNat < p.reverse.length) ∧
      p' = { index := p.index.set i (loc + offset), reverse := p.reverse.set loc.toNat i } := by
  unfold place
  simp only [Option.bind_eq_bind, Option.bind_eq_some_iff, store?_eq_some, Int.toNat_natCast,
    Int.natCast_nonneg, true_and]
  constructor
  · rintro ⟨_, ⟨hi, rfl⟩, _, ⟨hloc, rfl⟩, hp⟩
    exact ⟨hi, hloc, (Option.some.inj hp).symm⟩
  · rintro ⟨hi, hloc, rfl⟩
    exact ⟨_, ⟨hi, rfl⟩, _, ⟨hloc, rfl⟩, rfl⟩

/-- Put components at the nodes of a list, from the given component on. -/
def placeAll (offset : Int) : Nat → List Int → PortMap → Option PortMap
  | _, [], p => some p
  | i, loc :: locs, p => (p.place offset i loc).bind (placeAll offset (i + 1) locs)

/-- The components have the ports of their nodes, the others those they had, and a node that
    has one of the components leads back to it. -/
structure Placed (offset : Int) (i : Nat) (locs : List Int) (p p' : PortMap) : Prop where
  inside : ∀ loc ∈ locs, 0 ≤ loc ∧ loc.toNat < p.reverse.length
  room : locs ≠ [] → i + locs.length ≤ p.index.length
  length : p'.index.length = p.index.length
  placed : ∀ k loc, locs[k]? = some loc → p'.index[i + k]? = some (loc + offset)
  others : ∀ j, j < i ∨ i + locs.length ≤ j → p'.index[j]? = p.index[j]?
  unused : ∀ node : Nat, (node : Int) ∉ locs → p'.reverse[node]? = p.reverse[node]?
  back : locs.Nodup → ∀ k loc, locs[k]? = some loc → p'.reverse[loc.toNat]? = some ((i + k : Nat) : Int)

theorem placed_of_placeAll (h : p.placeAll offset i locs = some p') : Placed offset i locs p p' := by
  induction locs generalizing i p with
  | nil =>
    obtain rfl := Option.some.inj h
    exact ⟨by simp, by simp, rfl, by simp, fun _ _ => rfl, fun _ _ => rfl, by simp⟩
  | cons loc locs ih =>
    obtain ⟨q, hq, hrest⟩ := Option.bind_eq_some_iff.mp h
    obtain ⟨hi, hloc, rfl⟩ := place_eq_some.mp hq
    have hplaced := ih hrest
    have hback : (p.reverse.set loc.toNat (i : Int))[loc.toNat]? = some (i : Int) :=
      List.getElem?_set_self hloc.2
    refine ⟨?_, fun _ => ?_, ?_, fun k l hk => ?_, fun j hj => ?_, fun node hnode => ?_,
      fun hnodup k l hk => ?_⟩
    · intro l hl
      rcases List.mem_cons.mp hl with rfl | hmem
      · exact hloc
      · simpa using hplaced.inside l hmem
    · rw [List.length_cons]
      rcases eq_or_ne locs [] with rfl | hne
      · simpa using hi
      · have hroom := hplaced.room hne
        rw [List.length_set] at hroom
        omega
    · rw [hplaced.length, List.length_set]
    · cases k with
      | zero =>
        obtain rfl := Option.some.inj hk
        rw [Nat.add_zero, hplaced.others _ (.inl (Nat.lt_succ_self _))]
        exact List.getElem?_set_self hi
      | succ k =>
        rw [show i + (k + 1) = i + 1 + k by omega]
        exact hplaced.placed k l hk
    · rw [List.length_cons] at hj
      rw [hplaced.others j (by omega), List.getElem?_set_ne (by omega)]
    · have hmem : (node : Int) ∉ locs := fun hmem => hnode (List.mem_cons_of_mem _ hmem)
      have hne : loc.toNat ≠ node := by
        intro heq
        apply hnode
        rw [← heq, Int.toNat_of_nonneg hloc.1]
        exact List.mem_cons_self
      rw [hplaced.unused node hmem, List.getElem?_set_ne hne]
    · obtain ⟨hnew, hnodup'⟩ := List.nodup_cons.mp hnodup
      cases k with
      | zero =>
        obtain rfl := Option.some.inj hk
        rw [hplaced.unused _ (by rwa [Int.toNat_of_nonneg hloc.1])]
        exact hback
      | succ k =>
        rw [show i + (k + 1) = i + 1 + k by omega]
        exact hplaced.back hnodup' k l hk

theorem exists_placeAll (offset : Int) (i : Nat) (hinside : ∀ loc ∈ locs, 0 ≤ loc ∧ loc.toNat < p.reverse.length)
    (hroom : i + locs.length ≤ p.index.length) : ∃ p', p.placeAll offset i locs = some p' := by
  induction locs generalizing i p with
  | nil => exact ⟨p, rfl⟩
  | cons loc locs ih =>
    rw [List.length_cons] at hroom
    have hplace : p.place offset i loc =
        some { index := p.index.set i (loc + offset), reverse := p.reverse.set loc.toNat i } :=
      place_eq_some.mpr ⟨by omega, hinside loc List.mem_cons_self, rfl⟩
    obtain ⟨p', hp'⟩ := ih (i + 1)
      (p := { index := p.index.set i (loc + offset), reverse := p.reverse.set loc.toNat i })
      (fun l hl => by simpa using hinside l (List.mem_cons_of_mem _ hl))
      (by rw [List.length_set]; omega)
    exact ⟨p', Option.bind_eq_some_iff.mpr ⟨_, hplace, hp'⟩⟩

/-- A placed component has the port of a node, which leads back to it. -/
theorem Placed.node {k n : Nat}
    (h : Placed offset 0 locs (.unplaced k n) p) (hdistinct : locs.Nodup)
    (hi : i < locs.length) :
    ∃ node < n, p.index[i]? = some (node + offset) ∧ p.reverse[node]? = some (i : Int) := by
  have hget : locs[i]? = some locs[i] := List.getElem?_eq_getElem hi
  obtain ⟨hpos, hlt⟩ := h.inside locs[i] (List.getElem_mem hi)
  refine ⟨locs[i].toNat, by simpa [PortMap.unplaced] using hlt, ?_, ?_⟩
  · have hplaced := h.placed i _ hget
    rwa [Nat.zero_add, ← Int.toNat_of_nonneg hpos] at hplaced
  · have hback := h.back hdistinct i _ hget
    rwa [Nat.zero_add] at hback

end PortMap

namespace Config

variable {c : Config} {m m' : Maps}

theorem placeControllers_eq_some {i : Nat} {locs : List Int} :
    c.placeControllers i locs m = some m' ↔
      m.theMem.placeAll (c.offset MEM_PORT) i locs = some m'.theMem ∧
        if c.DirLocation = .eAtMemory then
          m.theDir.placeAll (c.offset DIR_PORT) i locs = some m'.theDir
        else m.theDir = m'.theDir := by
  induction locs generalizing i m with
  | nil =>
    obtain ⟨mem, dir⟩ := m
    obtain ⟨mem', dir'⟩ := m'
    unfold placeControllers PortMap.placeAll
    split <;> simp
  | cons loc locs ih =>
    unfold placeControllers PortMap.placeAll
    simp only [Option.bind_eq_bind, Option.bind_eq_some_iff, ih, placeDirectory]
    by_cases hat : c.DirLocation = .eAtMemory
    · simp only [if_pos hat]
      exact ⟨fun ⟨mem, hmem, dir, hdir, hmem', hdir'⟩ => ⟨⟨mem, hmem, hmem'⟩, dir, hdir, hdir'⟩,
        fun ⟨⟨mem, hmem, hmem'⟩, dir, hdir, hdir'⟩ => ⟨mem, hmem, dir, hdir, hmem', hdir'⟩⟩
    · simp only [if_neg hat]
      exact ⟨fun ⟨mem, hmem, dir, hdir, hmem', hdir'⟩ =>
          ⟨⟨mem, hmem, hmem'⟩, (Option.some.inj hdir).trans hdir'⟩,
        fun ⟨⟨mem, hmem, hmem'⟩, hdir⟩ => ⟨mem, hmem, _, rfl, hmem', hdir⟩⟩

theorem theTotalNumCores_pos : 0 < c.theTotalNumCores := by
  unfold theTotalNumCores
  split
  · next h => exact Nat.pos_of_ne_zero h
  · exact c.systemWidth_pos

/-- What an accepted configuration leads to. -/
structure Leads (c : Config) (m : Maps) : Prop where
  banks_le : c.Banks ≤ c.Directories
  length : c.MemLocation.length = c.MemControllers
  mem : PortMap.Placed (c.offset MEM_PORT) 0 c.MemLocation
    (.unplaced c.MemControllers c.theTotalNumCores) m.theMem
  atMemory : c.DirLocation = .eAtMemory → PortMap.Placed (c.offset DIR_PORT) 0 c.MemLocation
    (.unplaced c.Directories c.theTotalNumCores) m.theDir
  distributed : c.DirLocation = .eDistributed →
    c.Directories = c.theTotalNumCores ∧ m.theDir = c.distributed

theorem leads_of_init (h : c.init = .ok m) : c.Leads m := by
  unfold init at h
  split at h
  · cases h
  · next hgood =>
    obtain ⟨-, -, -, -, hbanks, hlength⟩ := not_not.mp hgood
    split at h
    · cases h
    · next placed hplaced =>
      obtain ⟨hmem, hdir⟩ := placeControllers_eq_some.mp hplaced
      split at h
      · next hat =>
        obtain rfl := Except.ok.inj h
        rw [if_pos hat] at hdir
        refine ⟨hbanks, hlength, PortMap.placed_of_placeAll hmem,
          fun _ => PortMap.placed_of_placeAll hdir, fun hdist => ?_⟩
        rw [hat] at hdist
        cases hdist
      · next hdist =>
        split at h
        · next hsame =>
          obtain rfl := Except.ok.inj h
          refine ⟨hbanks, hlength, PortMap.placed_of_placeAll hmem, fun hat => ?_, fun _ => ⟨hsame, rfl⟩⟩
          rw [hdist] at hat
          cases hat
        · cases h

/-- An accepted configuration is carried through when its controllers are at nodes there are,
    and fit into the directories they are placed with. -/
theorem exists_init (haccepted : c.init ≠ .error .assertion)
    (hinside : ∀ loc ∈ c.MemLocation, 0 ≤ loc ∧ loc < c.theTotalNumCores)
    (hroom : c.DirLocation = .eAtMemory → c.MemControllers ≤ c.Directories) :
    ∃ m, c.init = .ok m := by
  unfold init at haccepted ⊢
  split at haccepted
  · exact absurd rfl haccepted
  · next hgood =>
    rw [if_neg hgood]
    obtain ⟨-, -, -, -, -, hlength⟩ := not_not.mp hgood
    have hnodes : ∀ n, ∀ loc ∈ c.MemLocation,
        0 ≤ loc ∧ loc.toNat < (PortMap.unplaced n c.theTotalNumCores).reverse.length := by
      intro n loc hloc
      have hin := hinside loc hloc
      rw [PortMap.unplaced, List.length_replicate]
      omega
    have hplaced : ∃ placed, c.placeControllers 0 c.MemLocation
        { theMem := .unplaced c.MemControllers c.theTotalNumCores
          theDir := .unplaced c.Directories c.theTotalNumCores } = some placed := by
      obtain ⟨mem, hmem⟩ := PortMap.exists_placeAll (c.offset MEM_PORT) 0
        (hnodes c.MemControllers) (by simp [PortMap.unplaced, hlength])
      by_cases hat : c.DirLocation = .eAtMemory
      · obtain ⟨dir, hdir⟩ := PortMap.exists_placeAll (c.offset DIR_PORT) 0
          (hnodes c.Directories) (by simpa [PortMap.unplaced, hlength] using hroom hat)
        refine ⟨{ theMem := mem, theDir := dir }, placeControllers_eq_some.mpr ⟨hmem, ?_⟩⟩
        rwa [if_pos hat]
      · refine ⟨{ theMem := mem, theDir := .unplaced c.Directories c.theTotalNumCores },
          placeControllers_eq_some.mpr ⟨hmem, ?_⟩⟩
        rw [if_neg hat]
    obtain ⟨placed, hplaced⟩ := hplaced
    rw [hplaced] at haccepted ⊢
    cases hdist : c.DirLocation with
    | eAtMemory => exact ⟨placed, rfl⟩
    | eDistributed =>
      simp only [hdist] at haccepted ⊢
      split at haccepted
      · next hsame =>
        rw [if_pos hsame]
        exact ⟨_, rfl⟩
      · exact absurd rfl haccepted

end Config

end nSplitDestinationMapper
