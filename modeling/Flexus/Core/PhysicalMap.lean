import Flexus.Lib.Outcomes
import Flexus.Lib.Runs

/-!
# Register renaming

`PhysicalMap` renames architectural register names to physical registers. An
instruction takes a register when it is renamed, gives back the register it
replaced when it retires, and gives back its own when it is squashed.
-/

namespace nuArchARM

open Runs

abbrev regName := Nat

abbrev pRegister := Nat

/-- The assertions of `PhysicalMap`, and its access to the head of an empty list. -/
inductive MapFault where
  | unknownName
  | noRegister
  | freeListEmpty
  | alreadyAssigned
  | notAssigned
  | stillMapped
  | notFound
  deriving DecidableEq, Repr

/-- The tables of one register file. A register that belongs to no name has no
    reverse mapping; the program writes -1 there. -/
structure PhysicalMap where
  theNameCount : Nat
  theRegisterCount : Nat
  theMappings : regName → pRegister
  theFreeList : List pRegister
  theAssignedRegisters : regName → List pRegister
  theReverseMappings : pRegister → Option regName

namespace PhysicalMap

/-- Every name starts with the register of its own number. -/
def reset (aNameCount aRegisterCount : Nat) : PhysicalMap where
  theNameCount := aNameCount
  theRegisterCount := aRegisterCount
  theMappings := fun n => n
  theFreeList := List.range' aNameCount (aRegisterCount - aNameCount)
  theAssignedRegisters := fun n => [n]
  theReverseMappings := fun r => if r < aNameCount then some r else none

/-- The youngest register of a name. -/
def map (m : PhysicalMap) (aRegisterName : regName) : Except MapFault pRegister :=
  if m.theNameCount ≤ aRegisterName then .error .unknownName
  else .ok (m.theMappings aRegisterName)

/-- The oldest register of a name, which holds its architectural value. -/
def mapArchitectural (m : PhysicalMap) (aRegisterName : regName) : Except MapFault pRegister :=
  if m.theNameCount ≤ aRegisterName then .error .unknownName
  else
    match m.theAssignedRegisters aRegisterName with
    | [] => .error .noRegister
    | r :: _ => .ok r

/-- The new register of a name, with the one it replaces. -/
def create (m : PhysicalMap) (aRegisterName : regName) :
    Except MapFault (PhysicalMap × pRegister × pRegister) :=
  if m.theNameCount ≤ aRegisterName then .error .unknownName
  else
    match m.theFreeList with
    | [] => .error .freeListEmpty
    | new_reg :: rest =>
      if m.theReverseMappings new_reg ≠ none then .error .alreadyAssigned
      else
        .ok ({ m with
          theFreeList := rest
          theMappings := Function.update m.theMappings aRegisterName new_reg
          theAssignedRegisters := Function.update m.theAssignedRegisters aRegisterName
            (m.theAssignedRegisters aRegisterName ++ [new_reg])
          theReverseMappings := Function.update m.theReverseMappings new_reg (some aRegisterName) },
          new_reg, m.theMappings aRegisterName)

def free (m : PhysicalMap) (aRegister : pRegister) : Except MapFault PhysicalMap :=
  match m.theReverseMappings aRegister with
  | none => .error .notAssigned
  | some arch_name =>
    if m.theNameCount ≤ arch_name then .error .notAssigned
    else if m.theMappings arch_name = aRegister then .error .stillMapped
    else if aRegister ∉ m.theAssignedRegisters arch_name then .error .notFound
    else
      .ok { m with
        theFreeList := m.theFreeList ++ [aRegister]
        theReverseMappings := Function.update m.theReverseMappings aRegister none
        theAssignedRegisters := Function.update m.theAssignedRegisters arch_name
          ((m.theAssignedRegisters arch_name).erase aRegister) }

/-- What `free` does when none of its assertions fires. -/
theorem free_eq {m : PhysicalMap} {r : pRegister} {n : regName}
    (hreverse : m.theReverseMappings r = some n) (hname : n < m.theNameCount)
    (hmapping : m.theMappings n ≠ r) (hassigned : r ∈ m.theAssignedRegisters n) :
    m.free r = .ok { m with
      theFreeList := m.theFreeList ++ [r]
      theReverseMappings := Function.update m.theReverseMappings r none
      theAssignedRegisters := Function.update m.theAssignedRegisters n
        ((m.theAssignedRegisters n).erase r) } := by
  simp only [free, hreverse]
  rw [if_neg (Nat.not_le.mpr hname), if_neg hmapping, if_neg (not_not.mpr hassigned)]

def restore (m : PhysicalMap) (aRegisterName : regName) (aReg : pRegister) : PhysicalMap :=
  { m with theMappings := Function.update m.theMappings aRegisterName aReg }

end PhysicalMap

/-- What an instruction in flight remembers of its renaming. -/
structure Rename where
  name : regName
  new : pRegister
  previous : pRegister
  deriving DecidableEq, Repr

/-- A register file with the renamings in flight, oldest first, and the register
    that was last retired for each name. -/
structure Renaming where
  theMap : PhysicalMap
  inFlight : List Rename
  retired : regName → pRegister

inductive RenameEvent where
  | create (aRegisterName : regName)
  | retire
  | squash
  deriving DecidableEq, Repr

namespace Renaming

/-- Nothing is in flight, and every name has its first register. -/
def start (aNameCount aRegisterCount : Nat) : Renaming where
  theMap := .reset aNameCount aRegisterCount
  inFlight := []
  retired := fun n => n

/-- The oldest instruction retires and frees the register it replaced; the youngest
    one is squashed, gives its name back the previous register and frees its own. -/
def step (s : Renaming) : RenameEvent → Except MapFault Renaming
  | .create n => do
    let (m, new, previous) ← s.theMap.create n
    pure { s with theMap := m, inFlight := s.inFlight ++ [⟨n, new, previous⟩] }
  | .retire =>
    match s.inFlight with
    | [] => pure s
    | x :: younger => do
      let m ← s.theMap.free x.previous
      pure { theMap := m, inFlight := younger, retired := Function.update s.retired x.name x.new }
  | .squash =>
    match s.inFlight.getLast? with
    | none => pure s
    | some x => do
      let m ← (s.theMap.restore x.name x.previous).free x.new
      pure { s with theMap := m, inFlight := s.inFlight.dropLast }

abbrev Reachable (aNameCount aRegisterCount : Nat) : Renaming → Prop :=
  Reaches step Anything (start aNameCount aRegisterCount)

end Renaming

/-! ## The versions of a name -/

/-- A list of lists in which one list has an additional element. -/
theorem flatMap_perm_cons {α β : Type*} {f g : α → List β} {l : List α} {a : α} {b : β}
    (hnodup : l.Nodup) (hmem : a ∈ l) (ha : (g a).Perm (b :: f a)) (hother : ∀ c ≠ a, g c = f c) :
    (l.flatMap g).Perm (b :: l.flatMap f) := by
  induction l with
  | nil => simp at hmem
  | cons c l ih =>
    obtain ⟨hnotin, hnodup⟩ := List.nodup_cons.mp hnodup
    rw [List.flatMap_cons, List.flatMap_cons]
    by_cases hc : c = a
    · subst hc
      have hrest : l.flatMap g = l.flatMap f := by
        apply List.flatMap_congr
        intro d hd
        exact hother d fun hdc => hnotin (hdc ▸ hd)
      rw [hrest]
      exact ha.append_right _
    · have hin : a ∈ l := (List.mem_cons.mp hmem).resolve_left fun h => hc h.symm
      rw [hother c hc]
      exact ((ih hnodup hin).append_left _).trans List.perm_middle

namespace Rename

/-- The register of each name once a renaming has retired. -/
def apply (arch : regName → pRegister) (x : Rename) : regName → pRegister :=
  Function.update arch x.name x.new

/-- The register of each name after the renamings of a list, oldest first. -/
def current (arch : regName → pRegister) (w : List Rename) : regName → pRegister :=
  w.foldl apply arch

/-- Each renaming replaces the register the ones before it left to its name. -/
def Chained : (regName → pRegister) → List Rename → Prop
  | _, [] => True
  | arch, x :: w => x.previous = arch x.name ∧ Chained (apply arch x) w

/-- The registers of a name: the architectural one, then those in flight. -/
def versions (arch : regName → pRegister) (w : List Rename) (n : regName) : List pRegister :=
  arch n :: (w.filter (·.name = n)).map (·.new)

variable {arch : regName → pRegister} {x : Rename} {w : List Rename} {n : regName}

theorem current_append : current arch (w ++ [x]) = apply (current arch w) x := by
  simp [current]

theorem chained_append :
    Chained arch (w ++ [x]) ↔ Chained arch w ∧ x.previous = current arch w x.name := by
  induction w generalizing arch with
  | nil => simp [Chained, current]
  | cons y w ih =>
    have hcurrent : current arch (y :: w) = current (apply arch y) w := by simp [current]
    rw [List.cons_append]
    simp only [Chained, ih, hcurrent]
    tauto

theorem versions_append : versions arch (w ++ [x]) n =
    if n = x.name then versions arch w n ++ [x.new] else versions arch w n := by
  by_cases hn : n = x.name
  · simp [versions, hn]
  · have hne : ¬ x.name = n := fun h => hn h.symm
    simp [versions, hn, hne]

/-- What retires is the oldest register of its name. -/
theorem versions_cons : versions arch (x :: w) n =
    if n = x.name then arch n :: versions (apply arch x) w n else versions (apply arch x) w n := by
  by_cases hn : n = x.name
  · simp [versions, apply, hn]
  · have hne : ¬ x.name = n := fun h => hn h.symm
    simp [versions, apply, hn, hne]

/-- The youngest version is the current register. -/
theorem versions_getLast? : (versions arch w n).getLast? = some (current arch w n) := by
  induction w generalizing arch with
  | nil => simp [versions, current]
  | cons x w ih =>
    have hcurrent : current arch (x :: w) = current (apply arch x) w := by simp [current]
    rw [versions_cons, hcurrent]
    by_cases hn : n = x.name
    · rw [if_pos hn, ← ih, versions, List.getLast?_cons_cons]
    · rw [if_neg hn, ih]

theorem current_mem_versions : current arch w n ∈ versions arch w n :=
  List.mem_of_getLast? versions_getLast?

/-- Renaming a name adds one register to what the names of a list have. -/
theorem flatMap_versions_append {names : List regName} (hnodup : names.Nodup)
    (hmem : x.name ∈ names) :
    (names.flatMap (versions arch (w ++ [x]))).Perm (x.new :: names.flatMap (versions arch w)) := by
  refine flatMap_perm_cons hnodup hmem ?_ ?_
  · rw [versions_append, if_pos rfl]
    exact List.perm_append_singleton x.new _
  · intro m hm
    rw [versions_append, if_neg hm]

/-- Retiring takes the register that was replaced from what the names of a list have. -/
theorem flatMap_versions_cons {names : List regName} (hnodup : names.Nodup)
    (hmem : x.name ∈ names) :
    (names.flatMap (versions arch (x :: w))).Perm
      (arch x.name :: names.flatMap (versions (apply arch x) w)) := by
  refine flatMap_perm_cons hnodup hmem ?_ ?_
  · rw [versions_cons, if_pos rfl]
  · intro m hm
    rw [versions_cons, if_neg hm]

/-- The names of a list have their architectural registers and those in flight. -/
theorem length_flatMap_versions {names : List regName} (hnodup : names.Nodup)
    (hmem : ∀ y ∈ w, y.name ∈ names) :
    (names.flatMap (versions arch w)).length = names.length + w.length := by
  induction w generalizing arch with
  | nil =>
    have hone : ∀ n, (versions arch [] n).length = 1 := by simp [versions]
    simp [List.length_flatMap, hone]
  | cons x w ih =>
    have hx : x.name ∈ names := hmem x List.mem_cons_self
    have hw : ∀ y ∈ w, y.name ∈ names := fun y hy => hmem y (List.mem_cons_of_mem _ hy)
    rw [(flatMap_versions_cons hnodup hx).length_eq, List.length_cons, ih hw, List.length_cons]
    omega

end Rename

/-! ## The partition of the registers -/

namespace Renaming

open Rename

/-- The tables of the map are those of the renamings in flight over the retired
    registers, and they share the registers out with the free list. -/
structure Partitioned (aNameCount aRegisterCount : Nat) (s : Renaming) : Prop where
  names : s.theMap.theNameCount = aNameCount
  inFlight_name_lt : ∀ x ∈ s.inFlight, x.name < aNameCount
  chained : Chained s.retired s.inFlight
  mappings : s.theMap.theMappings = current s.retired s.inFlight
  assigned : s.theMap.theAssignedRegisters = versions s.retired s.inFlight
  reverse : ∀ r n, s.theMap.theReverseMappings r = some n ↔
    n < aNameCount ∧ r ∈ versions s.retired s.inFlight n
  partition : ((List.range aNameCount).flatMap (versions s.retired s.inFlight) ++
    s.theMap.theFreeList).Perm (List.range aRegisterCount)

variable {N R : Nat} {s s' : Renaming}

theorem start_partitioned (hle : N ≤ R) : Partitioned N R (start N R) where
  names := rfl
  inFlight_name_lt := by simp [start]
  chained := trivial
  mappings := rfl
  assigned := rfl
  reverse := by
    intro r n
    simp only [start, PhysicalMap.reset, versions, List.filter_nil, List.map_nil,
      List.mem_singleton]
    grind
  partition := by
    have hself : (List.range N).flatMap (versions (fun n => n) []) = List.range N :=
      List.flatMap_singleton' _
    have hsplit := @List.range'_append_1 0 N (R - N)
    rw [Nat.zero_add, Nat.add_sub_cancel' hle, ← List.range_eq_range',
      ← List.range_eq_range'] at hsplit
    simp only [start, PhysicalMap.reset, hself, hsplit]
    exact List.Perm.refl _

namespace Partitioned

/-- No register has two owners. -/
theorem nodup (h : Partitioned N R s) :
    ((List.range N).flatMap (versions s.retired s.inFlight) ++ s.theMap.theFreeList).Nodup :=
  h.partition.nodup_iff.mpr List.nodup_range

theorem nodup_versions (h : Partitioned N R s) {n : regName} (hn : n < N) :
    (versions s.retired s.inFlight n).Nodup := by
  have hall := (List.nodup_append.mp h.nodup).1
  exact (List.nodup_flatMap.mp hall).1 n (List.mem_range.mpr hn)

theorem free_not_assigned (h : Partitioned N R s) {r : pRegister} (hr : r ∈ s.theMap.theFreeList)
    {n : regName} (hn : n < N) : r ∉ versions s.retired s.inFlight n := by
  intro hmem
  have hdisjoint := (List.nodup_append.mp h.nodup).2.2
  exact hdisjoint r (List.mem_flatMap.mpr ⟨n, List.mem_range.mpr hn, hmem⟩) r hr rfl

theorem free_reverse (h : Partitioned N R s) {r : pRegister} (hr : r ∈ s.theMap.theFreeList) :
    s.theMap.theReverseMappings r = none := by
  cases hrev : s.theMap.theReverseMappings r with
  | none => rfl
  | some n =>
    obtain ⟨hn, hmem⟩ := (h.reverse r n).mp hrev
    exact absurd hmem (h.free_not_assigned hr hn)

/-- What is not free belongs to a name or to an instruction in flight. -/
theorem length_free (h : Partitioned N R s) :
    s.theMap.theFreeList.length + s.inFlight.length + N = R := by
  have hlen := h.partition.length_eq
  have hnames : ∀ y ∈ s.inFlight, y.name ∈ List.range N := fun y hy =>
    List.mem_range.mpr (h.inFlight_name_lt y hy)
  rw [List.length_append, length_flatMap_versions List.nodup_range hnames, List.length_range,
    List.length_range] at hlen
  omega

/-- The head of the free list becomes the youngest version of a name. -/
theorem push (h : Partitioned N R s) {n : regName} (hn : n < N) {r : pRegister}
    {rest : List pRegister} (hfree : s.theMap.theFreeList = r :: rest) :
    Partitioned N R { s with
      theMap := { s.theMap with
        theFreeList := rest
        theMappings := Function.update s.theMap.theMappings n r
        theAssignedRegisters := Function.update s.theMap.theAssignedRegisters n
          (s.theMap.theAssignedRegisters n ++ [r])
        theReverseMappings := Function.update s.theMap.theReverseMappings r (some n) }
      inFlight := s.inFlight ++ [⟨n, r, s.theMap.theMappings n⟩] } where
  names := h.names
  inFlight_name_lt := by
    intro x hx
    rcases List.mem_append.mp hx with hx | hx
    · exact h.inFlight_name_lt x hx
    · rw [List.mem_singleton.mp hx]
      exact hn
  chained := chained_append.mpr ⟨h.chained, congrFun h.mappings n⟩
  mappings := by
    dsimp only
    rw [current_append, apply, ← h.mappings]
  assigned := by
    funext k
    dsimp only
    rw [versions_append, h.assigned, Function.update_apply]
    by_cases hk : k = n
    · rw [if_pos hk, if_pos hk, hk]
    · rw [if_neg hk, if_neg hk]
  reverse := by
    intro r' k
    dsimp only
    rw [versions_append, Function.update_apply]
    have hfresh : k < N → r ∉ versions s.retired s.inFlight k :=
      h.free_not_assigned (hfree ▸ List.mem_cons_self)
    have hold := h.reverse r' k
    grind
  partition := by
    have hold := h.partition
    rw [hfree] at hold
    have hadd := @flatMap_versions_append s.retired ⟨n, r, s.theMap.theMappings n⟩ s.inFlight _
      List.nodup_range (List.mem_range.mpr hn)
    exact ((hadd.append_right rest).trans List.perm_middle.symm).trans hold

/-- A create takes the head of the free list, and only the lack of one stops it. -/
theorem create (h : Partitioned N R s) {n : regName} (hn : n < N) :
    Yields (fun f => f = .freeListEmpty ∧ s.theMap.theFreeList = []) (s.step (.create n))
      (Partitioned N R) := by
  have hname : ¬ s.theMap.theNameCount ≤ n := by
    rw [h.names]
    exact Nat.not_le.mpr hn
  cases hfree : s.theMap.theFreeList with
  | nil =>
    have hfault : s.step (.create n) = .error .freeListEmpty := by
      simp only [step, PhysicalMap.create, if_neg hname, hfree]
      rfl
    rw [hfault]
    exact .error ⟨rfl, rfl⟩
  | cons r rest =>
    have hreverse : s.theMap.theReverseMappings r = none :=
      h.free_reverse (hfree ▸ List.mem_cons_self)
    simp only [step, PhysicalMap.create, if_neg hname, hfree, hreverse, ne_eq, not_true, if_false]
    exact .pure (h.push hn hfree)

/-- Once a register is taken from a name, no name has it. -/
theorem reverse_release (h : Partitioned N R s) {n : regName} (hn : n < N) {r : pRegister}
    {v : regName → List pRegister} (hone : (versions s.retired s.inFlight n).Perm (r :: v n))
    (hother : ∀ k ≠ n, versions s.retired s.inFlight k = v k) (r' : pRegister) (k : regName) :
    Function.update s.theMap.theReverseMappings r none r' = some k ↔ k < N ∧ r' ∈ v k := by
  have hmem : r' ∈ versions s.retired s.inFlight n ↔ r' = r ∨ r' ∈ v n := by
    rw [hone.mem_iff, List.mem_cons]
  have hnotin : r ∉ v n := (List.nodup_cons.mp (hone.nodup_iff.mp (h.nodup_versions hn))).1
  have hown : s.theMap.theReverseMappings r = some n :=
    (h.reverse r n).mpr ⟨hn, hone.mem_iff.mpr List.mem_cons_self⟩
  have hunique := h.reverse r k
  have hold := h.reverse r' k
  rw [Function.update_apply]
  by_cases hk : k = n
  · subst hk
    grind
  · rw [hother k hk] at hold hunique
    grind

theorem assigned_release (h : Partitioned N R s) {n : regName} {r : pRegister}
    {v : regName → List pRegister} (hone : (versions s.retired s.inFlight n).erase r = v n)
    (hother : ∀ k ≠ n, versions s.retired s.inFlight k = v k) :
    Function.update s.theMap.theAssignedRegisters n
      ((s.theMap.theAssignedRegisters n).erase r) = v := by
  funext k
  rw [h.assigned, Function.update_apply]
  by_cases hk : k = n
  · rw [if_pos hk, hone, hk]
  · rw [if_neg hk, hother k hk]

/-- A register taken from a name goes to the free list. -/
theorem partition_release (h : Partitioned N R s) {n : regName} (hn : n < N) {r : pRegister}
    {v : regName → List pRegister} (hone : (versions s.retired s.inFlight n).Perm (r :: v n))
    (hother : ∀ k ≠ n, versions s.retired s.inFlight k = v k) :
    ((List.range N).flatMap v ++ (s.theMap.theFreeList ++ [r])).Perm (List.range R) := by
  have htake := flatMap_perm_cons List.nodup_range (List.mem_range.mpr hn) hone hother
  have hgive : ((List.range N).flatMap v ++ (s.theMap.theFreeList ++ [r])).Perm
      (r :: (List.range N).flatMap v ++ s.theMap.theFreeList) := by
    rw [← List.append_assoc]
    exact List.perm_append_singleton r _
  exact hgive.trans ((htake.symm.append_right _).trans h.partition)

/-- Retiring frees the oldest version of a name, which is the register that the retired
    instruction replaced. -/
theorem retire (h : Partitioned N R s) :
    Yields (fun _ => False) (s.step .retire) (Partitioned N R) := by
  cases hflight : s.inFlight with
  | nil =>
    simp only [step, hflight]
    exact .pure h
  | cons x w =>
    obtain ⟨hprevious, hchained⟩ := hflight ▸ h.chained
    have hn : x.name < N := h.inFlight_name_lt x (hflight ▸ List.mem_cons_self)
    have hone : versions s.retired s.inFlight x.name =
        x.previous :: versions (apply s.retired x) w x.name := by
      rw [hflight, versions_cons, if_pos rfl, hprevious]
    have hother : ∀ k ≠ x.name,
        versions s.retired s.inFlight k = versions (apply s.retired x) w k := by
      intro k hk
      rw [hflight, versions_cons, if_neg hk]
    have hcurrent : s.theMap.theMappings = current (apply s.retired x) w := by
      rw [h.mappings, hflight]
      simp [current]
    have hold : x.previous ∉ versions (apply s.retired x) w x.name :=
      (List.nodup_cons.mp (hone ▸ h.nodup_versions hn)).1
    have hmem : x.previous ∈ versions s.retired s.inFlight x.name := hone ▸ List.mem_cons_self
    have hfree := PhysicalMap.free_eq ((h.reverse _ _).mpr ⟨hn, hmem⟩) (h.names.symm ▸ hn)
      (fun heq => hold (heq ▸ hcurrent ▸ current_mem_versions)) (h.assigned.symm ▸ hmem)
    simp only [step, hflight, hfree]
    refine .pure ⟨h.names, ?_, hchained, hcurrent, ?_, ?_, ?_⟩
    · intro y hy
      exact h.inFlight_name_lt y (hflight ▸ List.mem_cons_of_mem _ hy)
    · apply h.assigned_release _ hother
      rw [hone, List.erase_cons_head]
    · exact h.reverse_release hn (List.Perm.of_eq hone) hother
    · exact h.partition_release hn (List.Perm.of_eq hone) hother

/-- Squashing frees the youngest version of a name, after the name has its previous
    register back. -/
theorem squash (h : Partitioned N R s) :
    Yields (fun _ => False) (s.step .squash) (Partitioned N R) := by
  cases hlast : s.inFlight.getLast? with
  | none =>
    simp only [step, hlast]
    exact .pure h
  | some x =>
    obtain ⟨w, hflight⟩ := List.getLast?_eq_some_iff.mp hlast
    obtain ⟨hchained, hprevious⟩ := chained_append.mp (hflight ▸ h.chained)
    have hn : x.name < N := h.inFlight_name_lt x (by simp [hflight])
    have hone : versions s.retired s.inFlight x.name = versions s.retired w x.name ++ [x.new] := by
      rw [hflight, versions_append, if_pos rfl]
    have hother : ∀ k ≠ x.name, versions s.retired s.inFlight k = versions s.retired w k := by
      intro k hk
      rw [hflight, versions_append, if_neg hk]
    have hperm : (versions s.retired s.inFlight x.name).Perm (x.new :: versions s.retired w x.name) :=
      hone ▸ List.perm_append_singleton _ _
    have hnew : x.new ∉ versions s.retired w x.name :=
      (List.nodup_cons.mp (hperm.nodup_iff.mp (h.nodup_versions hn))).1
    have hmem : x.new ∈ versions s.retired s.inFlight x.name :=
      hperm.mem_iff.mpr List.mem_cons_self
    have hrestored : (s.theMap.restore x.name x.previous).theMappings = current s.retired w := by
      funext k
      simp only [PhysicalMap.restore, h.mappings, hflight, current_append, apply,
        Function.update_apply, hprevious]
      by_cases hk : k = x.name
      · rw [if_pos hk, hk]
      · rw [if_neg hk, if_neg hk]
    have hfree : (s.theMap.restore x.name x.previous).free x.new = .ok _ :=
      PhysicalMap.free_eq ((h.reverse _ _).mpr ⟨hn, hmem⟩) (h.names.symm ▸ hn)
        (fun heq => hnew (heq ▸ hrestored ▸ current_mem_versions)) (h.assigned.symm ▸ hmem)
    simp only [step, hlast, hfree]
    rw [hflight, List.dropLast_concat]
    refine .pure ⟨h.names, ?_, hchained, hrestored, ?_, ?_, ?_⟩
    · intro y hy
      exact h.inFlight_name_lt y (hflight ▸ List.mem_append_left _ hy)
    · apply h.assigned_release _ hother
      rw [hone, List.erase_append_right _ hnew, List.erase_cons_head, List.append_nil]
    · exact h.reverse_release hn hperm hother
    · exact h.partition_release hn hperm hother

/-- Every event of the map's own names keeps the partition, and only a create without a
    free register stops. -/
theorem step (h : Partitioned N R s) {e : RenameEvent} (hname : ∀ n, e = .create n → n < N) :
    Yields (fun f => f = .freeListEmpty ∧ s.theMap.theFreeList = []) (s.step e)
      (Partitioned N R) := by
  cases e with
  | create n => exact h.create (hname n rfl)
  | retire => exact ⟨h.retire.1, fun f hf => (h.retire.2 f hf).elim⟩
  | squash => exact ⟨h.squash.1, fun f hf => (h.squash.2 f hf).elim⟩

end Partitioned

/-- A create of a name the map does not have stops at once. -/
theorem name_lt_of_create {n : regName} (hok : s.step (.create n) = .ok s') :
    n < s.theMap.theNameCount := by
  by_contra hname
  have hfault : s.theMap.create n = .error .unknownName := by
    rw [PhysicalMap.create, if_pos (Nat.not_lt.mp hname)]
  simp only [step, hfault] at hok
  cases hok

theorem Reachable.partitioned (hle : N ≤ R) (h : Reachable N R s) : Partitioned N R s := by
  refine h.invariant (start_partitioned hle) ?_
  intro s e s' hs _ hok
  refine (hs.step ?_).1 s' hok
  rintro n rfl
  exact hs.names ▸ name_lt_of_create hok

/-- In every run of creates, retirements in program order and squashes from the youngest
    on, the registers of the names and the free list have each register once. The reverse
    mappings are those of the assigned registers, a name's mapping is its youngest register
    and its architectural register the oldest. No assertion fires, and a create finds a
    free register while fewer than `R - N` are in flight. -/
theorem registers_partitioned (hle : N ≤ R) (h : Reachable N R s) :
    ((List.range N).flatMap s.theMap.theAssignedRegisters ++ s.theMap.theFreeList).Perm
      (List.range R) ∧
    (∀ r n, s.theMap.theReverseMappings r = some n ↔
      n < N ∧ r ∈ s.theMap.theAssignedRegisters n) ∧
    (∀ n < N, (s.theMap.theAssignedRegisters n).getLast? = some (s.theMap.theMappings n) ∧
      s.theMap.map n = .ok (s.theMap.theMappings n) ∧
      (s.theMap.theAssignedRegisters n).head? = some (s.retired n) ∧
      s.theMap.mapArchitectural n = .ok (s.retired n)) ∧
    (∀ e f, (∀ n, e = .create n → n < N) → s.step e = .error f →
      f = .freeListEmpty ∧ R - N ≤ s.inFlight.length) ∧
    (s.inFlight.length < R - N → s.theMap.theFreeList ≠ []) := by
  have hs := h.partitioned hle
  have hlength := hs.length_free
  refine ⟨hs.assigned ▸ hs.partition, hs.assigned ▸ hs.reverse, ?_, ?_, ?_⟩
  · intro n hn
    have hname : ¬ s.theMap.theNameCount ≤ n := hs.names ▸ Nat.not_le.mpr hn
    have hlast : (s.theMap.theAssignedRegisters n).getLast? = some (s.theMap.theMappings n) := by
      rw [hs.assigned, hs.mappings, versions_getLast?]
    refine ⟨hlast, ?_, ?_, ?_⟩
    · rw [PhysicalMap.map, if_neg hname]
    · rw [hs.assigned]
      rfl
    · simp only [PhysicalMap.mapArchitectural, if_neg hname, hs.assigned, versions]
  · intro e f hname hfault
    obtain ⟨rfl, hempty⟩ := (hs.step hname).2 f hfault
    rw [hempty, List.length_nil] at hlength
    refine ⟨rfl, ?_⟩
    omega
  · intro hfew hempty
    rw [hempty, List.length_nil] at hlength
    omega

/-- Two names and four registers, after a name was renamed twice and its first renaming
    retired. -/
theorem registers_partitioned_two : ∃ s, Reachable 2 4 s ∧ s.inFlight.length = 1 ∧
    ((List.range 2).flatMap s.theMap.theAssignedRegisters ++ s.theMap.theFreeList).Perm
      (List.range 4) ∧
    s.theMap.theFreeList ≠ [] := by
  have hrun : (runWhile step (fun _ _ => true) (start 2 4)
      [.create 0, .create 0, .retire]).any (fun s => s.inFlight.length == 1) = true := by
    decide +kernel
  obtain ⟨s, hs, hend⟩ : ∃ s, Reachable 2 4 s ∧ (s.inFlight.length == 1) = true :=
    exists_reaches (fun _ _ _ => trivial) hrun
  have hlength : s.inFlight.length = 1 := beq_iff_eq.mp hend
  have hall := registers_partitioned (by decide) hs
  exact ⟨s, hs, hlength, hall.1, hall.2.2.2.2 (by omega)⟩

end Renaming

end nuArchARM
