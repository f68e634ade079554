import Flexus.BranchPredictor.Agreement

/-!
# Saving and loading a predictor

The state a predictor writes to an archive and what another one has after reading it.
-/

namespace SharedTypes

open Transducer

/-! ## The buffer -/

namespace btb_set_t

variable {t s : btb_set_t}

def push_all : (t : btb_set_t) → (btb : List BTBEntry) → (∀ e ∈ btb, e.theBranchType ≠ .kNonBranch) → btb_set_t
  | t, [], _ => t
  | t, e :: btb, hbranches =>
    (t.push_back e (hbranches e List.mem_cons_self)).push_all btb fun x hx =>
      hbranches x (List.mem_cons_of_mem e hx)

/-- The saved entries are inserted at the end of a set, one after the other. -/
def load (t saved : btb_set_t) : btb_set_t := t.push_all saved.entries saved.branches

/-- The insertions that are refused are those of program counters the set had. -/
theorem push_all_entries {btb : List BTBEntry} {hbranches : ∀ e ∈ btb, e.theBranchType ≠ .kNonBranch}
    (hunique : (btb.map BTBEntry.thePC).Nodup) :
    (t.push_all btb hbranches).entries =
      t.entries ++ btb.filter fun e => e.thePC ∉ t.entries.map BTBEntry.thePC := by
  induction btb generalizing t with
  | nil => simp [push_all]
  | cons e btb ih =>
    obtain ⟨hfresh, hrest⟩ := List.nodup_cons.mp hunique
    rw [push_all, ih hrest, push_back_entries]
    by_cases hin : e.thePC ∈ t.entries.map BTBEntry.thePC
    · rw [if_pos hin, List.filter_cons_of_neg (by simpa using hin)]
    · rw [if_neg hin, List.filter_cons_of_pos (by simpa using hin), List.append_assoc, List.singleton_append]
      congr 2
      refine List.filter_congr fun x hx => ?_
      have hne : x.thePC ≠ e.thePC := fun h => hfresh (h ▸ List.mem_map_of_mem hx)
      simp [hne]

/-- A set is loaded exactly when what was there is the beginning of it. -/
theorem load_eq_iff : t.load s = s ↔ t.entries <+: s.entries := by
  rw [btb_set_t.ext_iff, load, push_all_entries s.unique]
  constructor
  · intro heq
    exact ⟨_, heq⟩
  · rintro ⟨rest, hrest⟩
    have hunique := s.unique
    rw [← hrest, List.map_append, List.nodup_append] at hunique
    rw [← hrest, List.filter_append]
    have hold : (t.entries.filter fun e => e.thePC ∉ t.entries.map BTBEntry.thePC) = [] :=
      List.filter_eq_nil_iff.mpr fun e he => by simpa using ⟨e, he, rfl⟩
    have hnew : (rest.filter fun e => e.thePC ∉ t.entries.map BTBEntry.thePC) = rest := by
      refine List.filter_eq_self.mpr fun e he => ?_
      have hnot : e.thePC ∉ t.entries.map BTBEntry.thePC := fun hmem =>
        hunique.2.2 _ hmem _ (List.mem_map_of_mem he) rfl
      simpa using hnot
    rw [hold, hnew, List.nil_append]

end btb_set_t

/-- What the elements of a vector are read into when it is loaded from an archive: as many
    as were saved, which the serialization library either takes over from the vector or
    makes anew. -/
structure VectorLoad where
  elements : List btb_set_t → Nat → List btb_set_t
  length_elements : ∀ old n, (elements old n).length = n

namespace VectorLoad

/-- The vector is brought to the size and its elements are read in place. -/
def resize : VectorLoad where
  elements old n := old.take n ++ List.replicate (n - old.length) .empty
  length_elements old n := by simp; omega

end VectorLoad

namespace BTB

variable {v : VectorLoad} {t saved : BTB}

def load (v : VectorLoad) (t saved : BTB) : BTB :=
  { saved with
    theBTB := List.zipWith btb_set_t.load (v.elements t.theBTB saved.theBTB.length) saved.theBTB
    inRange := by
      rw [List.length_zipWith, v.length_elements, min_self]
      exact saved.inRange }

theorem zipWith_load_eq_iff {sets savedSets : List btb_set_t} (hlength : sets.length = savedSets.length) :
    List.zipWith btb_set_t.load sets savedSets = savedSets ↔
      List.Forall₂ (fun t s => t.entries <+: s.entries) sets savedSets := by
  induction savedSets generalizing sets with
  | nil => simp [List.length_eq_zero_iff.mp hlength]
  | cons s savedSets ih =>
    obtain ⟨t, sets, rfl⟩ := List.exists_cons_of_length_eq_add_one hlength
    simp only [List.zipWith_cons_cons, List.cons.injEq, List.forall₂_cons, btb_set_t.load_eq_iff]
    rw [ih (by simpa using hlength)]

/-- The sets that are read into are beginnings of the saved ones. -/
def Extends (v : VectorLoad) (t saved : BTB) : Prop :=
  List.Forall₂ (fun t s => t.entries <+: s.entries) (v.elements t.theBTB saved.theBTB.length) saved.theBTB

theorem load_eq_iff : load v t saved = saved ↔ Extends v t saved := by
  rw [Extends, ← zipWith_load_eq_iff (v.length_elements _ _), load]
  obtain ⟨sets, n, assoc, mask, hrange⟩ := saved
  simp

end BTB

/-! ## The pattern table -/

/-- What is written of a gshare predictor, in the order of the archive. -/
structure gShareArchive where
  thePatternTable : List eDirection
  theShiftRegSize : BitVec 32
  thePatternMask : BitVec 32
  shift_reg : BitVec 32
  inRange : thePatternMask.toNat < thePatternTable.length

namespace gShare

/-- `serialize` into an archive: the history is written, and then masked. -/
def save (t : gShare) : gShareArchive × gShare :=
  (⟨t.thePatternTable, t.theShiftRegSize, t.thePatternMask, t.theShiftReg, t.inRange⟩,
    { t with theShiftReg := t.theShiftReg &&& t.theShiftRegSize })

/-- `serialize` from an archive: the history that is read stays in the local variable. -/
def load (t : gShare) (ar : gShareArchive) : gShare :=
  { thePatternTable := ar.thePatternTable
    theShiftReg := t.theShiftReg &&& ar.theShiftRegSize
    theShiftRegSize := ar.theShiftRegSize
    thePatternMask := ar.thePatternMask
    inRange := ar.inRange }

variable {t saved : gShare}

theorem save_eq_iff : t.save.2 = t ↔ t.theShiftReg &&& t.theShiftRegSize = t.theShiftReg := by
  simp [save, gShare.ext_iff]

theorem load_eq_iff : t.load saved.save.1 = saved ↔ t.theShiftReg &&& saved.theShiftRegSize = saved.theShiftReg := by
  simp [save, load, gShare.ext_iff]

end gShare

/-! ## The predictors -/

/-- The archive of a predictor; the tables are written as they are. -/
structure Archive where
  theBTB : BTB
  theBimodal : Bimodal
  theMeta : Bimodal
  theGShare : gShareArchive

namespace Predictor

/-- `saveState` of both classes; `serialize` is called on the predictor itself. -/
def saveState (p : Predictor) : Archive × Predictor :=
  (⟨p.theBTB, p.theBimodal, p.theMeta, p.theGShare.save.1⟩, { p with theGShare := p.theGShare.save.2 })

/-- `loadState` of both classes, with an archive that is there. -/
def loadState (v : VectorLoad) (p : Predictor) (ar : Archive) : Predictor :=
  { p with
    theBTB := p.theBTB.load v ar.theBTB
    theBimodal := ar.theBimodal
    theMeta := ar.theMeta
    theGShare := p.theGShare.load ar.theGShare }

variable {v : VectorLoad} {p q : Predictor}

theorem saveState_eq_iff :
    p.saveState.2 = p ↔ p.theGShare.theShiftReg &&& p.theGShare.theShiftRegSize = p.theGShare.theShiftReg := by
  rw [← gShare.save_eq_iff, saveState]
  obtain ⟨⟨btb, bimodal, metaTable, gshare⟩, serial, counters⟩ := p
  simp

theorem loadState_eq_iff :
    (q.loadState v p.saveState.1).toTables = p.toTables ↔
      BTB.Extends v q.theBTB p.theBTB ∧
        q.theGShare.theShiftReg &&& p.theGShare.theShiftRegSize = p.theGShare.theShiftReg := by
  rw [← BTB.load_eq_iff, ← gShare.load_eq_iff, loadState, saveState]
  obtain ⟨⟨btb, bimodal, metaTable, gshare⟩, serial, counters⟩ := p
  simp

end Predictor

/-- A call of a predictor, with what it knows of the prediction that is resolved. -/
inductive Call (σ : Type) where
  | predict (anAddress : BitVec 64)
  | feedback (b : Branch) (state : σ)
  deriving DecidableEq, Repr

def CombiningImpl.call (p : Predictor) : Call (Option BPredState) → Option BPredState × Predictor
  | .predict a => ((predict p a).1, (predict p a).2)
  | .feedback b s =>
    (none, feedback p ⟨b.thePC, b.theActualType, b.theActualDirection, b.theActualTarget, s⟩)

def FastCombiningImpl.call (p : Predictor) : Call BPredState → Option BPredState × Predictor
  | .predict a => ((predict p a).1, (predict p a).2)
  | .feedback b s => (none, feedback p b.thePC b.theActualType b.theActualDirection b.theActualTarget s)

/-- Both predictors give the same predictions from then on: the same calls are answered alike
    whether both are timing or both are fast predictors, and a fast and a timing one agree
    on the branches that show no difference between the classes. -/
structure SamePredictions (p q : Predictor) : Prop where
  timing : ∀ calls, Agrees CombiningImpl.call CombiningImpl.call (Option.map BPredState.unnumbered)
    Predictor.toTables p q calls
  fast : ∀ calls, Agrees FastCombiningImpl.call FastCombiningImpl.call (Option.map BPredState.unnumbered)
    Predictor.toTables p q calls
  fastToTiming : ∀ branches, EachMeets CombiningImpl.resolve (fun s b => s.NoDrift b) q branches →
    Agrees FastCombiningImpl.resolve CombiningImpl.resolve (fun o => (o.1.unnumbered, o.2))
      Predictor.toTables p q branches
  timingToFast : ∀ branches, EachMeets CombiningImpl.resolve (fun s b => s.NoDrift b) p branches →
    Agrees FastCombiningImpl.resolve CombiningImpl.resolve (fun o => (o.1.unnumbered, o.2))
      Predictor.toTables q p branches

theorem SamePredictions.of_tables {p q : Predictor} (htables : p.toTables = q.toTables) : SamePredictions p q where
  timing calls := by
    refine agrees_of_congr (fun s t call hview => ?_) htables
    cases call with
    | predict a =>
      obtain ⟨hseen, hafter⟩ := Predictor.predict_congr a hview
      exact ⟨congrArg some hseen, hafter⟩
    | feedback b state =>
      exact ⟨rfl, by simp only [CombiningImpl.call, CombiningImpl.feedback, hview]⟩
  fast calls := by
    refine agrees_of_congr (fun s t call hview => ?_) htables
    cases call with
    | predict a =>
      obtain ⟨hseen, hafter⟩ := Predictor.predict_congr a hview
      exact ⟨congrArg some hseen, hafter⟩
    | feedback b state =>
      exact ⟨rfl, by simp only [FastCombiningImpl.call, FastCombiningImpl.feedback, hview]⟩
  fastToTiming _ hmeets :=
    ((agreesThroughout_iff (fun _ _ _ hview => resolve_agrees hview) htables).mpr hmeets).agrees
  timingToFast _ hmeets :=
    ((agreesThroughout_iff (fun _ _ _ hview => resolve_agrees hview) htables.symm).mpr hmeets).agrees

/-- What saving `p` and loading the archive into `q` is for. -/
structure Restored (v : VectorLoad) (p q : Predictor) : Prop where
  unchanged : p.saveState.2 = p
  tables : (q.loadState v p.saveState.1).toTables = p.toTables
  predictions : SamePredictions p.saveState.2 (q.loadState v p.saveState.1)

/-- The state survives exactly when the bits of the history lie within the number that stands
    for its width, the loader has the same history there, and its buffer holds beginnings of
    the saved sets only. -/
theorem restored_iff (v : VectorLoad) (p q : Predictor) :
    Restored v p q ↔
      p.theGShare.theShiftReg &&& p.theGShare.theShiftRegSize = p.theGShare.theShiftReg ∧
        q.theGShare.theShiftReg &&& p.theGShare.theShiftRegSize = p.theGShare.theShiftReg ∧
          BTB.Extends v q.theBTB p.theBTB := by
  rw [← Predictor.saveState_eq_iff, and_comm (a := q.theGShare.theShiftReg &&& _ = _),
    ← Predictor.loadState_eq_iff]
  constructor
  · intro h
    exact ⟨h.unchanged, h.tables⟩
  · rintro ⟨hunchanged, htables⟩
    refine ⟨hunchanged, htables, SamePredictions.of_tables ?_⟩
    rw [hunchanged, htables]

/-- Two branches not taken in a row: the history is 3 when the fast predictor is saved, 1
    afterwards, and 0 in the timing predictor that loads it. -/
theorem not_restored :
    ¬ ∃ v, ∀ calls q, Restored v (run FastCombiningImpl.call FastCombiningImpl.create calls).2 q := by
  rintro ⟨v, hall⟩
  have hrestored := hall
    [.feedback ⟨4, .kConditional, .kNotTaken, 0⟩ (FastCombiningImpl.create.predict 4).1,
      .feedback ⟨8, .kConditional, .kNotTaken, 0⟩ (FastCombiningImpl.create.predict 8).1] CombiningImpl.create
  exact absurd (Predictor.saveState_eq_iff.mp hrestored.unchanged) (by decide)

end SharedTypes
