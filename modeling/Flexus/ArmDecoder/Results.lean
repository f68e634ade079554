import Flexus.ArmDecoder.DataProc

/-!
# Results

What an instruction leaves in its result slot and its destination register when its actions have
been evaluated, in whatever order. It is enough that every action fits what is known of the
operands and of the result.
-/

namespace narmDecoder

open Dataflow Runs SemanticInstruction

/-- The value of a register operand, where 31 is zero. -/
def operandValue (env : Env) (sf : Bool) (r : BitVec 32) : BitVec 64 :=
  if r = 31#32 then 0#64 else sourceValue env sf r

/-- The instruction completes, and leaves the value in its result slot and in its destination. -/
structure SemanticInstruction.Yields (inst : SemanticInstruction) (env : Env) (sf : Bool) (dest : Option mapped_reg)
    (v : BitVec 64) : Prop where
  completes : inst.Completes env
  result : ∀ m, inst.dispatch env = .ok m → ∀ s, Reaches (step (inst.network env)) Anything (dispatched m) s →
    Finished (inst.network env) s → ∃ y, s.store.operand .kResult = .uint64 y ∧ widthMask sf y = v
  written : ∀ m, inst.dispatch env = .ok m → ∀ s, Reaches (step (inst.network env)) Anything (dispatched m) s →
    Finished (inst.network env) s → ∀ name ∈ dest, s.store.registers name = some v

/-- What is known of the operands, of the result and of the registers that are written. -/
def resultFacts (inst : SemanticInstruction) (env : Env) (sf : Bool) (a b c v : BitVec 64) : Facts where
  name := inst.names env
  value code x :=
    match code with
    | .kOperand1 => x = a
    | .kOperand2 => x = b
    | .kOperand3 => x = c
    | .kResult => widthMask sf x = v
    | _ => True
  register name x := name.theType = .xRegisters → x = v

/-- An operand that the decoder has set is a register's name. -/
def isName : eOperandCode × Operand → Bool
  | (c, .reg _) => c.kind = .name
  | _ => false

theorem widthMask_widthMask (sf : Bool) (x : BitVec 64) : widthMask sf (widthMask sf x) = widthMask sf x := by
  cases sf
  · simp only [widthMask, Bool.false_eq_true, if_false, BitVec.and_assoc, BitVec.and_self]
  · rfl

variable {inst : SemanticInstruction} {env : Env} {sf : Bool} {a b c v : BitVec 64}

/-- The write-back of a result fits. -/
theorem writeback_fits {d : eOperandCode} (hd : d.kind = .mapped) :
    (Action.writeback .kResult d sf).Fits env (resultFacts inst env sf a b c v) := by
  refine ⟨rfl, hd, fun x hx => ?_⟩
  have hx : widthMask sf x = v := hx
  refine ⟨?_, fun _ => hx⟩
  change widthMask sf (widthMask sf x) = v
  rw [widthMask_widthMask, hx]

/-- So does the write of the flags, which is not to one of the registers in question. -/
theorem writecc_fits {cc : eOperandCode} (hcc : cc.kind = .mapped) (hname : (inst.names env cc).theType = .ccBits) :
    (Action.writecc cc sf).Fits env (resultFacts inst env sf a b c v) := by
  refine ⟨hcc, fun f r _ _ htype => ?_⟩
  have htype : (inst.names env cc).theType = .xRegisters := htype
  rw [hname] at htype
  cases htype

/-- An instruction that passes the check, and whose actions fit, yields its result. The first
    action sets the result slot. -/
theorem yields_of_check (ranks : List Nat) (h : inst.check ranks = true) (hnames : inst.theOperands.all isName = true)
    (hactions : ∀ comp ∈ inst.components, comp.theAction.predicate →
      comp.theAction.Fits env (resultFacts inst env sf a b c v))
    (hresult : (inst.nodes.contains 0 && (inst.writes 0).contains .kResult) = true) {dest : Option mapped_reg}
    (hdest : ∀ name ∈ dest, name.theType = .xRegisters ∧ ∃ i, inst.nodes.contains i = true ∧
      ∃ d, inst.components[i]?.bind (·.theAction.destination) = some d ∧ inst.names env d = name) :
    inst.Yields env sf dest v := by
  simp only [check, Bool.and_eq_true, decide_eq_true_iff] at h
  obtain ⟨⟨⟨-, heffects, houtputs⟩, -⟩, hsup, hranked⟩ := h
  have hwired : inst.Wired env (resultFacts inst env sf a b c v) := by
    refine ⟨⟨?_, ?_, hsup⟩, hactions, ⟨ranks, hranked⟩⟩
    · rintro ⟨code, value⟩ hp
      have hname := List.all_eq_true.mp hnames _ hp
      cases value with
      | reg r =>
        have hkind : code.kind = .name := of_decide_eq_true hname
        rw [Facts.Slot, hkind]
        exact ⟨r, rfl⟩
      | _ => cases hname
    · exact fun e he => effect_fits houtputs he (List.all_eq_true.mp heffects e he)
  refine ⟨hwired.completes, ?_, ?_⟩
  · intro m hm s hs hfin
    rw [Bool.and_eq_true] at hresult
    have hholds := hwired.holds hm hs hfin (List.contains_iff_mem.mp hresult.1) (p := .slot .kResult)
      (List.mem_append_left _ (List.mem_map_of_mem (List.contains_iff_mem.mp hresult.2)))
    exact Action.getUint64_of_holds rfl hholds
  · intro m hm s hs hfin name hname
    obtain ⟨htype, i, hi, d, hd, hsame⟩ := hdest name hname
    obtain ⟨x, hx, hreg⟩ := hwired.written hm hs hfin (List.contains_iff_mem.mp hi) hd
    have hsame' : (resultFacts inst env sf a b c v).name d = name := hsame
    rw [hsame'] at hx hreg
    rw [hx, hreg htype]

end narmDecoder
