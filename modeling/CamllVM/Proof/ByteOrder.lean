import CamllVM.Proof.Branches
import CamllVM.Proof.RecordBounds

/-!
# Hosts of both byte orders

A host reads the words of a file in its own byte order and `toBigEndian` turns every one of them
back. So the reading loop goes through the same rounds on every host.
-/

namespace CamllVM

variable {host : Host}

instance : DecidablePred IsInt32 := fun _ => instDecidableAnd

/-! ### Words -/

theorem isInt32_toInt32 (x : Int) : IsInt32 (toInt32 x) := by
  have hlow : -(4294967296 / 2 : Int) ≤ x.bmod 4294967296 := Int.le_bmod (by decide)
  have hhigh : x.bmod 4294967296 < ((4294967296 + 1) / 2 : Int) := Int.bmod_lt (by decide)
  unfold IsInt32 toInt32
  omega

theorem IsInt32.toBigEndian {w : Int} (h : IsInt32 w) : IsInt32 (toBigEndian host w) :=
  match host with
  | .littleEndian => h
  | .bigEndian => isInt32_toInt32 _

/-! ### Readers -/

/-- A reader of the words as they are in the file. -/
def Reader.inFile (host : Host) (r : Reader) : Reader :=
  { r with tabInst := r.tabInst.map (toBigEndian host) }

theorem Reader.next_inFile (r : Reader) :
    (r.inFile host).next .littleEndian = (r.next host).map fun x => (x.1, x.2.inFile host) := by
  obtain ⟨ws, pos, instPositions, instsToAdjust, instructions⟩ := r
  cases ws <;> rfl

theorem readArgs_inFile (j n : Nat) (inst : ZInstruction) (r : Reader) :
    readArgs .littleEndian j n inst (r.inFile host) =
      (readArgs host j n inst r).map fun x => (x.1, x.2.inFile host) := by
  induction n generalizing j inst r with
  | zero => rfl
  | succ n ih =>
      simp only [readArgs, Reader.next_inFile, Option.bind_eq_bind]
      cases r.next host with
      | none => rfl
      | some x =>
          obtain ⟨w, r₁⟩ := x
          simp only [Option.map_some, Option.bind_some]
          have hpos : (r₁.inFile host).pos = r₁.pos := rfl
          rw [hpos]
          split
          · cases inst.setArg j (toInt32 (r₁.pos + w + 1)) with
            | none => rfl
            | some inst₁ => exact ih (j + 1) inst₁ (r₁.adjustLater.advance 1)
          · cases inst.setArg j w with
            | none => rfl
            | some inst₁ => exact ih (j + 1) inst₁ (r₁.advance 1)

theorem readClosureRecFns_inFile (j n : Nat) (inst : ZInstruction) (r : Reader) :
    readClosureRecFns .littleEndian j n inst (r.inFile host) =
      (readClosureRecFns host j n inst r).map fun x => (x.1, x.2.inFile host) := by
  induction n generalizing j inst r with
  | zero => rfl
  | succ n ih =>
      simp only [readClosureRecFns, Reader.next_inFile, Option.bind_eq_bind]
      cases r.next host with
      | none => rfl
      | some x =>
          obtain ⟨w, r₁⟩ := x
          simp only [Option.map_some, Option.bind_some]
          have hpos : (r₁.inFile host).pos = r₁.pos := rfl
          rw [hpos]
          cases inst.setClosureRecFn j (toInt32 (r₁.pos + w)) with
          | none => rfl
          | some inst₁ => exact ih (j + 1) inst₁ r₁

theorem readSwitchEntries_inFile (n : Nat) (inst : ZInstruction) (r : Reader) :
    readSwitchEntries .littleEndian n inst (r.inFile host) =
      (readSwitchEntries host n inst r).map fun x => (x.1, x.2.inFile host) := by
  induction n generalizing inst r with
  | zero => rfl
  | succ n ih =>
      simp only [readSwitchEntries, Reader.next_inFile, Option.bind_eq_bind]
      cases r.next host with
      | none => rfl
      | some x =>
          obtain ⟨w, r₁⟩ := x
          exact ih _ r₁

theorem readTable_inFile (inst : ZInstruction) (r : Reader) :
    readTable .littleEndian inst (r.inFile host) =
      (readTable host inst r).map fun x => (x.1, x.2.inFile host) := by
  unfold readTable
  have hadvance : (r.inFile host).advance 1 = (r.advance 1).inFile host := rfl
  by_cases hclosureRec : inst.opNum = .closureRec
  · rw [if_pos hclosureRec, if_pos hclosureRec, hadvance, readClosureRecFns_inFile]
    cases readClosureRecFns host 0 (inst.arg 0).toNat inst (r.advance 1) <;> rfl
  · rw [if_neg hclosureRec, if_neg hclosureRec]
    by_cases hswitch : inst.opNum = .switch
    · simp only [if_pos hswitch, hadvance, readSwitchEntries_inFile]
      cases readSwitchEntries host inst.numSwitchEntries.toNat inst (r.advance 1) <;> rfl
    · rw [if_neg hswitch, if_neg hswitch]
      rfl

theorem readInstruction_inFile (size : Nat) (r : Reader) :
    readInstruction .littleEndian size (r.inFile host) =
      (readInstruction host size r).map (Reader.inFile host) := by
  have hlength : (r.inFile host).tabInst.length = r.tabInst.length := List.length_map _
  simp only [readInstruction, Reader.next_inFile, hlength, Option.bind_eq_bind]
  cases r.next host with
  | none => rfl
  | some x =>
      obtain ⟨w, r₁⟩ := x
      simp only [Option.map_some, Option.bind_some]
      cases OpCode.ofNum? w with
      | none => rfl
      | some op =>
          let inst : ZInstruction := { ZInstruction.blank op with
            origIdx := toInt32 (size - r.tabInst.length), idx := r₁.instructions.length }
          let r₂ : Reader := { r₁.advance 1 with
            instPositions := fun p => if p = toInt32 (r₁.advance 1).pos then
              some (r₁.instructions.length : Int) else (r₁.advance 1).instPositions p }
          have hargs := @readArgs_inFile host 0 op.arity inst r₂
          refine (congrArg (Option.bind · _) hargs).trans ?_
          show _ = Option.map _ ((readArgs host 0 op.arity inst r₂).bind _)
          cases readArgs host 0 op.arity inst r₂ with
          | none => rfl
          | some y =>
              obtain ⟨inst₁, r₃⟩ := y
              simp only [Option.map_some, Option.bind_some, readTable_inFile]
              cases readTable host inst₁ r₃ <;> rfl

theorem readLoop_inFile (size : Nat) (limit : Int) (r : Reader) :
    readLoop .littleEndian size limit (r.inFile host) =
      (readLoop host size limit r).map (Reader.inFile host) := by
  by_cases hlt : r.pos < limit
  · have hlt' : (r.inFile host).pos < limit := hlt
    rw [readLoop_of_round hlt, readLoop_of_round hlt', readInstruction_inFile]
    cases hround : readInstruction host size r with
    | none => rfl
    | some r₁ => exact readLoop_inFile size limit r₁
  · have hge : ¬(r.inFile host).pos < limit := hlt
    rw [readLoop, if_neg hge, readLoop, if_neg hlt]
    rfl
termination_by r.tabInst.length
decreasing_by exact readInstruction_length (by assumption)

/-- A host of the other byte order reads the same instructions from the same file. -/
theorem readInstructions_inFile (ws : List Int) (size : Int) :
    readInstructions host ws size =
      readInstructions .littleEndian (ws.map (toBigEndian host)) size := by
  let r : Reader := ⟨ws, 0, fun _ => none, [], []⟩
  have hloop := @readLoop_inFile host ws.length (size / 4) r
  unfold readInstructions
  rw [List.length_map]
  refine Eq.trans ?_ (congrArg (Option.bind · _) hloop).symm
  show (readLoop host ws.length (size / 4) r).bind _ = _
  cases readLoop host ws.length (size / 4) r <;> rfl

end CamllVM
