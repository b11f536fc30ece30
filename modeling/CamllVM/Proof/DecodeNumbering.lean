import CamllVM.Decode

/-!
# The numbers of decoded instructions

Whatever the words are, the reading loop numbers the instructions from 0 on and leaves them without
an annotation, and the fix-up loop changes neither.
-/

namespace CamllVM

/-- The program after reading: instruction `i` has index `i` and no annotation. -/
def Decoded (insts : List ZInstruction) : Prop :=
  ∀ (i : Nat) inst, insts[i]? = some inst → inst.idx = i ∧ inst.annotation = .nothing

/-- Two records of one instruction, the operands of which may differ. -/
def ZInstruction.SameNumber (inst inst' : ZInstruction) : Prop :=
  inst'.idx = inst.idx ∧ inst'.annotation = inst.annotation

theorem ZInstruction.SameNumber.trans {a b c : ZInstruction} (hab : a.SameNumber b)
    (hbc : b.SameNumber c) : a.SameNumber c := ⟨hbc.1.trans hab.1, hbc.2.trans hab.2⟩

theorem setArg_sameNumber {inst inst' : ZInstruction} {j : Nat} {v : Int}
    (h : inst.setArg j v = some inst') : inst.SameNumber inst' := by
  unfold ZInstruction.setArg at h
  split at h <;> cases h
  exact ⟨rfl, rfl⟩

theorem setClosureRecFn_sameNumber {inst inst' : ZInstruction} {j : Nat} {v : Int}
    (h : inst.setClosureRecFn j v = some inst') : inst.SameNumber inst' := by
  unfold ZInstruction.setClosureRecFn at h
  split at h <;> cases h
  exact ⟨rfl, rfl⟩

theorem Reader.next_instructions {host : Host} {r r' : Reader} {w : Int}
    (h : r.next host = some (w, r')) : r'.instructions = r.instructions := by
  unfold next at h
  split at h <;> cases h
  rfl

theorem readArgs_sameNumber {host : Host} {j n : Nat} {inst inst' : ZInstruction} {r r' : Reader}
    (h : readArgs host j n inst r = some (inst', r')) :
    inst.SameNumber inst' ∧ r'.instructions = r.instructions := by
  induction n generalizing j inst r with
  | zero => cases h; exact ⟨⟨rfl, rfl⟩, rfl⟩
  | succ n ih =>
      simp only [readArgs, Option.bind_eq_bind, Option.bind_eq_some_iff] at h
      obtain ⟨⟨w, r₁⟩, hnext, h⟩ := h
      have hinsts := Reader.next_instructions hnext
      split at h <;> rw [Option.bind_eq_some_iff] at h <;> obtain ⟨inst₁, hset, h⟩ := h <;>
        obtain ⟨hsame, hrest⟩ := ih h <;>
        exact ⟨(setArg_sameNumber hset).trans hsame, hrest.trans hinsts⟩

theorem readClosureRecFns_sameNumber {host : Host} {j n : Nat} {inst inst' : ZInstruction}
    {r r' : Reader} (h : readClosureRecFns host j n inst r = some (inst', r')) :
    inst.SameNumber inst' ∧ r'.instructions = r.instructions := by
  induction n generalizing j inst r with
  | zero => cases h; exact ⟨⟨rfl, rfl⟩, rfl⟩
  | succ n ih =>
      simp only [readClosureRecFns, Option.bind_eq_bind, Option.bind_eq_some_iff] at h
      obtain ⟨⟨w, r₁⟩, hnext, inst₁, hset, h⟩ := h
      obtain ⟨hsame, hrest⟩ := ih h
      exact ⟨(setClosureRecFn_sameNumber hset).trans hsame,
        hrest.trans (Reader.next_instructions hnext)⟩

theorem readSwitchEntries_sameNumber {host : Host} {n : Nat} {inst inst' : ZInstruction}
    {r r' : Reader} (h : readSwitchEntries host n inst r = some (inst', r')) :
    inst.SameNumber inst' ∧ r'.instructions = r.instructions := by
  induction n generalizing inst r with
  | zero => cases h; exact ⟨⟨rfl, rfl⟩, rfl⟩
  | succ n ih =>
      simp only [readSwitchEntries, Option.bind_eq_bind, Option.bind_eq_some_iff] at h
      obtain ⟨⟨w, r₁⟩, hnext, h⟩ := h
      obtain ⟨hsame, hrest⟩ := ih h
      exact ⟨hsame, hrest.trans (Reader.next_instructions hnext)⟩

theorem readTable_sameNumber {host : Host} {inst inst' : ZInstruction} {r r' : Reader}
    (h : readTable host inst r = some (inst', r')) :
    inst.SameNumber inst' ∧ r'.instructions = r.instructions := by
  unfold readTable at h
  split at h
  · simp only [Option.bind_eq_bind, Option.bind_eq_some_iff] at h
    obtain ⟨⟨inst₁, r₁⟩, hread, h⟩ := h
    cases h
    have hsame : inst.SameNumber inst₁ ∧ r₁.instructions = (r.advance 1).instructions :=
      readClosureRecFns_sameNumber hread
    exact hsame
  · split at h
    · simp only [Option.bind_eq_bind, Option.bind_eq_some_iff] at h
      obtain ⟨⟨inst₁, r₁⟩, hread, h⟩ := h
      cases h
      have hsame : inst.SameNumber inst₁ ∧ r₁.instructions = (r.advance 1).instructions :=
        readSwitchEntries_sameNumber hread
      exact hsame
    · cases h
      exact ⟨⟨rfl, rfl⟩, rfl⟩

theorem readInstruction_decoded {host : Host} {size : Nat} {r r' : Reader}
    (hdecoded : Decoded r.instructions) (h : readInstruction host size r = some r') :
    Decoded r'.instructions := by
  simp only [readInstruction, Option.bind_eq_bind, Option.bind_eq_some_iff] at h
  obtain ⟨⟨w, r₁⟩, hnext, op, _, ⟨inst₁, r₂⟩, hargs, ⟨inst₂, r₃⟩, htable, h⟩ := h
  cases h
  have hread : r₁.instructions = r.instructions := Reader.next_instructions hnext
  obtain ⟨hsame₁, hinsts₁⟩ := readArgs_sameNumber hargs
  obtain ⟨hsame₂, hinsts₂⟩ := readTable_sameNumber htable
  have hinsts : r₃.instructions = r.instructions := (hinsts₂.trans hinsts₁).trans hread
  obtain ⟨hidx, hmark⟩ := hsame₁.trans hsame₂
  intro i inst hi
  rw [hinsts, List.getElem?_append] at hi
  split at hi
  · exact hdecoded i inst hi
  · next hge =>
      have hlast : i - r.instructions.length = 0 := by
        have hlt := (List.getElem?_eq_some_iff.mp hi).1
        rw [List.length_singleton] at hlt
        omega
      rw [hlast, List.getElem?_cons_zero] at hi
      cases hi
      refine ⟨hidx.trans ?_, hmark⟩
      have hi : r₁.instructions.length = i := by rw [hread]; omega
      exact congrArg Nat.cast hi

theorem readLoop_decoded {host : Host} {size : Nat} {limit : Int} {r r' : Reader}
    (hdecoded : Decoded r.instructions) (h : readLoop host size limit r = some r') :
    Decoded r'.instructions := by
  rw [readLoop] at h
  split at h
  · split at h
    · cases h
    · next r₁ hround => exact readLoop_decoded (readInstruction_decoded hdecoded hround) h
  · cases h
    exact hdecoded
termination_by r.tabInst.length
decreasing_by exact readInstruction_length (by assumption)

theorem adjustClosureRecFns_sameNumber {instPositions : Int → Option Int} {j n : Nat}
    {inst inst' : ZInstruction} (h : adjustClosureRecFns instPositions j n inst = some inst') :
    inst.SameNumber inst' := by
  induction n generalizing j inst with
  | zero => cases h; exact ⟨rfl, rfl⟩
  | succ n ih =>
      rw [adjustClosureRecFns] at h
      split at h
      · simp only [Option.bind_eq_bind, Option.bind_eq_some_iff] at h
        obtain ⟨idx, -, inst₁, hset, h⟩ := h
        exact (setClosureRecFn_sameNumber hset).trans (ih h)
      · cases h

theorem adjustInst_sameNumber {instPositions : Int → Option Int} {inst inst' : ZInstruction}
    (h : adjustInst instPositions inst = some inst') : inst.SameNumber inst' := by
  unfold adjustInst at h
  split at h
  · exact adjustClosureRecFns_sameNumber h
  · split at h <;> simp only [Option.bind_eq_bind, Option.bind_eq_some_iff] at h
    · obtain ⟨entries, -, h⟩ := h
      cases h
      exact ⟨rfl, rfl⟩
    · obtain ⟨argIdx, -, idx, -, h⟩ := h
      exact setArg_sameNumber h

theorem adjustInsts_decoded {instPositions : Int → Option Int} {ks : List Nat}
    {insts insts' : List ZInstruction} (hdecoded : Decoded insts)
    (h : adjustInsts instPositions ks insts = some insts') : Decoded insts' := by
  induction ks generalizing insts with
  | nil => cases h; exact hdecoded
  | cons k ks ih =>
      simp only [adjustInsts, Option.bind_eq_bind, Option.bind_eq_some_iff] at h
      obtain ⟨inst, hk, inst', hadjust, h⟩ := h
      refine ih (fun i inst₁ hi => ?_) h
      rw [List.getElem?_set] at hi
      split at hi
      · next heq =>
          split at hi
          · cases hi
            obtain ⟨hidx, hmark⟩ := adjustInst_sameNumber hadjust
            rw [hidx, hmark]
            exact hdecoded i inst (heq ▸ hk)
          · cases hi
      · exact hdecoded i inst₁ hi

/-- Reading numbers the instructions, whatever the words are. -/
theorem readInstructions_decoded {host : Host} {tabInst : List Int} {size : Int}
    {insts : List ZInstruction} (h : readInstructions host tabInst size = some insts) :
    Decoded insts := by
  simp only [readInstructions, Option.bind_eq_bind, Option.bind_eq_some_iff] at h
  obtain ⟨r, hloop, hadjust⟩ := h
  exact adjustInsts_decoded (readLoop_decoded (fun i inst hi => by simp at hi) hloop) hadjust

end CamllVM
