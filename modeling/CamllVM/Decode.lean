import CamllVM.Instruction

/-!
# Reading and annotating the bytecode

`readInstructions` walks the code words with two cursors, the pointer `TabInst` and the counter
`Pos`. It first stores code offsets as absolute word positions and then, in a second loop over the
instructions that have any, replaces each position by the index of the instruction found there.
`annotateNodes` marks the entries of functions and of basic blocks.

Reading past the last word, an unknown opcode, an index outside a record's arrays and a position at
which no instruction starts have no defined result in the source. They are `none` here.
-/

namespace CamllVM

/-- The byte order of the host, as `isBigEndian` finds it. -/
inductive Host where
  | littleEndian | bigEndian
  deriving DecidableEq, Repr

def swapEndianness (x : Int) : Int :=
  toInt32 (x % 256 * 16777216 + x / 256 % 256 * 65536 + x / 65536 % 256 * 256 + x / 16777216 % 256)

def toBigEndian (host : Host) (x : Int) : Int :=
  match host with
  | .bigEndian => swapEndianness x
  | .littleEndian => x

namespace ZInstruction

def setArg (inst : ZInstruction) (j : Nat) (v : Int) : Option ZInstruction :=
  if h : j < 4 then some { inst with args := inst.args.set j v } else none

def setClosureRecFn (inst : ZInstruction) (j : Nat) (v : Int) : Option ZInstruction :=
  if h : j < 32 then some { inst with closureRecFns := inst.closureRecFns.set j v } else none

end ZInstruction

/-- The variables of the reading loop. `tabInst` is the words from the pointer on,
`instPositions p` the `idx` of the instruction whose key is `p`, and `instsToAdjust` holds
positions in `instructions`, where the source holds pointers. -/
structure Reader where
  tabInst : List Int
  pos : Int
  instPositions : Int → Option Int
  instsToAdjust : List Nat
  instructions : List ZInstruction

namespace Reader

/-- `toBigEndian(*TabInst++)`. -/
def next (host : Host) (r : Reader) : Option (Int × Reader) :=
  match r.tabInst with
  | [] => none
  | w :: ws => some (toBigEndian host w, { r with tabInst := ws })

/-- `Pos += n`. -/
def advance (r : Reader) (n : Int) : Reader := { r with pos := toUInt32 (r.pos + n) }

/-- `InstsToAdjust.push_back(Inst)` for the instruction being read. -/
def adjustLater (r : Reader) : Reader :=
  { r with instsToAdjust := r.instsToAdjust ++ [r.instructions.length] }

end Reader

/-- The operand loop, from operand `j` on with `n` operands left. -/
def readArgs (host : Host) : Nat → Nat → ZInstruction → Reader → Option (ZInstruction × Reader)
  | _, 0, inst, r => some (inst, r)
  | j, n + 1, inst, r => do
      let (argVal, r) ← r.next host
      if (codeOffsetArgs inst.opNum).map Fin.val = some j then
        let inst ← inst.setArg j (toInt32 (r.pos + argVal + 1))
        readArgs host (j + 1) n inst (r.adjustLater.advance 1)
      else
        let inst ← inst.setArg j argVal
        readArgs host (j + 1) n inst (r.advance 1)

/-- The function table of `CLOSUREREC`, relative to `Pos`. -/
def readClosureRecFns (host : Host) : Nat → Nat → ZInstruction → Reader →
    Option (ZInstruction × Reader)
  | _, 0, inst, r => some (inst, r)
  | j, n + 1, inst, r => do
      let (argVal, r) ← r.next host
      let inst ← inst.setClosureRecFn j (toInt32 (r.pos + argVal))
      readClosureRecFns host (j + 1) n inst r

/-- The jump table of `SWITCH`, relative to `Pos`. -/
def readSwitchEntries (host : Host) : Nat → ZInstruction → Reader → Option (ZInstruction × Reader)
  | 0, inst, r => some (inst, r)
  | n + 1, inst, r => do
      let (argVal, r) ← r.next host
      readSwitchEntries host n
        { inst with switchEntries := inst.switchEntries ++ [toInt32 (r.pos + argVal)] } r

/-- `(Args[0] >> 16) + (Args[0] & 0XFFFF)`. -/
def ZInstruction.numSwitchEntries (inst : ZInstruction) : Int :=
  inst.arg 0 / 65536 + inst.arg 0 % 65536

/-- What follows the operands: nothing, or the table of `CLOSUREREC` or `SWITCH`. -/
def readTable (host : Host) (inst : ZInstruction) (r : Reader) : Option (ZInstruction × Reader) :=
  if inst.opNum = .closureRec then do
    let (inst, r) ← readClosureRecFns host 0 (inst.arg 0).toNat inst (r.advance 1)
    return (inst, (r.advance (inst.arg 0 - 1)).adjustLater)
  else if inst.opNum = .switch then do
    let n := inst.numSwitchEntries
    let (inst, r) ← readSwitchEntries host n.toNat inst (r.advance 1)
    return (inst, (r.advance (n - 1)).adjustLater)
  else
    return (inst, r)

/-- One round of the reading loop. `size` is the number of words of the whole code, by which the
pointer difference `TabInst - TabInstB` is known. -/
def readInstruction (host : Host) (size : Nat) (r : Reader) : Option Reader := do
  let origIdx := toInt32 (size - r.tabInst.length)
  let (word, r) ← r.next host
  let opNum ← OpCode.ofNum? word
  let idx : Int := r.instructions.length
  let r := r.advance 1
  let r := { r with
    instPositions := fun p => if p = toInt32 r.pos then some idx else r.instPositions p }
  let inst := { ZInstruction.blank opNum with origIdx := origIdx, idx := idx }
  let (inst, r) ← readArgs host 0 opNum.arity inst r
  let (inst, r) ← readTable host inst r
  return { r with instructions := r.instructions ++ [inst] }

section Progress

variable {host : Host}

theorem Reader.next_length {r r' : Reader} {w : Int} (h : r.next host = some (w, r')) :
    r'.tabInst.length + 1 = r.tabInst.length := by
  unfold next at h
  split at h
  · cases h
  · next heq =>
      cases h
      simp [heq]

theorem readArgs_length {j n : Nat} {inst inst' : ZInstruction} {r r' : Reader}
    (h : readArgs host j n inst r = some (inst', r')) :
    r'.tabInst.length ≤ r.tabInst.length := by
  induction n generalizing j inst r with
  | zero => cases h; exact Nat.le_refl _
  | succ n ih =>
      simp only [readArgs, Option.bind_eq_bind, Option.bind_eq_some_iff] at h
      obtain ⟨⟨w, r₁⟩, hnext, h⟩ := h
      have hlength := Reader.next_length hnext
      split at h <;> rw [Option.bind_eq_some_iff] at h <;> obtain ⟨_, _, h⟩ := h <;>
        have hrest := ih h <;> simp only [Reader.advance, Reader.adjustLater] at hrest <;> omega

theorem readClosureRecFns_length {j n : Nat} {inst inst' : ZInstruction} {r r' : Reader}
    (h : readClosureRecFns host j n inst r = some (inst', r')) :
    r'.tabInst.length ≤ r.tabInst.length := by
  induction n generalizing j inst r with
  | zero => cases h; exact Nat.le_refl _
  | succ n ih =>
      simp only [readClosureRecFns, Option.bind_eq_bind, Option.bind_eq_some_iff] at h
      obtain ⟨⟨w, r₁⟩, hnext, inst₁, _, h⟩ := h
      have hlength : r₁.tabInst.length + 1 = r.tabInst.length := Reader.next_length hnext
      have hrest : r'.tabInst.length ≤ r₁.tabInst.length := ih h
      omega

theorem readSwitchEntries_length {n : Nat} {inst inst' : ZInstruction} {r r' : Reader}
    (h : readSwitchEntries host n inst r = some (inst', r')) :
    r'.tabInst.length ≤ r.tabInst.length := by
  induction n generalizing inst r with
  | zero => cases h; exact Nat.le_refl _
  | succ n ih =>
      simp only [readSwitchEntries, Option.bind_eq_bind, Option.bind_eq_some_iff] at h
      obtain ⟨⟨w, r₁⟩, hnext, h⟩ := h
      have hlength : r₁.tabInst.length + 1 = r.tabInst.length := Reader.next_length hnext
      have hrest : r'.tabInst.length ≤ r₁.tabInst.length := ih h
      omega

theorem readTable_length {inst inst' : ZInstruction} {r r' : Reader}
    (h : readTable host inst r = some (inst', r')) : r'.tabInst.length ≤ r.tabInst.length := by
  unfold readTable at h
  split at h
  · simp only [Option.bind_eq_bind, Option.bind_eq_some_iff] at h
    obtain ⟨⟨inst₁, r₁⟩, hread, h⟩ := h
    cases h
    exact (readClosureRecFns_length hread : r₁.tabInst.length ≤ _)
  · split at h
    · simp only [Option.bind_eq_bind, Option.bind_eq_some_iff] at h
      obtain ⟨⟨inst₁, r₁⟩, hread, h⟩ := h
      cases h
      exact (readSwitchEntries_length hread : r₁.tabInst.length ≤ _)
    · cases h
      exact Nat.le_refl _

/-- Every round consumes the opcode word at least, so the reading loop ends. -/
theorem readInstruction_length {size : Nat} {r r' : Reader}
    (h : readInstruction host size r = some r') : r'.tabInst.length < r.tabInst.length := by
  simp only [readInstruction, Option.bind_eq_bind, Option.bind_eq_some_iff] at h
  obtain ⟨⟨w, r₁⟩, hnext, op, _, ⟨inst₁, r₂⟩, hargs, ⟨inst₂, r₃⟩, htable, h⟩ := h
  cases h
  have h₁ := Reader.next_length hnext
  have h₂ := readArgs_length hargs
  have h₃ := readTable_length htable
  simp only [Reader.advance] at h₁ h₂ h₃ ⊢
  omega

end Progress

/-- `while (Pos < Size)`. -/
def readLoop (host : Host) (size : Nat) (limit : Int) (r : Reader) : Option Reader :=
  if r.pos < limit then
    match _h : readInstruction host size r with
    | none => none
    | some r' => readLoop host size limit r'
  else
    some r
termination_by r.tabInst.length
decreasing_by exact readInstruction_length _h

/-- The fix-up of the function table, from entry `j` on with `n` entries left. -/
def adjustClosureRecFns (instPositions : Int → Option Int) : Nat → Nat → ZInstruction →
    Option ZInstruction
  | _, 0, inst => some inst
  | j, n + 1, inst =>
      if h : j < 32 then do
        let idx ← instPositions inst.closureRecFns[j]
        let inst ← inst.setClosureRecFn j idx
        adjustClosureRecFns instPositions (j + 1) n inst
      else
        none

/-- One round of the fix-up loop. -/
def adjustInst (instPositions : Int → Option Int) (inst : ZInstruction) : Option ZInstruction :=
  if inst.opNum = .closureRec then
    adjustClosureRecFns instPositions 0 (inst.arg 0).toNat inst
  else if inst.opNum = .switch then do
    let entries ← inst.switchEntries.mapM instPositions
    return { inst with switchEntries := entries }
  else do
    let argIdx ← codeOffsetArgs inst.opNum
    let idx ← instPositions (inst.arg argIdx)
    inst.setArg argIdx idx

def adjustInsts (instPositions : Int → Option Int) : List Nat → List ZInstruction →
    Option (List ZInstruction)
  | [], insts => some insts
  | k :: ks, insts => do
      let inst ← insts[k]?
      let inst ← adjustInst instPositions inst
      adjustInsts instPositions ks (insts.set k inst)

def readInstructions (host : Host) (tabInst : List Int) (size : Int) :
    Option (List ZInstruction) := do
  let r ← readLoop host tabInst.length (size / 4) ⟨tabInst, 0, fun _ => none, [], []⟩
  adjustInsts r.instPositions r.instsToAdjust r.instructions

/-! ### Annotation -/

/-- `Instructions[i]->Annotation = a`. -/
def annotate (a : InstrAnnotation) (insts : List ZInstruction) (i : Int) :
    Option (List ZInstruction) :=
  if 0 ≤ i then do
    let inst ← insts[i.toNat]?
    return insts.set i.toNat { inst with annotation := a }
  else
    none

/-- The marks that one instruction sets, in the order in which it sets them. -/
def ZInstruction.marks (inst : ZInstruction) : List (Int × InstrAnnotation) :=
  inst.closureTargets.map (·, .functionStart) ++
    ((if inst.isSwitch then inst.switchEntries else []) ++
      (if inst.isPushTrap then [inst.getDestIdx] else []) ++
      (if inst.isJumpInst then [inst.getDestIdx, inst.idx + 1] else [])).map (·, .blockStart)

def annotateNodes (insts : List ZInstruction) : Option (List ZInstruction) :=
  if insts.all fun inst => !inst.isClosureRec || inst.arg 0 ≤ 32 then
    (insts.flatMap ZInstruction.marks).foldlM (fun insts mark => annotate mark.2 insts mark.1) insts
  else
    none

end CamllVM
