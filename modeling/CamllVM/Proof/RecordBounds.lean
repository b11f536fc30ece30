import CamllVM.Proof.DecodeEncode

/-!
# The bounds of a record

`Args` has four elements and `ClosureRecFns` has thirty-two, and no loop over them tests an index.
The decoder of the model has no result where an index is out of bounds, so a program is followed
index by index: every element that the reading loop, the fix-up loop, `annotateNodes` and the code
generator of `CLOSUREREC` read or write, up to the first one outside.
-/

namespace CamllVM

/-- An element of an array of a record. -/
inductive FieldAccess where
  | args (j : Nat)
  | closureRecFns (j : Nat)
  deriving DecidableEq, Repr

/-- The declared sizes of `Args` and `ClosureRecFns`. -/
def FieldAccess.InBounds : FieldAccess → Prop
  | args j => j < 4
  | closureRecFns j => j < 32

instance FieldAccess.decidableInBounds : DecidablePred FieldAccess.InBounds
  | args j => Nat.decLt j 4
  | closureRecFns j => Nat.decLt j 32

namespace ZInstruction

/-- `for (int j = 0; j < Inst->Args[0]; j++)`, over `Inst->ClosureRecFns[j]`. -/
def functionTableAccesses (inst : ZInstruction) : List FieldAccess :=
  .args 0 :: (List.range (inst.arg 0).toNat).map .closureRecFns

def tableAccesses (inst : ZInstruction) : List FieldAccess :=
  if inst.opNum = .closureRec then inst.functionTableAccesses
  else if inst.opNum = .switch then [.args 0]
  else []

def adjustAccesses (inst : ZInstruction) : List FieldAccess :=
  if inst.opNum = .closureRec then inst.functionTableAccesses
  else if inst.opNum = .switch then []
  else [.args ((codeOffsetArgs inst.opNum).getD 0)]

/-- What `annotateNodes` uses. -/
def annotateAccesses (inst : ZInstruction) : List FieldAccess :=
  if inst.isClosureRec then inst.functionTableAccesses
  else if inst.isClosure || inst.isPushTrap || inst.isJumpInst then
    [.args ((codeOffsetArgs inst.opNum).getD 0)]
  else []

/-- What the code generator of `CLOSUREREC` uses: `Args[0]`, `Args[1]`, `ClosureRecFns[0]`, and
`ClosureRecFns[i]` for every `i` from 1 on that is less than `Args[0]`. -/
def closureRecAccesses (inst : ZInstruction) : List FieldAccess :=
  if inst.isClosureRec then
    [.args 0, .args 1, .closureRecFns 0] ++
      ((List.range (inst.arg 0).toNat).drop 1).map .closureRecFns
  else []

end ZInstruction

def roundAccesses (host : Host) (size : Nat) (r : Reader) : List FieldAccess :=
  let origIdx := toInt32 (size - r.tabInst.length)
  match r.next host with
  | none => []
  | some (word, r) =>
      match OpCode.ofNum? word with
      | none => []
      | some opNum =>
          let idx : Int := r.instructions.length
          let r := r.advance 1
          let r := { r with
            instPositions := fun p => if p = toInt32 r.pos then some idx else r.instPositions p }
          let inst := { ZInstruction.blank opNum with origIdx := origIdx, idx := idx }
          (List.range opNum.arity).map .args ++
            match readArgs host 0 opNum.arity inst r with
            | none => []
            | some (inst, _) => inst.tableAccesses

def readLoopAccesses (host : Host) (size : Nat) (limit : Int) (r : Reader) : List FieldAccess :=
  if r.pos < limit then
    roundAccesses host size r ++
      match _h : readInstruction host size r with
      | none => []
      | some r' => readLoopAccesses host size limit r'
  else
    []
termination_by r.tabInst.length
decreasing_by exact readInstruction_length _h

def adjustInstsAccesses (instPositions : Int → Option Int) :
    List Nat → List ZInstruction → List FieldAccess
  | [], _ => []
  | k :: ks, insts =>
      match insts[k]? with
      | none => []
      | some inst =>
          inst.adjustAccesses ++
            match adjustInst instPositions inst with
            | none => []
            | some inst => adjustInstsAccesses instPositions ks (insts.set k inst)

/-- The elements of `Args` and `ClosureRecFns` that are used from the first word of a program to
its code: by both loops of `readInstructions`, by `annotateNodes` and for every `CLOSUREREC`. -/
def recordAccesses (host : Host) (tabInst : List Int) (size : Int) : List FieldAccess :=
  let start : Reader := ⟨tabInst, 0, fun _ => none, [], []⟩
  readLoopAccesses host tabInst.length (size / 4) start ++
    match readLoop host tabInst.length (size / 4) start with
    | none => []
    | some r =>
        adjustInstsAccesses r.instPositions r.instsToAdjust r.instructions ++
          match adjustInsts r.instPositions r.instsToAdjust r.instructions with
          | none => []
          | some insts => insts.flatMap fun inst => inst.annotateAccesses ++ inst.closureRecAccesses

/-! ### Where the decoder has a result -/

section Defined

variable {host : Host}

theorem arity_lt_of_mem {op : OpCode} {a : FieldAccess} (h : a ∈ (List.range op.arity).map .args) :
    a.InBounds := by
  obtain ⟨j, hj, rfl⟩ := List.mem_map.mp h
  have harity := op.arity_le_two
  rw [List.mem_range] at hj
  exact (by omega : j < 4)

theorem functionTableAccesses_inBounds {inst : ZInstruction} (h : inst.arg 0 ≤ 32) :
    ∀ a ∈ inst.functionTableAccesses, a.InBounds := by
  intro a ha
  rcases List.mem_cons.mp ha with rfl | ha
  · exact (by decide : (0 : Nat) < 4)
  · obtain ⟨j, hj, rfl⟩ := List.mem_map.mp ha
    rw [List.mem_range] at hj
    exact (by omega : j < 32)

theorem ZInstruction.mem_tableAccesses {inst : ZInstruction} (hop : inst.opNum = .closureRec)
    {j : Nat} (hj : (j : Int) < inst.arg 0) : .closureRecFns j ∈ inst.tableAccesses := by
  rw [tableAccesses, if_pos hop]
  exact List.mem_cons_of_mem _ (List.mem_map_of_mem (List.mem_range.mpr (by omega)))

theorem readClosureRecFns_le {j n : Nat} {inst inst' : ZInstruction} {r r' : Reader}
    (h : readClosureRecFns host j n inst r = some (inst', r')) (hj : j ≤ 32) : j + n ≤ 32 := by
  induction n generalizing j inst r with
  | zero => exact hj
  | succ n ih =>
      simp only [readClosureRecFns, Option.bind_eq_bind, Option.bind_eq_some_iff] at h
      obtain ⟨⟨w, r₁⟩, hnext, inst₁, hset, h⟩ := h
      have hlt : j < 32 := by
        by_contra hge
        rw [ZInstruction.setClosureRecFn, dif_neg hge] at hset
        cases hset
      have hle := ih h hlt
      omega

theorem adjustClosureRecFns_le {instPositions : Int → Option Int} {j n : Nat}
    {inst inst' : ZInstruction} (h : adjustClosureRecFns instPositions j n inst = some inst')
    (hj : j ≤ 32) : j + n ≤ 32 := by
  induction n generalizing j inst with
  | zero => exact hj
  | succ n ih =>
      by_cases hlt : j < 32
      · simp only [adjustClosureRecFns, dif_pos hlt, Option.bind_eq_bind,
          Option.bind_eq_some_iff] at h
        obtain ⟨idx, hidx, inst₁, hset, h⟩ := h
        have hle := ih h hlt
        omega
      · rw [adjustClosureRecFns, dif_neg hlt] at h
        cases h

theorem tableAccesses_inBounds {inst inst' : ZInstruction} {r r' : Reader}
    (h : readTable host inst r = some (inst', r')) : ∀ a ∈ inst.tableAccesses, a.InBounds := by
  intro a ha
  unfold ZInstruction.tableAccesses at ha
  split at ha
  · next hop =>
      simp only [readTable, if_pos hop, Option.bind_eq_bind, Option.bind_eq_some_iff] at h
      obtain ⟨x, hfns, h⟩ := h
      have hle := readClosureRecFns_le hfns (Nat.zero_le 32)
      exact functionTableAccesses_inBounds (by omega) a ha
  · split at ha
    · rw [List.mem_singleton] at ha
      subst ha
      exact (by decide : (0 : Nat) < 4)
    · cases ha

/-- A round that the decoder of the model completes uses no element outside its array. -/
theorem roundAccesses_inBounds {size : Nat} {r r' : Reader}
    (h : readInstruction host size r = some r') : ∀ a ∈ roundAccesses host size r, a.InBounds := by
  intro a ha
  simp only [readInstruction, Option.bind_eq_bind, Option.bind_eq_some_iff] at h
  obtain ⟨⟨word, r₁⟩, hnext, op, hop, ⟨inst, r₂⟩, hargs, ⟨inst', r₃⟩, htable, h⟩ := h
  simp only [roundAccesses, hnext, hop, hargs, List.mem_append] at ha
  rcases ha with ha | ha
  · exact arity_lt_of_mem ha
  · exact tableAccesses_inBounds htable a ha

theorem readLoop_of_round {size : Nat} {limit : Int} {r : Reader} (h : r.pos < limit) :
    readLoop host size limit r =
      (readInstruction host size r).bind (readLoop host size limit) := by
  rw [readLoop, if_pos h]
  split
  · next hround => rw [hround, Option.bind_none]
  · next r' hround => rw [hround, Option.bind_some]

theorem readLoopAccesses_of_round {size : Nat} {limit : Int} {r : Reader} (h : r.pos < limit) :
    readLoopAccesses host size limit r =
      roundAccesses host size r ++
        (readInstruction host size r).elim [] (readLoopAccesses host size limit) := by
  rw [readLoopAccesses, if_pos h]
  split
  · next hround => rw [hround, Option.elim_none]
  · next r' hround => rw [hround, Option.elim_some]

theorem readLoopAccesses_inBounds {size : Nat} {limit : Int} {r r' : Reader}
    (h : readLoop host size limit r = some r') :
    ∀ a ∈ readLoopAccesses host size limit r, a.InBounds := by
  induction r using readLoopAccesses.induct host size limit with
  | case1 r hlt ih =>
      cases hround : readInstruction host size r with
      | none =>
          rw [readLoop_of_round hlt, hround] at h
          cases h
      | some r₁ =>
          rw [readLoop_of_round hlt, hround, Option.bind_some] at h
          rw [readLoopAccesses_of_round hlt, hround, Option.elim_some]
          exact List.forall_mem_append.mpr ⟨roundAccesses_inBounds hround, ih r₁ hround h⟩
  | case2 r hge =>
      rw [readLoopAccesses, if_neg hge]
      intro a ha
      cases ha

theorem adjustAccesses_inBounds {instPositions : Int → Option Int} {inst inst' : ZInstruction}
    (h : adjustInst instPositions inst = some inst') : ∀ a ∈ inst.adjustAccesses, a.InBounds := by
  intro a ha
  unfold ZInstruction.adjustAccesses at ha
  split at ha
  · next hop =>
      rw [adjustInst, if_pos hop] at h
      have hle := adjustClosureRecFns_le h (Nat.zero_le 32)
      exact functionTableAccesses_inBounds (by omega) a ha
  · split at ha
    · cases ha
    · rw [List.mem_singleton] at ha
      subst ha
      exact Fin.isLt _

theorem adjustInstsAccesses_inBounds {instPositions : Int → Option Int} {ks : List Nat}
    {insts insts' : List ZInstruction} (h : adjustInsts instPositions ks insts = some insts') :
    ∀ a ∈ adjustInstsAccesses instPositions ks insts, a.InBounds := by
  induction ks generalizing insts with
  | nil => exact List.forall_mem_nil _
  | cons k ks ih =>
      simp only [adjustInsts, Option.bind_eq_bind, Option.bind_eq_some_iff] at h
      obtain ⟨inst, hget, inst₁, hadjust, h⟩ := h
      simp only [adjustInstsAccesses, hget, hadjust]
      exact List.forall_mem_append.mpr ⟨adjustAccesses_inBounds hadjust, ih h⟩

theorem recordUse_inBounds {inst : ZInstruction} (h : inst.isClosureRec → inst.arg 0 ≤ 32) :
    ∀ a ∈ inst.annotateAccesses ++ inst.closureRecAccesses, a.InBounds := by
  refine List.forall_mem_append.mpr ?_
  unfold ZInstruction.annotateAccesses ZInstruction.closureRecAccesses
  by_cases hrec : inst.isClosureRec
  · have htable := functionTableAccesses_inBounds (h hrec)
    rw [if_pos hrec, if_pos hrec]
    refine ⟨htable, fun a ha => ?_⟩
    rcases List.mem_append.mp ha with ha | ha
    · have hfirst : ∀ a ∈ [FieldAccess.args 0, .args 1, .closureRecFns 0], a.InBounds := by decide
      exact hfirst a ha
    · obtain ⟨j, hj, rfl⟩ := List.mem_map.mp ha
      exact htable _ (List.mem_cons_of_mem _ (List.mem_map_of_mem (List.mem_of_mem_drop hj)))
  · rw [if_neg hrec, if_neg hrec]
    refine ⟨fun a ha => ?_, List.forall_mem_nil _⟩
    split at ha
    · rw [List.mem_singleton] at ha
      subst ha
      exact Fin.isLt _
    · cases ha

end Defined

/-! ### Programs with recursive definitions of any size -/

/-- An instruction of a program of `n` instructions: one that the records can hold, or a
`CLOSUREREC` of more functions than `ClosureRecFns` has elements. -/
inductive ZamInstruction (n : Nat) where
  | short (i : SymInstruction n)
  | longClosureRec (nvars : Int) (fns : List (Fin n)) (hlong : 32 < fns.length)

namespace ZamInstruction

variable {n : Nat}

/-- The functions of a `CLOSUREREC`. -/
def fns : ZamInstruction n → List (Fin n)
  | short (.closureRec _ fns ..) => fns
  | short _ => []
  | longClosureRec _ fns _ => fns

def width : ZamInstruction n → Nat
  | short i => i.width
  | longClosureRec _ fns _ => 3 + fns.length

def words (pos : Fin n → Int) (at_ : Int) : ZamInstruction n → List Int
  | short i => i.words pos at_
  | longClosureRec nvars fns _ =>
      OpCode.closureRec.num :: fns.length :: nvars :: fns.map fun t => pos t - (at_ + 3)

def encodeFrom (pos : Fin n → Int) : Nat → List (ZamInstruction n) → List Int
  | _, [] => []
  | at_, i :: code => i.words pos at_ ++ encodeFrom pos (at_ + i.width) code

@[simp]
theorem length_words (pos : Fin n → Int) (at_ : Int) (i : ZamInstruction n) :
    (i.words pos at_).length = i.width := by
  cases i with
  | short i => exact i.length_words pos at_
  | longClosureRec nvars fns hlong =>
      simp only [words, width, List.length_cons, List.length_map]
      omega

@[simp]
theorem length_encodeFrom (pos : Fin n → Int) (at_ : Nat) (code : List (ZamInstruction n)) :
    (encodeFrom pos at_ code).length = Layout.total width code := by
  induction code generalizing at_ with
  | nil => rfl
  | cons i code ih => rw [encodeFrom, List.length_append, ih, length_words, Layout.total_cons]

theorem exists_short {i : ZamInstruction n} (h : i.fns.length ≤ 32) :
    ∃ j : SymInstruction n, i = short j := by
  cases i with
  | short j => exact ⟨j, rfl⟩
  | longClosureRec nvars fns hlong => exact absurd h (Nat.not_le.mpr hlong)

/-- Instructions that the records can hold, as the decoder's correctness has them. -/
theorem exists_map_short {code : List (ZamInstruction n)} (h : ∀ i ∈ code, i.fns.length ≤ 32) :
    ∃ shorts : List (SymInstruction n), code = shorts.map short := by
  induction code with
  | nil => exact ⟨[], rfl⟩
  | cons i code ih =>
      obtain ⟨j, rfl⟩ := exists_short (h i (List.mem_cons_self ..))
      obtain ⟨shorts, rfl⟩ := ih fun i hi => h i (List.mem_cons_of_mem _ hi)
      exact ⟨j :: shorts, rfl⟩

theorem encodeFrom_map_short (pos : Fin n → Int) (at_ : Nat) (code : List (SymInstruction n)) :
    encodeFrom pos at_ (code.map short) = CamllVM.encodeFrom pos at_ code := by
  induction code generalizing at_ with
  | nil => rfl
  | cons i code ih =>
      rw [List.map_cons, encodeFrom, CamllVM.encodeFrom, ← ih]
      rfl

end ZamInstruction

/-- A program with recursive definitions of any number of functions. -/
structure ZamProgram where
  size : Nat
  code : List (ZamInstruction size)
  length_code : code.length = size

namespace ZamProgram

def position (p : ZamProgram) (i : Nat) : Nat := Layout.offset ZamInstruction.width p.code i

def encode (p : ZamProgram) : List Int := ZamInstruction.encodeFrom (fun t => p.position t) 0 p.code

end ZamProgram

/-! ### The bound -/

theorem roundAccesses_of_parts {size at_ : Nat} {op : OpCode} {ws : List Int}
    {inst : ZInstruction} {r r₁ : Reader} (htab : r.tabInst = (op.num : Int) :: ws)
    (hpos : r.pos = at_) (hat : at_ < 1073741824) (hsize : size = at_ + (ws.length + 1))
    (hargs : readArgs .littleEndian 0 op.arity (numbered op r.instructions.length at_)
      (r.opened at_ ws) = some (inst, r₁)) :
    roundAccesses .littleEndian size r = (List.range op.arity).map .args ++ inst.tableAccesses := by
  obtain ⟨horig, hadvance, hkey⟩ := opening_words hat hsize
  simp only [numbered, Reader.opened] at hargs
  simp only [roundAccesses, Reader.next, htab, hpos, toBigEndian, List.length_cons, horig,
    Reader.advance, hadvance, hkey, OpCode.ofNum?_num, hargs]

/-- `Args[0]` is the number of functions, which the loop over the table goes up to. -/
theorem longClosureRec_accesses {n size at_ : Nat} {target : Fin n → Int} {nvars : Int}
    {fns : List (Fin n)} (hlong : 32 < fns.length) {rest : List Int} {r : Reader}
    (htab : r.tabInst = (ZamInstruction.longClosureRec nvars fns hlong).words target at_ ++ rest)
    (hpos : r.pos = at_) (hbound : at_ + 3 < 1073741824)
    (hsize : size = at_ + (3 + fns.length + rest.length)) :
    .closureRecFns 32 ∈ roundAccesses .littleEndian size r := by
  have hat : at_ < 1073741824 := by omega
  let table := fns.map fun t => target t - ((at_ : Int) + 3)
  let ws := [(fns.length : Int), nvars] ++ (table ++ rest)
  have htab' : r.tabInst = (OpCode.closureRec.num : Int) :: ws := htab
  have hlength : table.length = fns.length := List.length_map _
  have hwords : size = at_ + (ws.length + 1) := by
    simp only [ws, List.length_append, List.length_cons, List.length_nil]
    omega
  have hargs := readArgs_opened .closureRec r.instructions.length [(fns.length : Int), nvars]
    (table ++ rest) r (by simp [codeOffsetArgs]) (by simp) hat
  rw [roundAccesses_of_parts htab' hpos hat hwords hargs]
  refine List.mem_append_right _ (ZInstruction.mem_tableAccesses rfl ?_)
  have hcount : (pad 4 [(fns.length : Int), nvars])[0] = fns.length := pad_getElem _ (by decide)
  calc ((32 : Nat) : Int) < fns.length := by exact_mod_cast hlong
    _ = _ := hcount.symm

/-- The reading loop over the words of instructions, behind words it has read. -/
theorem fns_le_of_readLoopAccesses {n size at_ : Nat} {target : Fin n → Int}
    (htarget : ∀ t, 0 ≤ target t ∧ target t < 1073741824) {code : List (ZamInstruction n)}
    {r : Reader} (htab : r.tabInst = ZamInstruction.encodeFrom target at_ code)
    (hpos : r.pos = at_) (hsize : size = at_ + Layout.total ZamInstruction.width code)
    (hbound : size < 1073741824)
    (h : ∀ a ∈ readLoopAccesses .littleEndian size size r, a.InBounds) :
    ∀ i ∈ code, i.fns.length ≤ 32 := by
  induction code generalizing at_ r with
  | nil => exact List.forall_mem_nil _
  | cons i code ih =>
      rw [Layout.total_cons] at hsize
      rw [ZamInstruction.encodeFrom] at htab
      cases i with
      | longClosureRec nvars fns hlong =>
          have hwidth : (ZamInstruction.longClosureRec nvars fns hlong).width = 3 + fns.length := rfl
          rw [readLoopAccesses_of_round (by omega)] at h
          have hout : (32 : Nat) < 32 := h (.closureRecFns 32) (List.mem_append_left _
            (longClosureRec_accesses hlong htab hpos (by omega)
              (by rw [ZamInstruction.length_encodeFrom]; omega)))
          exact absurd hout (Nat.lt_irrefl 32)
      | short i =>
          have hpositive := i.width_pos
          have hwidth : (ZamInstruction.short i).width = i.width := rfl
          have hround : readInstruction .littleEndian size r = _ :=
            readInstruction_words htarget i r _ htab hpos (by omega)
              (by rw [ZamInstruction.length_encodeFrom]; omega)
          rw [readLoopAccesses_of_round (by omega), hround, Option.elim_some] at h
          have hfns : (ZamInstruction.short i).fns.length ≤ 32 := by
            cases i with
            | closureRec nvars fns hpos hmax => exact hmax
            | _ => exact Nat.zero_le 32
          have hrest := ih rfl (by simp [Reader.after, hwidth]) (by omega)
            (List.forall_mem_append.mp h).2
          exact List.forall_mem_cons.mpr ⟨hfns, hrest⟩

/-- The records of a program whose tables fit hold no larger number of functions. -/
theorem arg_zero_le_of_mem_recordsFrom {n : Nat} {name : Fin n → Int} {idx at_ : Nat}
    {code : List (SymInstruction n)} :
    ∀ inst ∈ recordsFrom name idx at_ code, inst.isClosureRec → inst.arg 0 ≤ 32 := by
  induction code generalizing idx at_ with
  | nil => exact List.forall_mem_nil _
  | cons i code ih =>
      refine List.forall_mem_cons.mpr ⟨fun hrec => ?_, ih⟩
      cases i with
      | plain op operands hoffset hclosureRec =>
          exact absurd (eq_of_beq hrec) hclosureRec
      | offset op operands k hoffset =>
          have hop : op = .closureRec := eq_of_beq hrec
          rw [hop] at hoffset
          cases hoffset
      | closureRec nvars fns hpos hmax =>
          have hcount : (pad 4 [(fns.length : Int), nvars])[0] = fns.length :=
            pad_getElem _ (by decide)
          calc (pad 4 [(fns.length : Int), nvars])[0] = fns.length := hcount
            _ ≤ 32 := by exact_mod_cast hmax
      | switch => cases hrec

theorem ZamProgram.exists_symProgram {p : ZamProgram} (h : ∀ i ∈ p.code, i.fns.length ≤ 32) :
    ∃ q : SymProgram, q.encode = p.encode := by
  obtain ⟨size, code, hlength⟩ := p
  have hcode : ∀ i ∈ code, i.fns.length ≤ 32 := h
  obtain ⟨shorts, rfl⟩ := ZamInstruction.exists_map_short hcode
  refine ⟨⟨size, shorts, by rwa [List.length_map] at hlength⟩, ?_⟩
  have hposition : ∀ i, Layout.offset ZamInstruction.width (shorts.map .short) i =
      Layout.offset SymInstruction.width shorts i := by
    intro i
    rw [Layout.offset, Layout.offset, ← List.map_take, List.map_map]
    rfl
  simp only [encode, SymProgram.encode, position, SymProgram.position, hposition,
    ZamInstruction.encodeFrom_map_short]

theorem ZamProgram.fns_le {p : ZamProgram} (hsize : 4 * p.encode.length < 2 ^ 32)
    (h : ∀ a ∈ readLoopAccesses .littleEndian p.encode.length p.encode.length
      ⟨p.encode, 0, fun _ => none, [], []⟩, a.InBounds) :
    ∀ i ∈ p.code, i.fns.length ≤ 32 := by
  have htotal : p.encode.length = Layout.total ZamInstruction.width p.code :=
    ZamInstruction.length_encodeFrom _ _ _
  refine fns_le_of_readLoopAccesses (fun t => ?_) rfl Nat.cast_zero.symm (by omega) (by omega) h
  have hle : p.position t ≤ Layout.total ZamInstruction.width p.code :=
    Layout.offset_le_total _ _ _
  omega

/-- The decoder of the model has a result for the programs that stay inside their records. -/
theorem readInstructions_isSome_iff (p : ZamProgram) (hsize : 4 * p.encode.length < 2 ^ 32) :
    (readInstructions .littleEndian p.encode (4 * p.encode.length)).isSome ↔
      ∀ i ∈ p.code, i.fns.length ≤ 32 := by
  constructor
  · intro h
    obtain ⟨insts, hread⟩ := Option.isSome_iff_exists.mp h
    rw [readInstructions, show (4 * (p.encode.length : Int)) / 4 = p.encode.length by omega,
      Option.bind_eq_bind, Option.bind_eq_some_iff] at hread
    obtain ⟨r, hloop, hadjust⟩ := hread
    exact p.fns_le hsize (readLoopAccesses_inBounds hloop)
  · intro h
    obtain ⟨q, hq⟩ := ZamProgram.exists_symProgram h
    rw [← hq] at hsize ⊢
    rw [q.readInstructions_words hsize, Option.isSome_some]

/-- The decoder, `annotateNodes` and the code generator of `CLOSUREREC` stay inside `Args` and
`ClosureRecFns` on the programs with no more than thirty-two functions in a recursive definition. -/
theorem recordAccesses_inBounds_iff (p : ZamProgram) (hsize : 4 * p.encode.length < 2 ^ 32) :
    (∀ a ∈ recordAccesses .littleEndian p.encode (4 * p.encode.length), a.InBounds) ↔
      ∀ i ∈ p.code, i.fns.length ≤ 32 := by
  constructor
  · intro h
    rw [recordAccesses, show (4 * (p.encode.length : Int)) / 4 = p.encode.length by omega] at h
    exact p.fns_le hsize (List.forall_mem_append.mp h).1
  · intro h
    obtain ⟨q, hq⟩ := ZamProgram.exists_symProgram h
    rw [← hq] at hsize ⊢
    have hread := q.readInstructions_words hsize
    simp only [readInstructions, Option.bind_eq_bind, Option.bind_eq_some_iff] at hread
    obtain ⟨r, hloop, hadjust⟩ := hread
    simp only [recordAccesses, hloop, hadjust]
    refine List.forall_mem_append.mpr ⟨readLoopAccesses_inBounds hloop,
      List.forall_mem_append.mpr ⟨adjustInstsAccesses_inBounds hadjust, ?_⟩⟩
    intro a ha
    obtain ⟨inst, hinst, ha⟩ := List.mem_flatMap.mp ha
    exact recordUse_inBounds (arg_zero_le_of_mem_recordsFrom inst hinst) a ha

/-- Two functions that are defined together, with the same code. -/
def twoFunctionsDefined : ZamProgram where
  size := 4
  code :=
    [.short (.closureRec 0 [2, 2] (by decide) (by decide)),
     .short (.ofPlain .stop [] (.refl true)),
     .short (.ofPlain .acc0 [] (.refl true)),
     .short (.ofPlain .return_ [1] (.refl true))]
  length_code := rfl

theorem recordAccesses_inBounds_iff_twoFunctionsDefined :
    (∀ a ∈ recordAccesses .littleEndian twoFunctionsDefined.encode
        (4 * twoFunctionsDefined.encode.length), a.InBounds) ↔
      ∀ i ∈ twoFunctionsDefined.code, i.fns.length ≤ 32 :=
  recordAccesses_inBounds_iff twoFunctionsDefined (by decide)

/-- The same for thirty-three functions. -/
def thirtyThreeFunctionsDefined : ZamProgram where
  size := 4
  code :=
    [.longClosureRec 0 (List.replicate 33 2) (by decide),
     .short (.ofPlain .stop [] (.refl true)),
     .short (.ofPlain .acc0 [] (.refl true)),
     .short (.ofPlain .return_ [1] (.refl true))]
  length_code := rfl

/-- The last function of the table is stored behind `ClosureRecFns`. -/
theorem not_recordAccesses_inBounds_thirtyThreeFunctionsDefined :
    4 * thirtyThreeFunctionsDefined.encode.length < 2 ^ 32 ∧
      ¬ ∀ a ∈ recordAccesses .littleEndian thirtyThreeFunctionsDefined.encode
        (4 * thirtyThreeFunctionsDefined.encode.length), a.InBounds := by
  have hsize : 4 * thirtyThreeFunctionsDefined.encode.length < 2 ^ 32 := by decide
  refine ⟨hsize, fun h => ?_⟩
  rw [recordAccesses, show (4 * (thirtyThreeFunctionsDefined.encode.length : Int)) / 4 =
    thirtyThreeFunctionsDefined.encode.length by omega] at h
  have hle := thirtyThreeFunctionsDefined.fns_le hsize (List.forall_mem_append.mp h).1
  exact absurd (hle _ (List.mem_cons_self ..)) (by decide)

end CamllVM
