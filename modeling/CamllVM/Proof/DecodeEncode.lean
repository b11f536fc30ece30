import CamllVM.Encode

/-!
# Decoding undoes encoding

The reading loop keeps its two cursors together: before each round `TabInst` points at the words of
the next instruction and `Pos` is the number of words before it. A code offset is turned into the
position of its target plus one, which is the key under which the target was entered in
`InstPositions`, so the fix-up loop finds the target's index.
-/

namespace CamllVM

/-! ### The arrays of a record -/

theorem pad_nil (n : Nat) : pad n [] = Vector.replicate n 0 := by
  ext j hj
  simp [pad]

theorem pad_getElem {n j : Nat} (l : List Int) (hj : j < n) : (pad n l)[j] = l.getD j 0 := by
  simp [pad]

theorem pad_set {n : Nat} {l : List Int} (h : l.length < n) (v : Int) :
    (pad n l).set l.length v h = pad n (l ++ [v]) := by
  ext j hj
  rw [Vector.getElem_set, pad_getElem, pad_getElem]
  split
  · next heq => simp [← heq]
  · next hne =>
      rcases Nat.lt_or_ge j l.length with hlt | hge
      · simp [List.getElem?_append_left hlt]
      · have hout : (l ++ [v]).length ≤ j := by
          simp only [List.length_append, List.length_singleton]
          omega
        simp only [List.getD_eq_getElem?_getD, List.getElem?_eq_none hge, List.getElem?_eq_none hout]

theorem setArg_pad {inst : ZInstruction} {l : List Int} (hargs : inst.args = pad 4 l)
    (h : l.length < 4) (v : Int) :
    inst.setArg l.length v = some { inst with args := pad 4 (l ++ [v]) } := by
  rw [ZInstruction.setArg, dif_pos h, hargs, pad_set h]

theorem setClosureRecFn_pad {inst : ZInstruction} {l : List Int}
    (hfns : inst.closureRecFns = pad 32 l) (h : l.length < 32) (v : Int) :
    inst.setClosureRecFn l.length v = some { inst with closureRecFns := pad 32 (l ++ [v]) } := by
  rw [ZInstruction.setClosureRecFn, dif_pos h, hfns, pad_set h]

/-! ### Reading one instruction -/

/-- Operands that are no code offsets are stored as they are. -/
theorem readArgs_plain (inst : ZInstruction) (stored ws rest : List Int) (r : Reader)
    (htab : r.tabInst = ws ++ rest)
    (hoffset : ∀ k, codeOffsetArgs inst.opNum = some k → stored.length + ws.length ≤ k)
    (hargs : inst.args = pad 4 stored) (hlength : stored.length + ws.length ≤ 4)
    (hlow : 0 ≤ r.pos) (hhigh : r.pos + ws.length < 4294967296) :
    readArgs .littleEndian stored.length ws.length inst r =
      some ({ inst with args := pad 4 (stored ++ ws) },
        { r with tabInst := rest, pos := r.pos + ws.length }) := by
  induction ws generalizing stored inst r with
  | nil => simp [readArgs, ← hargs, show rest = r.tabInst by simpa using htab.symm]
  | cons w ws ih =>
      have hnot : (codeOffsetArgs inst.opNum).map Fin.val ≠ some stored.length := by
        intro heq
        obtain ⟨k, hk, hval⟩ := Option.map_eq_some_iff.mp heq
        have hle := hoffset k hk
        simp only [List.length_cons] at hle
        omega
      simp only [List.length_cons, Nat.cast_add, Nat.cast_one] at hlength hhigh hoffset ⊢
      have hstep := ih { inst with args := pad 4 (stored ++ [w]) } (stored ++ [w])
        { r with tabInst := ws ++ rest, pos := r.pos + 1 } rfl
        (fun k hk => by simpa [Nat.add_assoc, Nat.add_comm 1] using hoffset k hk) rfl
        (by simp only [List.length_append, List.length_singleton]; omega)
        (by simp only; omega) (by simp only; omega)
      simp only [List.length_append, List.length_singleton, List.append_assoc,
        List.singleton_append] at hstep
      simp only [readArgs, Reader.next, htab, List.cons_append, toBigEndian, Option.bind_eq_bind,
        Option.bind_some, if_neg hnot, setArg_pad hargs (show stored.length < 4 by omega),
        Reader.advance, toUInt32_of_small (show 0 ≤ r.pos + 1 by omega) (by omega), hstep]
      rw [add_assoc, add_comm 1]

theorem readArgs_add (host : Host) (a b : Nat) (j : Nat) (inst : ZInstruction) (r : Reader) :
    readArgs host j (a + b) inst r =
      (readArgs host j a inst r).bind fun x => readArgs host (j + a) b x.1 x.2 := by
  induction a generalizing j inst r with
  | zero => simp [readArgs]
  | succ a ih =>
      rw [show a + 1 + b = a + b + 1 by omega, show j + (a + 1) = j + 1 + a by omega]
      cases hnext : r.next host with
      | none => simp [readArgs, hnext]
      | some x =>
          obtain ⟨w, r₁⟩ := x
          simp only [readArgs, hnext, Option.bind_eq_bind, Option.bind_some]
          split
          · cases inst.setArg j (toInt32 (r₁.pos + w + 1)) with
            | none => rfl
            | some inst₁ => exact ih (j + 1) inst₁ _
          · cases inst.setArg j w with
            | none => rfl
            | some inst₁ => exact ih (j + 1) inst₁ _

/-- A code offset behind the other operands is stored as the position of its target plus one. -/
theorem readArgs_offset (inst : ZInstruction) (stored rest : List Int) (target : Int) (r : Reader)
    (htab : r.tabInst = (target - r.pos) :: rest)
    (hoffset : (codeOffsetArgs inst.opNum).map Fin.val = some stored.length)
    (hargs : inst.args = pad 4 stored) (hlength : stored.length < 4)
    (hlow : 0 ≤ r.pos) (hhigh : r.pos + 1 < 4294967296)
    (htarget : 0 ≤ target ∧ target < 1073741824) :
    readArgs .littleEndian stored.length 1 inst r =
      some ({ inst with args := pad 4 (stored ++ [target + 1]) },
        { r with
          tabInst := rest, pos := r.pos + 1,
          instsToAdjust := r.instsToAdjust ++ [r.instructions.length] }) := by
  have hvalue : toInt32 (r.pos + (target - r.pos) + 1) = target + 1 := by
    rw [toInt32_of_small (by omega) (by omega)]
    ring
  simp only [readArgs, Reader.next, htab, toBigEndian, Option.bind_eq_bind, Option.bind_some,
    if_pos hoffset, hvalue, setArg_pad hargs hlength, Reader.advance, Reader.adjustLater,
    toUInt32_of_small (show 0 ≤ r.pos + 1 by omega) hhigh]

theorem readClosureRecFns_table (inst : ZInstruction) (stored ws rest : List Int) (r : Reader)
    (htab : r.tabInst = ws ++ rest) (hfns : inst.closureRecFns = pad 32 stored)
    (hlength : stored.length + ws.length ≤ 32) :
    readClosureRecFns .littleEndian stored.length ws.length inst r =
      some ({ inst with closureRecFns := pad 32 (stored ++ ws.map fun w => toInt32 (r.pos + w)) },
        { r with tabInst := rest }) := by
  induction ws generalizing stored inst r with
  | nil => simp [readClosureRecFns, ← hfns, show rest = r.tabInst by simpa using htab.symm]
  | cons w ws ih =>
      simp only [List.length_cons] at hlength ⊢
      have hstep := ih { inst with closureRecFns := pad 32 (stored ++ [toInt32 (r.pos + w)]) }
        (stored ++ [toInt32 (r.pos + w)]) { r with tabInst := ws ++ rest } rfl rfl
        (by simp only [List.length_append, List.length_singleton]; omega)
      simp only [List.length_append, List.length_singleton, List.append_assoc,
        List.singleton_append] at hstep
      simp only [readClosureRecFns, Reader.next, htab, List.cons_append, toBigEndian,
        Option.bind_eq_bind, Option.bind_some,
        setClosureRecFn_pad hfns (show stored.length < 32 by omega), hstep, List.map_cons]

theorem readSwitchEntries_table (inst : ZInstruction) (ws rest : List Int) (r : Reader)
    (htab : r.tabInst = ws ++ rest) :
    readSwitchEntries .littleEndian ws.length inst r =
      some ({ inst with
          switchEntries := inst.switchEntries ++ ws.map fun w => toInt32 (r.pos + w) },
        { r with tabInst := rest }) := by
  induction ws generalizing inst r with
  | nil => simp [readSwitchEntries, show rest = r.tabInst by simpa using htab.symm]
  | cons w ws ih =>
      have hstep := ih
        { inst with switchEntries := inst.switchEntries ++ [toInt32 (r.pos + w)] }
        { r with tabInst := ws ++ rest } rfl
      simp only [List.length_cons, readSwitchEntries, Reader.next, htab, List.cons_append,
        toBigEndian, Option.bind_eq_bind, Option.bind_some]
      refine hstep.trans ?_
      simp only [List.append_assoc, List.singleton_append, List.map_cons]

theorem readTable_plain {inst : ZInstruction} {r : Reader} (hclosureRec : inst.opNum ≠ .closureRec)
    (hswitch : inst.opNum ≠ .switch) : readTable .littleEndian inst r = some (inst, r) := by
  rw [readTable, if_neg hclosureRec, if_neg hswitch]
  rfl

theorem readTable_closureRec (inst : ZInstruction) (ws rest : List Int) (r : Reader)
    (htab : r.tabInst = ws ++ rest) (hop : inst.opNum = .closureRec)
    (hcount : inst.arg 0 = ws.length) (hfns : inst.closureRecFns = pad 32 [])
    (hlength : ws.length ≤ 32) (hlow : 0 ≤ r.pos) (hhigh : r.pos + 33 < 4294967296) :
    readTable .littleEndian inst r =
      some ({ inst with closureRecFns := pad 32 (ws.map fun w => toInt32 (r.pos + 1 + w)) },
        { r with
          tabInst := rest, pos := r.pos + ws.length,
          instsToAdjust := r.instsToAdjust ++ [r.instructions.length] }) := by
  have htable := readClosureRecFns_table inst [] ws rest { r with pos := r.pos + 1 } htab hfns
    (by simpa using hlength)
  have hadvance : toUInt32 (r.pos + 1 + (ws.length - 1)) = r.pos + ws.length := by
    rw [toUInt32_of_small (by omega) (by omega)]
    ring
  simp only [List.length_nil, List.nil_append] at htable
  have hcount' : ({ inst with
      closureRecFns := pad 32 (ws.map fun w => toInt32 (r.pos + 1 + w)) } : ZInstruction).arg 0 =
      ws.length := by
    simpa only [ZInstruction.arg] using hcount
  simp only [readTable, if_pos hop, hcount, Int.toNat_natCast, Reader.advance,
    toUInt32_of_small (show 0 ≤ r.pos + 1 by omega) (by omega), htable, Option.bind_eq_bind,
    Option.bind_some, hcount', hadvance, Reader.adjustLater]
  rfl

theorem readTable_switch (inst : ZInstruction) (ws rest : List Int) (r : Reader)
    (htab : r.tabInst = ws ++ rest) (hop : inst.opNum = .switch)
    (hcount : inst.numSwitchEntries = ws.length) (hentries : inst.switchEntries = [])
    (hlow : 0 ≤ r.pos) (hhigh : r.pos + 1 + ws.length < 4294967296) :
    readTable .littleEndian inst r =
      some ({ inst with switchEntries := ws.map fun w => toInt32 (r.pos + 1 + w) },
        { r with
          tabInst := rest, pos := r.pos + ws.length,
          instsToAdjust := r.instsToAdjust ++ [r.instructions.length] }) := by
  have htable := readSwitchEntries_table inst ws rest { r with pos := r.pos + 1 } htab
  have hadvance : toUInt32 (r.pos + 1 + (ws.length - 1)) = r.pos + ws.length := by
    rw [toUInt32_of_small (by omega) (by omega)]
    ring
  have hclosureRec : inst.opNum ≠ .closureRec := by simp [hop]
  simp only [hentries, List.nil_append] at htable
  simp only [readTable, if_neg hclosureRec, if_pos hop, hcount, Int.toNat_natCast, Reader.advance,
    toUInt32_of_small (show 0 ≤ r.pos + 1 by omega) (by omega), htable, Option.bind_eq_bind,
    Option.bind_some, hadvance, Reader.adjustLater]
  rfl

/-- The reader behind the opcode word of an instruction at word `at_`, its key entered. -/
def Reader.opened (r : Reader) (at_ : Nat) (ws : List Int) : Reader :=
  { r with
    tabInst := ws, pos := at_ + 1,
    instPositions := fun p => if p = at_ + 1 then some r.instructions.length else r.instPositions p }

/-- The numbered record before its operands are read. -/
def numbered (op : OpCode) (idx at_ : Nat) : ZInstruction :=
  { ZInstruction.blank op with idx := idx, origIdx := at_ }

/-- The converted numbers of a round whose instruction begins at word `at_`. -/
theorem opening_words {size at_ n : Nat} (hat : at_ < 1073741824) (hsize : size = at_ + (n + 1)) :
    toInt32 (size - (n + 1 : Nat)) = at_ ∧ toUInt32 ((at_ : Int) + 1) = at_ + 1 ∧
      toInt32 ((at_ : Int) + 1) = at_ + 1 := by
  refine ⟨?_, toUInt32_of_small (by omega) (by omega), toInt32_of_small (by omega) (by omega)⟩
  rw [toInt32_of_small (by omega) (by omega)]
  omega

/-- The operands of an instruction up to its code offset, if it has one. -/
theorem readArgs_opened (op : OpCode) (idx : Nat) {at_ : Nat} (operands rest : List Int)
    (r : Reader)
    (hoffset : ∀ k, codeOffsetArgs op = some k → operands.length ≤ k) (hlength : operands.length ≤ 4)
    (hbound : at_ < 1073741824) :
    readArgs .littleEndian 0 operands.length (numbered op idx at_)
        (r.opened at_ (operands ++ rest)) =
      some ({ numbered op idx at_ with args := pad 4 operands },
        { r.opened at_ (operands ++ rest) with
          tabInst := rest, pos := at_ + 1 + operands.length }) :=
  readArgs_plain (numbered op idx at_) [] operands rest (r.opened at_ (operands ++ rest)) rfl
    (fun k hk => by simpa using hoffset k hk) (pad_nil 4).symm (by simpa using hlength)
    (by simp only [Reader.opened]; omega) (by simp only [Reader.opened]; omega)

/-- A round from its parts: the opcode word, the operands and the table. -/
theorem readInstruction_of_parts {size at_ : Nat} {op : OpCode} {ws : List Int}
    {inst inst' : ZInstruction} {r r₁ r₂ : Reader}
    (htab : r.tabInst = (op.num : Int) :: ws) (hpos : r.pos = at_)
    (hat : at_ < 1073741824) (hsize : size = at_ + (ws.length + 1))
    (hargs : readArgs .littleEndian 0 op.arity (numbered op r.instructions.length at_)
      (r.opened at_ ws) = some (inst, r₁))
    (htable : readTable .littleEndian inst r₁ = some (inst', r₂)) :
    readInstruction .littleEndian size r =
      some { r₂ with instructions := r₂.instructions ++ [inst'] } := by
  obtain ⟨horig, hadvance, hkey⟩ := opening_words hat hsize
  simp only [numbered, Reader.opened] at hargs
  simp only [readInstruction, Reader.next, htab, hpos, toBigEndian, List.length_cons, horig,
    Reader.advance, hadvance, hkey, OpCode.ofNum?_num, Option.bind_eq_bind, Option.bind_some, hargs,
    htable]
  rfl

/-- The instructions whose record the fix-up loop visits. -/
def SymInstruction.needsAdjust {n : Nat} : SymInstruction n → Bool
  | .plain .. => false
  | _ => true

/-- The reader behind a whole instruction, its record appended. -/
def Reader.after {n : Nat} (r : Reader) (target : Fin n → Int) (i : SymInstruction n) (at_ : Nat)
    (rest : List Int) : Reader where
  tabInst := rest
  pos := at_ + i.width
  instPositions := fun p => if p = at_ + 1 then some r.instructions.length else r.instPositions p
  instsToAdjust :=
    if i.needsAdjust then r.instsToAdjust ++ [r.instructions.length] else r.instsToAdjust
  instructions := r.instructions ++
    [{ i.record (fun t => target t + 1) with idx := r.instructions.length, origIdx := at_ }]

theorem numSwitchEntries_sizes {n : Nat} {consts blocks : List (Fin n)} {inst : ZInstruction}
    (hconsts : consts.length < 2 ^ 16) (hargs : inst.arg 0 = SymInstruction.sizes consts blocks) :
    inst.numSwitchEntries = (consts ++ blocks).length := by
  simp only [ZInstruction.numSwitchEntries, hargs, SymInstruction.sizes, List.length_append]
  omega

/-- The entries of a table, relative to its first word, become the keys of their targets. -/
theorem tableEntries_resolve {n : Nat} {target : Fin n → Int}
    (htarget : ∀ t, 0 ≤ target t ∧ target t < 1073741824) (ts : List (Fin n))
    (first : Int) : (ts.map fun t => target t - first).map (fun w =>
      toInt32 (first + 1 + w)) = ts.map fun t => target t + 1 := by
  rw [List.map_map]
  refine List.map_congr_left fun t _ => ?_
  have ht := htarget t
  rw [Function.comp_apply, toInt32_of_small (by omega) (by omega)]
  ring

section Rounds

variable {n size at_ : Nat} {target : Fin n → Int} {r : Reader} {rest : List Int}

theorem readInstruction_plain {op : OpCode} {operands : List Int}
    (hoffset : codeOffsetArgs op = none) (hclosureRec : op ≠ .closureRec) (hswitch : op ≠ .switch)
    (hlength : operands.length = op.arity)
    (htab : r.tabInst = (op.num : Int) :: (operands ++ rest)) (hpos : r.pos = at_)
    (hbound : at_ < 1073741824) (hsize : size = at_ + (1 + operands.length + rest.length)) :
    readInstruction .littleEndian size r =
      some (r.after target (.plain op operands hoffset hclosureRec hswitch hlength) at_ rest) := by
  have harity := op.arity_le_two
  have hwords : size = at_ + ((operands ++ rest).length + 1) := by
    rw [List.length_append]
    omega
  have hargs := readArgs_opened op r.instructions.length operands rest r
    (fun k hk => by simp [hoffset] at hk) (by omega) hbound
  rw [hlength] at hargs
  rw [readInstruction_of_parts htab hpos hbound hwords hargs (readTable_plain hclosureRec hswitch)]
  simp only [Reader.after, Reader.opened, numbered, SymInstruction.record, SymInstruction.width,
    SymInstruction.needsAdjust, Nat.cast_add, Nat.cast_one, add_assoc, hlength]
  rfl

theorem readInstruction_offset {op : OpCode} {operands : List Int} {k : Fin 4}
    (hoffset : codeOffsetArgs op = some k) (hlength : operands.length = k) (t : Fin n)
    (htarget : 0 ≤ target t ∧ target t < 1073741824)
    (htab : r.tabInst =
      (op.num : Int) :: (operands ++ (target t - (at_ + 1 + operands.length)) :: rest))
    (hpos : r.pos = at_) (hbound : at_ < 1073741824)
    (hsize : size = at_ + (2 + operands.length + rest.length)) :
    readInstruction .littleEndian size r =
      some (r.after target (.offset op operands k hoffset hlength t) at_ rest) := by
  have hk := k.isLt
  have harity : op.arity = operands.length + 1 := by rw [arity_of_codeOffsetArgs hoffset, hlength]
  let ws := operands ++ (target t - (at_ + 1 + operands.length)) :: rest
  have hwords : size = at_ + (ws.length + 1) := by
    simp only [ws, List.length_append, List.length_cons]
    omega
  have hplain := readArgs_opened op r.instructions.length operands
    ((target t - (at_ + 1 + operands.length)) :: rest) r
    (fun j hj => by rw [hlength, Option.some.inj (hoffset.symm.trans hj)]) (by omega) hbound
  have hargs := readArgs_add .littleEndian operands.length 1 0
    (numbered op r.instructions.length at_) (r.opened at_ ws)
  rw [hplain, ← harity, Option.bind_some, Nat.zero_add,
    readArgs_offset _ operands rest (target t) _ rfl (by simp [numbered, hoffset, hlength]) rfl
      (by omega) (by simp only; omega) (by simp only; omega) htarget] at hargs
  have hclosureRec : op ≠ .closureRec := by rintro rfl; cases hoffset
  have hswitch : op ≠ .switch := by rintro rfl; cases hoffset
  rw [readInstruction_of_parts htab hpos hbound hwords hargs (readTable_plain hclosureRec hswitch)]
  simp only [Reader.after, Reader.opened, numbered, SymInstruction.record, SymInstruction.width,
    SymInstruction.needsAdjust, if_true, Nat.cast_add, Nat.cast_ofNat]
  rw [show (at_ : Int) + 1 + operands.length + 1 = at_ + (2 + operands.length) by ring]

theorem readInstruction_closureRec {nvars : Int} {fns : List (Fin n)} (hone : 1 ≤ fns.length)
    (hmax : fns.length ≤ 32) (htarget : ∀ t, 0 ≤ target t ∧ target t < 1073741824)
    (htab : r.tabInst = (OpCode.closureRec.num : Int) ::
      ([(fns.length : Int), nvars] ++ ((fns.map fun t => target t - ((at_ : Int) + 3)) ++ rest)))
    (hpos : r.pos = at_) (hbound : at_ < 1073741824)
    (hsize : size = at_ + (3 + fns.length + rest.length)) :
    readInstruction .littleEndian size r =
      some (r.after target (.closureRec nvars fns hone hmax) at_ rest) := by
  let table := fns.map fun t => target t - ((at_ : Int) + 3)
  let ws := [(fns.length : Int), nvars] ++ (table ++ rest)
  have hlength : table.length = fns.length := List.length_map _
  have hwords : size = at_ + (ws.length + 1) := by
    simp only [ws, List.length_append, List.length_cons, List.length_nil]
    omega
  have hargs := readArgs_opened .closureRec r.instructions.length [(fns.length : Int), nvars]
    (table ++ rest) r (by simp [codeOffsetArgs]) (by simp) hbound
  have htable := readTable_closureRec
    { numbered .closureRec r.instructions.length at_ with
      args := pad 4 [(fns.length : Int), nvars] } table rest
    { r.opened at_ ws with tabInst := table ++ rest, pos := (at_ : Int) + 1 + 2 } rfl rfl
    (by rw [hlength]; rfl) (pad_nil 32).symm (by omega) (by simp only; omega)
    (by simp only; omega)
  rw [show (at_ : Int) + 1 + 2 = at_ + 3 by ring, tableEntries_resolve htarget fns (at_ + 3),
    hlength] at htable
  rw [readInstruction_of_parts htab hpos hbound hwords hargs htable]
  simp only [Reader.after, Reader.opened, SymInstruction.record, SymInstruction.width,
    SymInstruction.needsAdjust, if_true, Nat.cast_add, Nat.cast_ofNat, add_assoc]
  rfl

theorem readInstruction_switch {consts blocks : List (Fin n)} (hconsts : consts.length < 2 ^ 16)
    (hblocks : blocks.length < 2 ^ 15) (htarget : ∀ t, 0 ≤ target t ∧ target t < 1073741824)
    (htab : r.tabInst = (OpCode.switch.num : Int) :: ([SymInstruction.sizes consts blocks] ++
      (((consts ++ blocks).map fun t => target t - ((at_ : Int) + 2)) ++ rest)))
    (hpos : r.pos = at_) (hbound : at_ < 1073741824)
    (hsize : size = at_ + (2 + (consts ++ blocks).length + rest.length)) :
    readInstruction .littleEndian size r =
      some (r.after target (.switch consts blocks hconsts hblocks) at_ rest) := by
  let sizes := SymInstruction.sizes consts blocks
  let table := (consts ++ blocks).map fun t => target t - ((at_ : Int) + 2)
  let ws := [sizes] ++ (table ++ rest)
  have hlength : table.length = (consts ++ blocks).length := List.length_map _
  have hwords : size = at_ + (ws.length + 1) := by
    simp only [ws, List.length_append, List.length_cons, List.length_nil] at hlength hsize ⊢
    omega
  have hentries : (consts ++ blocks).length < 2 ^ 17 := by
    rw [List.length_append]
    omega
  have hargs := readArgs_opened .switch r.instructions.length [sizes] (table ++ rest) r
    (by simp [codeOffsetArgs]) (by simp) hbound
  have htable := readTable_switch
    { numbered .switch r.instructions.length at_ with args := pad 4 [sizes] } table rest
    { r.opened at_ ws with tabInst := table ++ rest, pos := (at_ : Int) + 1 + 1 } rfl rfl
    (by rw [hlength]; exact numSwitchEntries_sizes hconsts rfl) rfl (by simp only; omega)
    (by simp only; omega)
  rw [show (at_ : Int) + 1 + 1 = at_ + 2 by ring, tableEntries_resolve htarget _ (at_ + 2),
    hlength] at htable
  rw [readInstruction_of_parts htab hpos hbound hwords hargs htable]
  simp only [Reader.after, Reader.opened, SymInstruction.record, SymInstruction.width,
    SymInstruction.needsAdjust, if_true, Nat.cast_add, Nat.cast_ofNat, add_assoc]
  rfl

/-- One round of the reading loop on the words of one instruction. -/
theorem readInstruction_words (htarget : ∀ t, 0 ≤ target t ∧ target t < 1073741824)
    (i : SymInstruction n) (r : Reader) (rest : List Int)
    (htab : r.tabInst = i.words target at_ ++ rest) (hpos : r.pos = at_)
    (hbound : at_ + i.width < 1073741824) (hsize : size = at_ + (i.width + rest.length)) :
    readInstruction .littleEndian size r = some (r.after target i at_ rest) := by
  have hat : at_ < 1073741824 := by omega
  cases i with
  | plain op operands hoffset hclosureRec hswitch hlength =>
      exact readInstruction_plain hoffset hclosureRec hswitch hlength htab hpos hat hsize
  | offset op operands k hoffset hlength t =>
      exact readInstruction_offset hoffset hlength t (htarget t)
        (by simpa [SymInstruction.words] using htab) hpos hat hsize
  | closureRec nvars fns hone hmax =>
      exact readInstruction_closureRec hone hmax htarget htab hpos hat hsize
  | switch consts blocks hconsts hblocks =>
      exact readInstruction_switch hconsts hblocks htarget htab hpos hat hsize

end Rounds

/-! ### The reading loop -/

theorem recordsFrom_append_singleton {n : Nat} (name : Fin n → Int) (code : List (SymInstruction n))
    (i : SymInstruction n) (idx at_ : Nat) :
    recordsFrom name idx at_ (code ++ [i]) =
      recordsFrom name idx at_ code ++
        [{ i.record name with
            idx := (idx + code.length : Nat),
            origIdx := (at_ + Layout.total SymInstruction.width code : Nat) }] := by
  induction code generalizing idx at_ with
  | nil => rfl
  | cons j code ih =>
      rw [List.cons_append, recordsFrom, ih, recordsFrom, List.cons_append, List.length_cons,
        Layout.total_cons, add_right_comm, ← add_assoc, add_assoc at_]

@[simp]
theorem length_recordsFrom {n : Nat} (name : Fin n → Int) (idx at_ : Nat)
    (code : List (SymInstruction n)) : (recordsFrom name idx at_ code).length = code.length := by
  induction code generalizing idx at_ with
  | nil => rfl
  | cons i code ih => rw [recordsFrom, List.length_cons, ih, List.length_cons]

theorem getElem?_recordsFrom {n : Nat} (name : Fin n → Int) (idx at_ : Nat)
    {code : List (SymInstruction n)} {i : Nat} {x : SymInstruction n} (h : code[i]? = some x) :
    ∃ origIdx : Nat, (recordsFrom name idx at_ code)[i]? =
      some { x.record name with idx := (idx + i : Nat), origIdx := origIdx } := by
  induction code generalizing idx at_ i with
  | nil => cases h
  | cons y code ih =>
      cases i with
      | zero =>
          cases h
          exact ⟨at_, rfl⟩
      | succ i =>
          obtain ⟨origIdx, hi⟩ := ih (idx + 1) (at_ + y.width) h
          refine ⟨origIdx, hi.trans ?_⟩
          rw [Nat.add_assoc, Nat.add_comm 1]

@[simp]
theorem length_encodeFrom {n : Nat} (pos : Fin n → Int) (at_ : Nat)
    (code : List (SymInstruction n)) :
    (encodeFrom pos at_ code).length = Layout.total SymInstruction.width code := by
  induction code generalizing at_ with
  | nil => rfl
  | cons i code ih =>
      rw [encodeFrom, List.length_append, ih, SymInstruction.length_words, Layout.total_cons]

/-- The numbers of the instructions that the fix-up loop visits, in its order. -/
def adjustFrom {n : Nat} : Nat → List (SymInstruction n) → List Nat
  | _, [] => []
  | k, i :: code => (if i.needsAdjust then [k] else []) ++ adjustFrom (k + 1) code

theorem adjustFrom_append_singleton {n : Nat} (code : List (SymInstruction n))
    (i : SymInstruction n) (k : Nat) :
    adjustFrom k (code ++ [i]) =
      adjustFrom k code ++ if i.needsAdjust then [k + code.length] else [] := by
  induction code generalizing k with
  | nil => simp [adjustFrom]
  | cons j code ih =>
      rw [List.cons_append, adjustFrom, ih, adjustFrom, List.append_assoc, List.length_cons,
        add_assoc, add_comm 1]

namespace SymProgram

variable (p : SymProgram)

/-- The key of a target in `InstPositions`. -/
def key (t : Fin p.size) : Int := p.position t + 1

/-- The state of the reader between two rounds, when the instructions `done` have been read and the
instructions `rest` have not. -/
structure ReaderAt (done rest : List (SymInstruction p.size)) (r : Reader) : Prop where
  code : p.code = done ++ rest
  tabInst : r.tabInst = encodeFrom (fun t => p.position t) (p.position done.length) rest
  pos : r.pos = p.position done.length
  keys : ∀ j < done.length, r.instPositions (p.position j + 1) = some (j : Int)
  instsToAdjust : r.instsToAdjust = adjustFrom 0 done
  instructions : r.instructions = recordsFrom p.key 0 0 done

variable {p}

theorem position_length {done rest : List (SymInstruction p.size)} (hcode : p.code = done ++ rest) :
    p.position done.length = Layout.total SymInstruction.width done := by
  rw [position, hcode, Layout.offset_append_length]

theorem position_lt {i j : Nat} (hij : i < j) (hj : j ≤ p.code.length) :
    p.position i < p.position j :=
  Layout.offset_lt SymInstruction.width (fun a _ => a.width_pos) hij hj

theorem ReaderAt.step {done rest : List (SymInstruction p.size)} {i : SymInstruction p.size}
    {r : Reader} (h : p.ReaderAt done (i :: rest) r) :
    p.ReaderAt (done ++ [i]) rest (r.after (fun t => p.position t) i (p.position done.length)
      (encodeFrom (fun t => p.position t) (p.position (done ++ [i]).length) rest)) := by
  have hcode : p.code = done ++ [i] ++ rest := by rw [h.code, List.append_cons]
  have hdone := position_length h.code
  have hnext : p.position (done ++ [i]).length = p.position done.length + i.width := by
    rw [position_length hcode, hdone, Layout.total, Layout.total, List.map_append, List.sum_append]
    simp
  have hread : r.instructions.length = done.length := by rw [h.instructions, length_recordsFrom]
  refine ⟨hcode, rfl, ?_, ?_, ?_, ?_⟩
  · rw [Reader.after, hnext, Nat.cast_add]
  · intro j hj
    simp only [Reader.after, hread]
    rw [List.length_append, List.length_singleton] at hj
    rcases Nat.lt_succ_iff_lt_or_eq.mp hj with hlt | rfl
    · have hlt' : p.position j < p.position done.length :=
        position_lt hlt (by rw [h.code, List.length_append]; omega)
      rw [if_neg (by omega), h.keys j hlt]
    · rw [if_pos rfl]
  · simp only [Reader.after, hread, h.instsToAdjust, adjustFrom_append_singleton, Nat.zero_add]
    split <;> simp
  · simp only [Reader.after, hread, recordsFrom_append_singleton, Nat.zero_add, ← hdone]
    rw [h.instructions]
    rfl

theorem position_append_singleton {done rest : List (SymInstruction p.size)}
    {i : SymInstruction p.size} (hcode : p.code = done ++ i :: rest) :
    p.position (done ++ [i]).length = p.position done.length + i.width := by
  have hlt : done.length < p.code.length := by rw [hcode]; simp
  rw [List.length_append, List.length_singleton, position, Layout.offset_succ _ hlt, position]
  simp [hcode]

theorem readLoop_code (hsize : 4 * p.encode.length < 2 ^ 32)
    (done rest : List (SymInstruction p.size)) (r : Reader) (h : p.ReaderAt done rest r) :
    ∃ r', readLoop .littleEndian p.encode.length p.encode.length r = some r' ∧
      p.ReaderAt p.code [] r' := by
  have htotal : p.encode.length = Layout.total SymInstruction.width p.code :=
    length_encodeFrom _ _ _
  induction rest generalizing done r with
  | nil =>
      have hdone : done = p.code := by rw [h.code, List.append_nil]
      subst hdone
      rw [readLoop, if_neg (by rw [h.pos, position_length h.code, htotal]; omega)]
      exact ⟨r, rfl, h⟩
  | cons i rest ih =>
      have hwidth := i.width_pos
      have hnext := position_append_singleton h.code
      have hend : p.encode.length = p.position done.length + (i.width +
          Layout.total SymInstruction.width rest) := by
        rw [position_length h.code, htotal, h.code, Layout.total, Layout.total, Layout.total,
          List.map_append, List.sum_append, List.map_cons, List.sum_cons]
      have htarget : ∀ t : Fin p.size, (0 : Int) ≤ p.position t ∧ (p.position t : Int) < 1073741824 := by
        intro t
        have hle : p.position t ≤ Layout.total SymInstruction.width p.code :=
          Layout.offset_le_total _ _ _
        omega
      have hround : readInstruction .littleEndian p.encode.length r = _ := readInstruction_words htarget i r
        (encodeFrom (fun t => p.position t) (p.position (done ++ [i]).length) rest)
        (by rw [h.tabInst, encodeFrom, hnext]) h.pos (by omega)
        (by rwa [length_encodeFrom])
      obtain ⟨r', hloop, hr'⟩ := ih (done ++ [i]) _ h.step
      refine ⟨r', ?_, hr'⟩
      rw [readLoop, if_pos (by rw [h.pos]; omega)]
      split
      · next hnone => rw [hround] at hnone; cases hnone
      · next r₁ hsome =>
          rw [hround] at hsome
          cases hsome
          exact hloop

end SymProgram

/-! ### The fix-up loop -/

section Adjust

variable {n : Nat} {instPositions : Int → Option Int} {key name : Fin n → Int}

theorem pad_set_stored {n : Nat} (l r : List Int) (v w : Int) (h : l.length < n) :
    (pad n (l ++ v :: r)).set l.length w h = pad n (l ++ w :: r) := by
  ext j hj
  rw [Vector.getElem_set, pad_getElem, pad_getElem]
  split
  · next heq => simp [← heq]
  · next hne =>
      simp only [List.getD_eq_getElem?_getD, List.getElem?_append]
      split
      · rfl
      · rw [List.getElem?_cons, List.getElem?_cons, if_neg (by omega), if_neg (by omega)]

theorem adjustClosureRecFns_table (hkeys : ∀ t, instPositions (key t) = some (name t))
    (inst : ZInstruction) (stored : List Int) (fns : List (Fin n))
    (hfns : inst.closureRecFns = pad 32 (stored ++ fns.map key))
    (hlength : stored.length + fns.length ≤ 32) :
    adjustClosureRecFns instPositions stored.length fns.length inst =
      some { inst with closureRecFns := pad 32 (stored ++ fns.map name) } := by
  induction fns generalizing stored inst with
  | nil =>
      rw [List.map_nil] at hfns ⊢
      rw [← hfns]
      rfl
  | cons t fns ih =>
      simp only [List.length_cons] at hlength ⊢
      have hlt : stored.length < 32 := by omega
      have hentry : inst.closureRecFns[stored.length] = key t := by
        simp [hfns, pad_getElem]
      have hset : inst.setClosureRecFn stored.length (name t) =
          some { inst with closureRecFns := pad 32 (stored ++ name t :: fns.map key) } := by
        rw [ZInstruction.setClosureRecFn, dif_pos hlt, hfns, List.map_cons, pad_set_stored]
      have hstep := ih { inst with closureRecFns := pad 32 (stored ++ name t :: fns.map key) }
        (stored ++ [name t]) (by rw [List.append_assoc]; rfl)
        (by simp only [List.length_append, List.length_singleton]; omega)
      simp only [List.length_append, List.length_singleton, List.append_assoc,
        List.singleton_append] at hstep
      rw [adjustClosureRecFns, dif_pos hlt, hentry, hkeys, Option.bind_eq_bind, Option.bind_some,
        hset, Option.bind_eq_bind, Option.bind_some, hstep]
      rfl

theorem mapM_resolve (hkeys : ∀ t, instPositions (key t) = some (name t)) (ts : List (Fin n)) :
    (ts.map key).mapM instPositions = some (ts.map name) := by
  induction ts with
  | nil => rfl
  | cons t ts ih => simp [List.mapM_cons, hkeys, ih]

/-- The fix-up of a record replaces keys by the names of the targets. -/
theorem adjustInst_record (hkeys : ∀ t, instPositions (key t) = some (name t))
    (i : SymInstruction n) (hadjust : i.needsAdjust) (idx origIdx : Int) :
    adjustInst instPositions { i.record key with idx := idx, origIdx := origIdx } =
      some { i.record name with idx := idx, origIdx := origIdx } := by
  cases i with
  | plain => cases hadjust
  | offset op operands k hoffset hlength t =>
      have hclosureRec : op ≠ .closureRec := by rintro rfl; cases hoffset
      have hswitch : op ≠ .switch := by rintro rfl; cases hoffset
      simp only [adjustInst, SymInstruction.record, ZInstruction.blank, if_neg hclosureRec,
        if_neg hswitch, hoffset, Option.bind_eq_bind, Option.bind_some]
      have harg : (pad 4 (operands ++ [key t]))[k] = key t := by
        rw [Fin.getElem_fin, pad_getElem, ← hlength]
        simp
      have hlt : operands.length < 4 := by omega
      have hset := pad_set_stored operands [] (key t) (name t) hlt
      simp only [ZInstruction.arg, harg, hkeys, Option.bind_some, ZInstruction.setArg, ← hlength,
        dif_pos hlt, hset]
  | closureRec nvars fns hone hmax =>
      have hcount : (pad 4 [(fns.length : Int), nvars])[0].toNat = fns.length := by
        rw [pad_getElem]
        rfl
      simp only [adjustInst, SymInstruction.record, ZInstruction.blank, ZInstruction.arg,
        Fin.getElem_fin, if_true]
      rw [show (pad 4 [(fns.length : Int), nvars])[((0 : Fin 4) : Nat)].toNat = fns.length from
        hcount]
      exact adjustClosureRecFns_table hkeys _ [] fns rfl (by simpa using hmax)
  | switch consts blocks hconsts hblocks =>
      simp only [adjustInst, SymInstruction.record, ZInstruction.blank, if_true, reduceCtorEq,
        if_false, mapM_resolve hkeys, Option.bind_eq_bind, Option.bind_some]
      rfl

/-- The fix-up loop on the instructions `code`, behind instructions `front` that it has passed. -/
theorem adjustInsts_records (hkeys : ∀ t, instPositions (key t) = some (name t))
    (code : List (SymInstruction n)) (front : List ZInstruction) (at_ : Nat) :
    adjustInsts instPositions (adjustFrom front.length code)
        (front ++ recordsFrom key front.length at_ code) =
      some (front ++ recordsFrom name front.length at_ code) := by
  induction code generalizing front at_ with
  | nil => rfl
  | cons i code ih =>
      have hstep := ih (front ++ [{ i.record name with idx := front.length, origIdx := at_ }])
        (at_ + i.width)
      simp only [List.length_append, List.length_singleton, List.append_assoc,
        List.singleton_append] at hstep
      rw [adjustFrom, recordsFrom, recordsFrom]
      split
      · next hadjust =>
          rw [List.singleton_append, adjustInsts, List.getElem?_append_right (Nat.le_refl _),
            Nat.sub_self, List.getElem?_cons_zero, Option.bind_eq_bind, Option.bind_some,
            adjustInst_record hkeys i hadjust, Option.bind_some,
            List.set_append_right _ _ (Nat.le_refl _), Nat.sub_self, List.set_cons_zero, hstep]
      · next hplain =>
          have hrecord : i.record key = i.record name := by
            cases i with
            | plain => rfl
            | _ => exact absurd rfl hplain
          rw [List.nil_append, hrecord, hstep]

end Adjust

theorem SymProgram.readInstructions_words (p : SymProgram) (hsize : 4 * p.encode.length < 2 ^ 32) :
    readInstructions .littleEndian p.encode (4 * p.encode.length) = some p.decoded := by
  have hstart : p.ReaderAt [] p.code ⟨p.encode, 0, fun _ => none, [], []⟩ :=
    ⟨rfl, rfl, rfl, fun j hj => absurd hj (Nat.not_lt_zero j), rfl, rfl⟩
  obtain ⟨r, hloop, hr⟩ := SymProgram.readLoop_code hsize [] p.code _ hstart
  have hkeys : ∀ t, r.instPositions (p.key t) = some ((t : Nat) : Int) := fun t =>
    hr.keys t (by rw [p.length_code]; exact t.isLt)
  rw [readInstructions, show (4 * (p.encode.length : Int)) / 4 = p.encode.length by omega, hloop,
    Option.bind_eq_bind, Option.bind_some, hr.instsToAdjust, hr.instructions]
  exact adjustInsts_records hkeys p.code [] 0

/-- Decoding the words of a program gives back its instructions, with every target resolved. -/
theorem readInstructions_encode (p : SymProgram) (hsize : 4 * p.encode.length < 2 ^ 32) :
    readInstructions .littleEndian p.encode (4 * p.encode.length) = some p.decoded :=
  p.readInstructions_words hsize

/-- A jump over a function, a table of functions, a switch and a loop. -/
def jumpsAndTables : SymProgram where
  size := 8
  code :=
    [.ofOffset .branch [] 3 (.refl true),
     .ofPlain .constInt [7] (.refl true),
     .ofPlain .return_ [1] (.refl true),
     .ofOffset .closure [0] 1 (.refl true),
     .closureRec 0 [1, 1] (by decide) (by decide),
     .switch [3, 7] [6] (by decide) (by decide),
     .ofOffset .bneq [4] 5 (.refl true),
     .ofPlain .stop [] (.refl true)]
  length_code := rfl

example : jumpsAndTables.encode =
    [84, 5, 103, 7, 40, 1, 43, 0, -6, 44, 2, 0, -10, -10, 87, 65538, -10, 6, 3, 132, 4, -7, 143] := by
  decide

theorem readInstructions_encode_jumpsAndTables :
    readInstructions .littleEndian jumpsAndTables.encode (4 * jumpsAndTables.encode.length) =
      some jumpsAndTables.decoded :=
  readInstructions_encode jumpsAndTables (by decide)

end CamllVM
