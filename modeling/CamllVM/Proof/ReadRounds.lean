import CamllVM.Proof.DecodeTargets
import CamllVM.Proof.RecordBounds

/-!
# What one round has read

A round of the reading loop that has a result has gone past the words of one instruction: its
opcode, its operands and its table. `Pos` has grown by the number of these words where the table has
the size that the compiler writes; after a negative count the two cursors part.
-/

namespace CamllVM

variable {inst inst' : ZInstruction} {r r' : Reader} {size at_ : Nat}

/-- A `CLOSUREREC` of at least one function, or a `SWITCH` whose numbers of entries are not
negative. -/
def ZInstruction.HasTable (inst : ZInstruction) : Prop :=
  (inst.opNum = .closureRec → 1 ≤ inst.arg 0) ∧ (inst.opNum = .switch → 0 ≤ inst.arg 0)

instance (inst : ZInstruction) : Decidable inst.HasTable := by
  unfold ZInstruction.HasTable
  infer_instance

theorem ZInstruction.hasTable_congr (hop : inst'.opNum = inst.opNum)
    (hargs : inst'.args = inst.args) : inst'.HasTable ↔ inst.HasTable := by
  unfold HasTable arg
  rw [hop, hargs]

set_option maxRecDepth 2000 in
theorem map_num_allOpCodes : allOpCodes.map OpCode.num = List.range allOpCodes.length := rfl

theorem OpCode.ofNum?_eq_some {w : Int} {op : OpCode} (h : OpCode.ofNum? w = some op) :
    w = op.num := by
  obtain ⟨hlow, hget⟩ := Option.ite_none_right_eq_some.mp h
  have hnum : (List.range allOpCodes.length)[w.toNat]? = some op.num := by
    rw [← map_num_allOpCodes, List.getElem?_map, hget, Option.map_some]
  obtain ⟨hlt, heq⟩ := List.getElem?_eq_some_iff.mp hnum
  rw [List.getElem_range] at heq
  omega

/-! ### The words of one instruction -/

/-- The operands as they are stored, from operand `j` on, when `Pos` is `pos`. -/
def storedFrom (op : OpCode) : Int → Nat → List Int → List Int
  | _, _, [] => []
  | pos, j, w :: ws =>
      (if (codeOffsetArgs op).map Fin.val = some j then toInt32 (pos + w + 1) else w) ::
        storedFrom op (pos + 1) (j + 1) ws

theorem Reader.next_eq_some {w : Int} (h : r.next .littleEndian = some (w, r')) :
    r.tabInst = w :: r'.tabInst ∧ r'.pos = r.pos := by
  unfold next at h
  split at h <;> cases h
  next heq => exact ⟨heq, rfl⟩

theorem readArgs_eq_some {stored : List Int} {n : Nat} (hargs : inst.args = pad 4 stored)
    (hlow : 0 ≤ r.pos) (hhigh : r.pos + n < 4294967296)
    (h : readArgs .littleEndian stored.length n inst r = some (inst', r')) :
    ∃ ws : List Int, ws.length = n ∧ r.tabInst = ws ++ r'.tabInst ∧ r'.pos = r.pos + n ∧
      inst' = { inst with
        args := pad 4 (stored ++ storedFrom inst.opNum r.pos stored.length ws) } := by
  induction n generalizing stored inst r with
  | zero =>
      cases h
      refine ⟨[], rfl, rfl, (add_zero _).symm, ?_⟩
      rw [storedFrom, List.append_nil, ← hargs]
  | succ n ih =>
      rw [Nat.cast_succ] at hhigh
      simp only [readArgs, Option.bind_eq_bind, Option.bind_eq_some_iff] at h
      obtain ⟨⟨w, r₁⟩, hnext, h⟩ := h
      obtain ⟨htab, hpos⟩ := Reader.next_eq_some hnext
      have hadvance : toUInt32 (r₁.pos + 1) = r.pos + 1 := by
        rw [hpos, toUInt32_of_small (by omega) (by omega)]
      let v := if (codeOffsetArgs inst.opNum).map Fin.val = some stored.length then
        toInt32 (r.pos + w + 1) else w
      have hstep : ∃ r₂ : Reader, r₂.tabInst = r₁.tabInst ∧ r₂.pos = r.pos + 1 ∧
          ∃ inst₁, inst.setArg stored.length v = some inst₁ ∧
            readArgs .littleEndian (stored.length + 1) n inst₁ r₂ = some (inst', r') := by
        split at h <;> rw [Option.bind_eq_some_iff] at h <;> obtain ⟨inst₁, hset, h⟩ := h
        · next hoffset =>
            refine ⟨r₁.adjustLater.advance 1, rfl, hadvance, inst₁, ?_, h⟩
            rwa [show v = _ from if_pos hoffset, ← hpos]
        · next hoffset =>
            refine ⟨r₁.advance 1, rfl, hadvance, inst₁, ?_, h⟩
            rwa [show v = w from if_neg hoffset]
      obtain ⟨r₂, htab₂, hpos₂, inst₁, hset, hrest⟩ := hstep
      obtain ⟨hlt, -⟩ := setArg_eq_some hset
      rw [setArg_pad hargs hlt, Option.some.injEq] at hset
      subst hset
      rw [show stored.length + 1 = (stored ++ [v]).length by simp] at hrest
      obtain ⟨ws, hlength, htab', hpos', hinst⟩ := ih rfl (by omega) (by omega) hrest
      refine ⟨w :: ws, by rw [List.length_cons, hlength], ?_, by rw [hpos']; push_cast; omega, ?_⟩
      · rw [htab, ← htab₂, htab', List.cons_append]
      · rw [hinst, hpos₂, List.length_append, List.append_assoc]
        rfl

theorem readClosureRecFns_eq_some {stored : List Int} {n : Nat}
    (hfns : inst.closureRecFns = pad 32 stored)
    (h : readClosureRecFns .littleEndian stored.length n inst r = some (inst', r')) :
    ∃ ws : List Int, ws.length = n ∧ r.tabInst = ws ++ r'.tabInst ∧ r'.pos = r.pos ∧
      inst' = { inst with
        closureRecFns := pad 32 (stored ++ ws.map fun w => toInt32 (r.pos + w)) } := by
  induction n generalizing stored inst r with
  | zero =>
      cases h
      refine ⟨[], rfl, rfl, rfl, ?_⟩
      rw [List.map_nil, List.append_nil, ← hfns]
  | succ n ih =>
      simp only [readClosureRecFns, Option.bind_eq_bind, Option.bind_eq_some_iff] at h
      obtain ⟨⟨w, r₁⟩, hnext, inst₁, hset, hrest⟩ := h
      obtain ⟨htab, hpos⟩ := Reader.next_eq_some hnext
      obtain ⟨hlt, -⟩ := setClosureRecFn_eq_some hset
      rw [setClosureRecFn_pad hfns hlt, Option.some.injEq] at hset
      subst hset
      let stored' := stored ++ [toInt32 (r₁.pos + w)]
      have hfns' : ({ inst with closureRecFns := pad 32 stored' } : ZInstruction).closureRecFns =
          pad 32 stored' := rfl
      rw [show stored.length + 1 = stored'.length by simp [stored']] at hrest
      obtain ⟨ws, hlength, htab', hpos', hinst⟩ := ih hfns' hrest
      refine ⟨w :: ws, by rw [List.length_cons, hlength], ?_, hpos'.trans hpos, ?_⟩
      · rw [htab, htab', List.cons_append]
      · simp only [hinst, hpos, stored', List.append_assoc, List.singleton_append, List.map_cons]

theorem readSwitchEntries_eq_some {n : Nat}
    (h : readSwitchEntries .littleEndian n inst r = some (inst', r')) :
    ∃ ws : List Int, ws.length = n ∧ r.tabInst = ws ++ r'.tabInst ∧ r'.pos = r.pos ∧
      inst' = { inst with
        switchEntries := inst.switchEntries ++ ws.map fun w => toInt32 (r.pos + w) } := by
  induction n generalizing inst r with
  | zero =>
      cases h
      refine ⟨[], rfl, rfl, rfl, ?_⟩
      rw [List.map_nil, List.append_nil]
  | succ n ih =>
      simp only [readSwitchEntries, Option.bind_eq_bind, Option.bind_eq_some_iff] at h
      obtain ⟨⟨w, r₁⟩, hnext, hrest⟩ := h
      obtain ⟨htab, hpos⟩ := Reader.next_eq_some hnext
      obtain ⟨ws, hlength, htab', hpos', hinst⟩ := ih hrest
      refine ⟨w :: ws, by rw [List.length_cons, hlength], ?_, hpos'.trans hpos, ?_⟩
      · rw [htab, htab', List.cons_append]
      · rw [hinst, hpos, List.append_assoc, List.singleton_append, List.map_cons]

/-- What the table `ws` behind the operands, the first word of it at `first`, makes of a record. -/
inductive TableRead (first : Int) (inst : ZInstruction) : List Int → ZInstruction → Prop where
  | none (hclosureRec : inst.opNum ≠ .closureRec) (hswitch : inst.opNum ≠ .switch) :
      TableRead first inst [] inst
  | closureRec (hop : inst.opNum = .closureRec) (ws : List Int) (hcount : inst.arg 0 = ws.length)
      (hone : 1 ≤ ws.length) (hmax : ws.length ≤ 32) :
      TableRead first inst ws { inst with
        closureRecFns := pad 32 (ws.map fun w => toInt32 (first + 1 + w)) }
  | switch (hop : inst.opNum = .switch) (ws : List Int) (hcount : inst.numSwitchEntries = ws.length)
      (hlow : 0 ≤ inst.arg 0) :
      TableRead first inst ws { inst with
        switchEntries := ws.map fun w => toInt32 (first + 1 + w) }

theorem readTable_eq_some (hfns : inst.closureRecFns = pad 32 [])
    (hentries : inst.switchEntries = []) (hlow : 0 ≤ r.pos)
    (hhigh : r.pos + r.tabInst.length < 1073741824)
    (h : readTable .littleEndian inst r = some (inst', r')) (htable : inst'.HasTable) :
    ∃ ws : List Int, r.tabInst = ws ++ r'.tabInst ∧ r'.pos = r.pos + ws.length ∧
      TableRead r.pos inst ws inst' := by
  have hone : (r.advance 1).pos = r.pos + 1 := toUInt32_of_small (by omega) (by omega)
  unfold readTable at h
  by_cases hclosureRec : inst.opNum = .closureRec
  · simp only [if_pos hclosureRec, Option.bind_eq_bind, Option.bind_eq_some_iff] at h
    obtain ⟨⟨inst₁, r₁⟩, hread, h⟩ := h
    cases h
    have hmax := readClosureRecFns_le hread (Nat.zero_le 32)
    obtain ⟨ws, hlength, htab, hpos, hinst⟩ :=
      @readClosureRecFns_eq_some inst inst₁ (r.advance 1) r₁ [] _ hfns hread
    have harg : inst₁.arg 0 = inst.arg 0 := by rw [hinst, ZInstruction.arg, ZInstruction.arg]
    -- `Pos` grows by the count as it is stored, and a negative one would move it back
    have hcount : 1 ≤ inst₁.arg 0 := htable.1 (by rw [hinst]; exact hclosureRec)
    have hws : inst.arg 0 = ws.length := by omega
    have hle : ws.length ≤ r.tabInst.length := by
      rw [show r.tabInst = ws ++ r₁.tabInst from htab, List.length_append]
      omega
    rw [hone] at hpos hinst
    refine ⟨ws, htab, ?_, ?_⟩
    · show toUInt32 (r₁.pos + (inst₁.arg 0 - 1)) = _
      rw [hpos, harg, hws, toUInt32_of_small (by omega) (by omega)]
      ring
    · rw [hinst]
      exact .closureRec hclosureRec ws hws (by omega) (by omega)
  · rw [if_neg hclosureRec] at h
    by_cases hswitch : inst.opNum = .switch
    · simp only [if_pos hswitch, Option.bind_eq_bind, Option.bind_eq_some_iff] at h
      obtain ⟨⟨inst₁, r₁⟩, hread, h⟩ := h
      cases h
      obtain ⟨ws, hlength, htab, hpos, hinst⟩ := readSwitchEntries_eq_some hread
      have harg : inst₁.arg 0 = inst.arg 0 := by rw [hinst, ZInstruction.arg, ZInstruction.arg]
      have hcount : 0 ≤ inst₁.arg 0 := htable.2 (by rw [hinst]; exact hswitch)
      have hws : inst.numSwitchEntries = ws.length := by
        have hnonneg : 0 ≤ inst.numSwitchEntries := by
          unfold ZInstruction.numSwitchEntries
          omega
        omega
      have hle : ws.length ≤ r.tabInst.length := by
        rw [show r.tabInst = ws ++ r₁.tabInst from htab, List.length_append]
        omega
      rw [hone] at hpos hinst
      rw [hentries, List.nil_append] at hinst
      refine ⟨ws, htab, ?_, ?_⟩
      · show toUInt32 (r₁.pos + (inst.numSwitchEntries - 1)) = _
        rw [hpos, hws, toUInt32_of_small (by omega) (by omega)]
        ring
      · rw [hinst]
        exact .switch hswitch ws hws (by omega)
    · rw [if_neg hswitch] at h
      cases h
      exact ⟨[], rfl, (add_zero _).symm, .none hclosureRec hswitch⟩

/-- The record of an opcode with its operands, the opcode in word `at_`. -/
def withOperands (op : OpCode) (idx at_ : Nat) (operands : List Int) : ZInstruction :=
  { numbered op idx at_ with args := pad 4 (storedFrom op (at_ + 1) 0 operands) }

/-- A round between two rounds at which both cursors are at word `at_`. -/
structure Round (at_ : Nat) (r r' : Reader) (op : OpCode) (operands table : List Int)
    (inst : ZInstruction) : Prop where
  length_operands : operands.length = op.arity
  tabInst : r.tabInst = (op.num : Int) :: (operands ++ (table ++ r'.tabInst))
  pos : r'.pos = at_ + (1 + operands.length + table.length)
  table : TableRead (at_ + 1 + operands.length)
    (withOperands op r.instructions.length at_ operands) table inst
  instructions : r'.instructions = r.instructions ++ [inst]
  instPositions : r'.instPositions =
    fun p : Int => if p = at_ + 1 then some (r.instructions.length : Int) else r.instPositions p

theorem readInstruction_round (hpos : r.pos = at_) (hsize : size = at_ + r.tabInst.length)
    (hbound : size < 1073741824) (h : readInstruction .littleEndian size r = some r')
    (htable : ∀ inst ∈ r'.instructions, inst.HasTable) :
    ∃ op operands table inst, Round at_ r r' op operands table inst := by
  cases hwords : r.tabInst with
  | nil =>
      rw [readInstruction, Reader.next, hwords] at h
      cases h
  | cons w ws =>
      rw [hwords, List.length_cons] at hsize
      obtain ⟨horig, hadvance, hkey⟩ := opening_words (by omega) hsize
      simp only [readInstruction, Reader.next, hwords, hpos, toBigEndian, List.length_cons, horig,
        Reader.advance, hadvance, hkey, Option.bind_eq_bind, Option.bind_some,
        Option.bind_eq_some_iff] at h
      obtain ⟨op, hop, ⟨inst₁, r₁⟩, hargs, ⟨inst₂, r₂⟩, htab, h⟩ := h
      cases h
      have hnum : w = op.num := OpCode.ofNum?_eq_some hop
      have hread₁ : readArgs .littleEndian 0 op.arity (numbered op r.instructions.length at_)
        (r.opened at_ ws) = some (inst₁, r₁) := hargs
      have hread₂ : readTable .littleEndian inst₁ r₁ = some (inst₂, r₂) := htab
      have hon₁ := (readArgs_readOn hread₁).1
      have hon₂ := (readTable_readOn hread₂).1
      have harity := op.arity_le_two
      have hopened : (r.opened at_ ws).pos = at_ + 1 := rfl
      obtain ⟨operands, hoperands, htab₁, hpos₁, hinst₁⟩ :=
        @readArgs_eq_some _ inst₁ _ r₁ [] op.arity (pad_nil 4).symm (by rw [hopened]; omega)
          (by rw [hopened]; omega) hread₁
      rw [hopened] at hpos₁ hinst₁
      have hws : ws = operands ++ r₁.tabInst := htab₁
      have hle : ws.length = operands.length + r₁.tabInst.length := by rw [hws, List.length_append]
      rw [← hoperands] at hpos₁
      have hwith : inst₁ = withOperands op r.instructions.length at_ operands := hinst₁
      obtain ⟨table, htab₂, hpos₂, hread⟩ :=
        readTable_eq_some (by rw [hwith]; exact (pad_nil 32).symm) (by rw [hwith]; rfl) (by omega)
          (by omega) hread₂ (htable inst₂ (List.mem_append_right _ List.mem_cons_self))
      rw [hpos₁, hwith] at hread
      refine ⟨op, operands, table, inst₂, hoperands, ?_, ?_, hread, ?_, ?_⟩
      · rw [hwords, hnum, hws, htab₂]
      · show r₂.pos = _
        rw [hpos₂, hpos₁]
        ring
      · show r₂.instructions ++ [inst₂] = _
        rw [hon₂.instructions, hon₁.instructions]
        rfl
      · exact hon₂.instPositions.trans hon₁.instPositions

end CamllVM
