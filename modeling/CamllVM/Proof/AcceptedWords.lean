import CamllVM.Proof.ByteOrder
import CamllVM.Proof.DistinctPrograms
import CamllVM.Proof.ReadRounds

/-!
# What is accepted is a program

The reading loop tests nothing, but it has a result only where every table is in the file and every
code offset leads to the opcode word of an instruction. With tables of the sizes that the compiler
writes, the words are then those of a symbolic program, and the decoded instructions are its own.
-/

namespace CamllVM

variable {inst inst' : ZInstruction} {r r' : Reader} {size at_ : Nat} {T : Int → Option Int}

/-! ### Resolved instructions -/

section Resolved

variable {n : Nat} {target : Fin n → Int} {first : Int} {op : OpCode}

/-- Every key is that of an instruction, and the instructions begin within the largest file. -/
structure Keyed (target : Fin n → Int) (T : Int → Option Int) : Prop where
  targets : ∀ p i, T p = some i → ∃ t, p = target t + 1
  bounds : ∀ t, 0 ≤ target t ∧ target t < 1073741824

theorem exists_target (hkeyed : Keyed target T) (hlow : 0 ≤ first)
    (hhigh : first < 1073741828) {w : Int} (hw : IsInt32 w)
    (h : (T (toInt32 (first + w + 1))).isSome) :
    ∃ t, w = target t - first ∧ toInt32 (first + w + 1) = target t + 1 := by
  obtain ⟨i, hi⟩ := Option.isSome_iff_exists.mp h
  obtain ⟨t, ht⟩ := hkeyed.targets _ _ hi
  refine ⟨t, ?_, ht⟩
  obtain ⟨hwlow, hwhigh⟩ := hw
  have hrange := hkeyed.bounds t
  -- both numbers are too close to differ by a multiple of the word's modulus
  have hmod : (first + w + 1) % 4294967296 = (target t + 1) % 4294967296 := by
    rw [← ht, toInt32]
    exact Int.bmod_emod.symm
  omega

/-- The words of a table all of whose entries lead to instructions. -/
theorem exists_targets (hkeyed : Keyed target T) (hlow : 0 ≤ first)
    (hhigh : first < 1073741828) {ws : List Int} (hws : ∀ w ∈ ws, IsInt32 w)
    (h : ∀ p ∈ ws.map fun w => toInt32 (first + 1 + w), (T p).isSome) :
    ∃ ts : List (Fin n), ws = ts.map (target · - first) ∧
      (ws.map fun w => toInt32 (first + 1 + w)) = ts.map (target · + 1) := by
  induction ws with
  | nil => exact ⟨[], rfl, rfl⟩
  | cons w ws ih =>
      rw [List.map_cons, List.forall_mem_cons] at h
      rw [List.forall_mem_cons] at hws
      have hkey : first + 1 + w = first + w + 1 := by ring
      rw [hkey] at h
      obtain ⟨t, ht, hentry⟩ := exists_target hkeyed hlow hhigh hws.1 h.1
      obtain ⟨ts, hts, hentries⟩ := ih hws.2 h.2
      refine ⟨t :: ts, by rw [List.map_cons, ← ht, ← hts], ?_⟩
      rw [List.map_cons, List.map_cons, hkey, hentry, hentries]

theorem adjustClosureRecFns_isSome {stored ws : List Int}
    (hfns : inst.closureRecFns = pad 32 (stored ++ ws))
    (h : adjustClosureRecFns T stored.length ws.length inst = some inst') :
    ∀ p ∈ ws, (T p).isSome := by
  induction ws generalizing stored inst with
  | nil => exact fun p hp => absurd hp List.not_mem_nil
  | cons w ws ih =>
      rw [List.length_cons, adjustClosureRecFns] at h
      split at h
      · next hlt =>
          simp only [Option.bind_eq_bind, Option.bind_eq_some_iff] at h
          obtain ⟨idx, hidx, inst₁, hset, h⟩ := h
          have hentry : inst.closureRecFns[stored.length] = w := by
            simp only [hfns, pad_getElem]
            simp
          rw [hentry] at hidx
          obtain ⟨_, rfl⟩ := setClosureRecFn_eq_some hset
          have hfns' : inst.closureRecFns.set stored.length idx hlt =
              pad 32 ((stored ++ [idx]) ++ ws) := by
            rw [hfns, pad_set_stored _ _ _ _ hlt, List.append_assoc, List.singleton_append]
          rw [show stored.length + 1 = (stored ++ [idx]).length by simp] at h
          exact List.forall_mem_cons.mpr ⟨Option.isSome_iff_exists.mpr ⟨idx, hidx⟩, ih hfns' h⟩
      · cases h

theorem mapM_isSome {ps is : List Int} (h : ps.mapM T = some is) : ∀ p ∈ ps, (T p).isSome := by
  induction ps generalizing is with
  | nil => exact fun p hp => absurd hp List.not_mem_nil
  | cons p ps ih =>
      simp only [List.mapM_cons, Option.bind_eq_bind, Option.bind_eq_some_iff] at h
      obtain ⟨i, hi, is', his, -⟩ := h
      exact List.forall_mem_cons.mpr ⟨Option.isSome_iff_exists.mpr ⟨i, hi⟩, ih his⟩

theorem storedFrom_of_ne {pos : Int} {j : Nat} {ws : List Int}
    (h : ∀ k, codeOffsetArgs op = some k → j + ws.length ≤ k) : storedFrom op pos j ws = ws := by
  induction ws generalizing pos j with
  | nil => rfl
  | cons w ws ih =>
      have hnot : ¬(codeOffsetArgs op).map Fin.val = some j := by
        intro heq
        obtain ⟨k, hk, hval⟩ := Option.map_eq_some_iff.mp heq
        have hle := h k hk
        rw [List.length_cons] at hle
        omega
      rw [storedFrom, if_neg hnot, ih fun k hk => ?_]
      have hle := h k hk
      rw [List.length_cons] at hle
      omega

/-- The code offset is stored as a key, the operands before it as they are. -/
theorem storedFrom_concat {k : Fin 4} {pos : Int} {j : Nat} {ws : List Int} {w : Int}
    (hoffset : codeOffsetArgs op = some k) (hk : j + ws.length = k) :
    storedFrom op pos j (ws ++ [w]) = ws ++ [toInt32 (pos + ws.length + w + 1)] := by
  induction ws generalizing pos j with
  | nil =>
      have hj : (codeOffsetArgs op).map Fin.val = some j := by
        rw [hoffset, Option.map_some, ← hk, List.length_nil, Nat.add_zero]
      rw [List.nil_append, storedFrom, if_pos hj, storedFrom]
      simp
  | cons v ws ih =>
      rw [List.length_cons] at hk ⊢
      have hj : ¬(codeOffsetArgs op).map Fin.val = some j := by
        rw [hoffset, Option.map_some, Option.some.injEq]
        omega
      rw [List.cons_append, storedFrom, if_neg hj, ih (by omega)]
      push_cast
      rw [add_right_comm pos 1, add_assoc pos]
      rfl

variable {idx : Nat} {operands table : List Int}

theorem withOperands_of_none (hoffset : codeOffsetArgs op = none) :
    withOperands op idx at_ operands = { numbered op idx at_ with args := pad 4 operands } := by
  rw [withOperands, storedFrom_of_ne fun k hk => by rw [hoffset] at hk; cases hk]

/-- The words of an instruction and the record that the reading loop makes of them, with keys for
the targets. -/
def ReadAs (target : Fin n → Int) (idx at_ : Nat) (ws : List Int) (inst : ZInstruction)
    (i : SymInstruction n) : Prop :=
  i.words target at_ = ws ∧ inst = { i.record (target · + 1) with idx := idx, origIdx := at_ }

theorem exists_readAs_plain (hlength : operands.length = op.arity)
    (hoffset : codeOffsetArgs op = none) (hclosureRec : op ≠ .closureRec) (hswitch : op ≠ .switch) :
    ∃ i : SymInstruction n, ReadAs target idx at_ ((op.num : Int) :: operands)
      (withOperands op idx at_ operands) i := by
  refine ⟨.plain op operands hoffset hclosureRec hswitch hlength, rfl, ?_⟩
  rw [withOperands_of_none hoffset]
  rfl

theorem exists_readAs_offset {k : Fin 4} (hkeyed : Keyed target T) (hat : at_ < 1073741824)
    (hws : ∀ w ∈ operands, IsInt32 w) (hlength : operands.length = op.arity)
    (hoffset : codeOffsetArgs op = some k)
    (hadjust : (adjustInst T (withOperands op idx at_ operands)).isSome) :
    ∃ i : SymInstruction n, ReadAs target idx at_ ((op.num : Int) :: operands)
      (withOperands op idx at_ operands) i := by
  rw [arity_of_codeOffsetArgs hoffset] at hlength
  obtain ⟨front, w, rfl⟩ := List.eq_nil_or_concat operands |>.resolve_left fun h => by
    rw [h] at hlength
    cases hlength
  rw [List.concat_eq_append, List.length_append, List.length_singleton, Nat.succ_inj] at hlength
  rw [List.concat_eq_append] at hws hadjust ⊢
  have hstored :=
    @storedFrom_concat op k (at_ + 1) 0 front w hoffset ((Nat.zero_add _).trans hlength)
  have hclosureRec : op ≠ .closureRec := by rintro rfl; cases hoffset
  have hswitch : op ≠ .switch := by rintro rfl; cases hoffset
  have harg : (withOperands op idx at_ (front ++ [w])).arg k =
      toInt32 ((at_ : Int) + 1 + front.length + w + 1) := by
    rw [ZInstruction.arg, withOperands, hstored, Fin.getElem_fin, pad_getElem, ← hlength]
    simp
  have hkey : (T (toInt32 ((at_ : Int) + 1 + front.length + w + 1))).isSome := by
    rw [Option.isSome_iff_exists] at hadjust ⊢
    obtain ⟨inst', hadjust⟩ := hadjust
    have hop : (withOperands op idx at_ (front ++ [w])).opNum = op := rfl
    rw [adjustInst, hop, if_neg hclosureRec, if_neg hswitch, hoffset, Option.bind_eq_bind,
      Option.bind_some, harg, Option.bind_eq_bind, Option.bind_eq_some_iff] at hadjust
    obtain ⟨i, hi, -⟩ := hadjust
    exact ⟨i, hi⟩
  have hk := k.isLt
  obtain ⟨t, ht, hentry⟩ := exists_target hkeyed (by omega) (by omega)
    (hws w (List.mem_append_right _ List.mem_cons_self)) hkey
  refine ⟨.offset op front k hoffset hlength t, ?_, ?_⟩
  · rw [SymInstruction.words, ← ht]
  · rw [withOperands, hstored, hentry]
    rfl

theorem exists_readAs_closureRec (hkeyed : Keyed target T) (hat : at_ < 1073741824)
    (hws : ∀ w ∈ table, IsInt32 w) {count nvars : Int} (hcount : count = table.length)
    (hone : 1 ≤ table.length) (hmax : table.length ≤ 32)
    (hinst : inst = { numbered .closureRec idx at_ with
      args := pad 4 [count, nvars],
      closureRecFns := pad 32 (table.map fun w => toInt32 ((at_ : Int) + 3 + 1 + w)) })
    (hadjust : (adjustInst T inst).isSome) :
    ∃ i : SymInstruction n, ReadAs target idx at_
      ((OpCode.closureRec.num : Int) :: count :: nvars :: table) inst i := by
  have hop : inst.opNum = .closureRec := by rw [hinst]; rfl
  have harg : (inst.arg 0).toNat = table.length := by
    rw [ZInstruction.arg, hinst, hcount, Fin.getElem_fin, pad_getElem]
    rfl
  have hkeys : ∀ p ∈ table.map fun w => toInt32 ((at_ : Int) + 3 + 1 + w), (T p).isSome := by
    obtain ⟨inst', hadjust⟩ := Option.isSome_iff_exists.mp hadjust
    have hentries : (table.map fun w => toInt32 ((at_ : Int) + 3 + 1 + w)).length = table.length :=
      List.length_map _
    have hfns : inst.closureRecFns =
        pad 32 ([] ++ table.map fun w => toInt32 ((at_ : Int) + 3 + 1 + w)) := by
      rw [hinst, List.nil_append]
    rw [adjustInst, if_pos hop, harg, ← hentries] at hadjust
    exact adjustClosureRecFns_isSome hfns hadjust
  obtain ⟨ts, hts, hentries⟩ := exists_targets hkeyed (by omega) (by omega) hws hkeys
  have hlength : table.length = ts.length := by rw [hts, List.length_map]
  rw [hlength] at hcount hone hmax
  refine ⟨.closureRec nvars ts hone hmax, ?_, ?_⟩
  · rw [SymInstruction.words, ← hts, ← hcount]
  · rw [hinst, hentries, hcount]
    rfl

theorem exists_readAs_switch (hkeyed : Keyed target T) (hat : at_ < 1073741824)
    (hws : ∀ w ∈ table, IsInt32 w) {sizes : Int} (hsizes : IsInt32 sizes) (hlow : 0 ≤ sizes)
    (hcount : sizes / 65536 + sizes % 65536 = table.length)
    (hinst : inst = { numbered .switch idx at_ with
      args := pad 4 [sizes],
      switchEntries := table.map fun w => toInt32 ((at_ : Int) + 2 + 1 + w) })
    (hadjust : (adjustInst T inst).isSome) :
    ∃ i : SymInstruction n, ReadAs target idx at_ ((OpCode.switch.num : Int) :: sizes :: table)
      inst i := by
  have hop : inst.opNum = .switch := by rw [hinst]; rfl
  have hkeys : ∀ p ∈ table.map fun w => toInt32 ((at_ : Int) + 2 + 1 + w), (T p).isSome := by
    obtain ⟨inst', hadjust⟩ := Option.isSome_iff_exists.mp hadjust
    rw [adjustInst, if_neg (by rw [hop]; decide), if_pos hop, Option.bind_eq_bind,
      Option.bind_eq_some_iff] at hadjust
    obtain ⟨entries, hentries, -⟩ := hadjust
    rw [hinst] at hentries
    exact mapM_isSome hentries
  obtain ⟨ts, hts, hentries⟩ := exists_targets hkeyed (by omega) (by omega) hws hkeys
  have hlength : table.length = ts.length := by rw [hts, List.length_map]
  obtain ⟨-, hhigh⟩ := hsizes
  let consts := ts.take (sizes % 65536).toNat
  let blocks := ts.drop (sizes % 65536).toNat
  have happend : consts ++ blocks = ts := List.take_append_drop _ _
  have hconsts : (consts.length : Int) = sizes % 65536 := by
    rw [List.length_take]
    omega
  have hblocks : (blocks.length : Int) = sizes / 65536 := by
    rw [List.length_drop]
    omega
  have hsum : SymInstruction.sizes consts blocks = sizes := by
    rw [SymInstruction.sizes, hconsts, hblocks]
    omega
  refine ⟨.switch consts blocks (by omega) (by omega), ?_, ?_⟩
  · rw [SymInstruction.words, hsum, happend, ← hts]
  · rw [hinst, SymInstruction.record, hsum, happend, hentries]
    rfl

theorem Round.exists_readAs (h : Round at_ r r' op operands table inst)
    (hkeyed : Keyed target T) (hat : at_ < 1073741824)
    (hws : ∀ w ∈ r.tabInst, IsInt32 w)
    (hadjust : inst.hasTargets = true → (adjustInst T inst).isSome) :
    ∃ i : SymInstruction n, ReadAs target r.instructions.length at_
      ((op.num : Int) :: (operands ++ table)) inst i := by
  have htable := h.table
  have hlength := h.length_operands
  rw [h.tabInst, List.forall_mem_cons, List.forall_mem_append, List.forall_mem_append] at hws
  obtain ⟨-, hoperands, hentries, -⟩ := hws
  cases htable with
  | none hclosureRec hswitch =>
      rw [List.append_nil]
      cases hoffset : codeOffsetArgs op with
      | none => exact exists_readAs_plain hlength hoffset hclosureRec hswitch
      | some k =>
          refine exists_readAs_offset hkeyed hat hoperands hlength hoffset (hadjust ?_)
          have hsome : (codeOffsetArgs op).isSome = true := by rw [hoffset]; rfl
          exact Bool.or_eq_true_iff.mpr (.inl (Bool.or_eq_true_iff.mpr (.inl hsome)))
  | closureRec hop _ hcount hone hmax =>
      obtain rfl : op = .closureRec := hop
      obtain ⟨count, nvars, rfl⟩ := List.length_eq_two.mp hlength
      have hwith := @withOperands_of_none at_ .closureRec r.instructions.length [count, nvars] rfl
      rw [hwith] at hcount hadjust ⊢
      have hfirst : (at_ : Int) + 1 + ([count, nvars].length : Nat) = at_ + 3 := by
        rw [hlength]
        show (at_ : Int) + 1 + 2 = at_ + 3
        ring
      rw [hfirst] at hadjust ⊢
      exact exists_readAs_closureRec hkeyed hat hentries hcount hone hmax rfl (hadjust rfl)
  | switch hop _ hcount hlow =>
      obtain rfl : op = .switch := hop
      obtain ⟨sizes, rfl⟩ := List.length_eq_one_iff.mp hlength
      have hwith := @withOperands_of_none at_ .switch r.instructions.length [sizes] rfl
      rw [hwith] at hcount hlow hadjust ⊢
      have hfirst : (at_ : Int) + 1 + ([sizes].length : Nat) = at_ + 2 := by
        rw [hlength]
        show (at_ : Int) + 1 + 1 = at_ + 2
        ring
      rw [hfirst] at hadjust ⊢
      exact exists_readAs_switch hkeyed hat hentries (hoperands sizes List.mem_cons_self) hlow
        hcount rfl (hadjust rfl)

end Resolved

/-! ### The reading loop -/

variable {host : Host} {limit : Int}

theorem readInstruction_extends (h : readInstruction host size r = some r') :
    r.instructions <+: r'.instructions := by
  simp only [readInstruction, Option.bind_eq_bind, Option.bind_eq_some_iff] at h
  obtain ⟨⟨w, r₁⟩, hnext, op, -, ⟨inst₁, r₂⟩, hargs, ⟨inst₂, r₃⟩, htable, h⟩ := h
  cases h
  have hread := Reader.next_readOn (.blank op) hnext
  obtain ⟨hon₁, -⟩ := readArgs_readOn hargs
  obtain ⟨hon₂, -⟩ := readTable_readOn htable
  have hinsts : r₃.instructions = r.instructions :=
    (hon₂.instructions.trans hon₁.instructions).trans hread.instructions
  exact hinsts ▸ List.prefix_append _ _

theorem readLoop_extends {r r' : Reader} (h : readLoop host size limit r = some r') :
    r.instructions <+: r'.instructions := by
  rw [readLoop] at h
  split at h
  · split at h
    · cases h
    · next r₁ hround => exact (readInstruction_extends hround).trans (readLoop_extends h)
  · cases h
    exact List.prefix_rfl
termination_by r.tabInst.length
decreasing_by exact readInstruction_length (by assumption)

/-- What every round keeps holds when the loop ends, and then no word of the code is left. A round
may use that its instructions are among the last ones. -/
theorem readLoop_invariant {P : Reader → Prop} {r r' : Reader}
    (hstep : ∀ r₁ r₂, P r₁ → readInstruction host size r₁ = some r₂ →
      r₂.instructions <+: r'.instructions → P r₂)
    (hstart : P r) (h : readLoop host size limit r = some r') : P r' ∧ limit ≤ r'.pos := by
  rw [readLoop] at h
  split at h
  · split at h
    · cases h
    · next r₁ hround =>
        exact readLoop_invariant hstep (hstep r r₁ hstart hround (readLoop_extends h)) h
  · next hge =>
      cases h
      exact ⟨hstart, not_lt.mp hge⟩
termination_by r.tabInst.length
decreasing_by exact readInstruction_length (by assumption)

/-- Both cursors are at the same word, and a key is that of an instruction. -/
structure InStep (size : Nat) (r : Reader) : Prop where
  cursors : ∃ at_ : Nat, r.pos = at_ ∧ size = at_ + r.tabInst.length
  origIdx : ∀ inst ∈ r.instructions, 0 ≤ inst.origIdx ∧ inst.origIdx < size
  keys : ∀ p i, r.instPositions p = some i → ∃ inst ∈ r.instructions, p = inst.origIdx + 1

theorem Round.origIdx {op : OpCode} {operands table : List Int}
    (h : Round at_ r r' op operands table inst) : inst.origIdx = at_ := by
  have htable := h.table
  cases htable <;> rfl

theorem InStep.round (h : InStep size r) (hbound : size < 1073741824)
    (hround : readInstruction .littleEndian size r = some r')
    (htable : ∀ inst ∈ r'.instructions, inst.HasTable) : InStep size r' := by
  obtain ⟨at_, hpos, hsize⟩ := h.cursors
  obtain ⟨op, operands, table, inst, hround⟩ :=
    readInstruction_round hpos hsize hbound hround htable
  have horig := hround.origIdx
  rw [hround.tabInst, List.length_cons, List.length_append, List.length_append] at hsize
  refine ⟨⟨at_ + (1 + operands.length + table.length), ?_, by omega⟩, ?_, ?_⟩
  · rw [hround.pos]
    push_cast
    ring
  · rw [hround.instructions]
    intro inst' hinst'
    rcases List.mem_append.mp hinst' with hold | hnew
    · exact h.origIdx inst' hold
    · obtain rfl := List.mem_singleton.mp hnew
      omega
  · rw [hround.instPositions, hround.instructions]
    intro p i hp
    beta_reduce at hp
    split at hp
    · next heq => exact ⟨inst, List.mem_append_right _ List.mem_cons_self, by rw [heq, horig]⟩
    · obtain ⟨inst', hinst', heq⟩ := h.keys p i hp
      exact ⟨inst', List.mem_append_left _ hinst', heq⟩

/-- The code whose words have been read. -/
def ReadCode {n : Nat} (target : Fin n → Int) (ws : List Int) (r : Reader)
    (code : List (SymInstruction n)) : Prop :=
  ws = encodeFrom target 0 code ++ r.tabInst ∧
    r.pos = (Layout.total SymInstruction.width code : Nat) ∧
    r.instructions = recordsFrom (target · + 1) 0 0 code

theorem encodeFrom_concat {n : Nat} (target : Fin n → Int) (at_ : Nat)
    (code : List (SymInstruction n)) (i : SymInstruction n) :
    encodeFrom target at_ (code ++ [i]) = encodeFrom target at_ code ++
      i.words target (at_ + Layout.total SymInstruction.width code : Nat) := by
  induction code generalizing at_ with
  | nil => simp [encodeFrom]
  | cons j code ih =>
      rw [List.cons_append, encodeFrom, ih, encodeFrom, List.append_assoc, Layout.total_cons,
        Nat.add_assoc]

theorem ReadCode.round {n : Nat} {target : Fin n → Int} {ws : List Int}
    {code : List (SymInstruction n)} (h : ReadCode target ws r code)
    (hkeyed : Keyed target T) (hsize : ws.length < 1073741824)
    (hws : ∀ w ∈ ws, IsInt32 w)
    (hround : readInstruction .littleEndian ws.length r = some r')
    (htable : ∀ inst ∈ r'.instructions, inst.HasTable)
    (hadjust : ∀ inst ∈ r'.instructions, inst.hasTargets = true → (adjustInst T inst).isSome) :
    ∃ i, ReadCode target ws r' (code ++ [i]) := by
  obtain ⟨htab, hpos, hinsts⟩ := h
  have hlength : ws.length = Layout.total SymInstruction.width code + r.tabInst.length := by
    rw [htab, List.length_append, length_encodeFrom]
  obtain ⟨op, operands, table, inst, hround⟩ :=
    readInstruction_round hpos hlength hsize hround htable
  have hmem : inst ∈ r'.instructions := by
    rw [hround.instructions]
    exact List.mem_append_right _ List.mem_cons_self
  have hrest : ∀ w ∈ r.tabInst, IsInt32 w := fun w hw =>
    hws w (by rw [htab]; exact List.mem_append_right _ hw)
  obtain ⟨i, hwords, hrecord⟩ :=
    hround.exists_readAs hkeyed (by omega) hrest (hadjust inst hmem)
  have hwidth : i.width = 1 + operands.length + table.length := by
    rw [← i.length_words target (Layout.total SymInstruction.width code : Nat), hwords,
      List.length_cons, List.length_append]
    omega
  have hcount : r.instructions.length = code.length := by rw [hinsts, length_recordsFrom]
  refine ⟨i, ?_, ?_, ?_⟩
  · rw [encodeFrom_concat, Nat.zero_add, hwords, List.append_assoc, htab, hround.tabInst,
      List.cons_append, List.append_assoc]
  · have htotal : Layout.total SymInstruction.width (code ++ [i]) =
        Layout.total SymInstruction.width code + i.width := by simp [Layout.total]
    rw [hround.pos, htotal, hwidth]
    push_cast
    ring
  · rw [hround.instructions, recordsFrom_append_singleton, ← hinsts, hrecord, Nat.zero_add,
      Nat.zero_add, hcount]

/-! ### The fix-up loop -/

theorem adjustInsts_isSome {ks : List Nat} {insts insts' : List ZInstruction}
    (h : adjustInsts T ks insts = some insts') :
    ∀ k ∈ ks, ∀ inst, insts[k]? = some inst → (adjustInst T inst).isSome := by
  induction ks generalizing insts with
  | nil => exact fun k hk => absurd hk List.not_mem_nil
  | cons k ks ih =>
      simp only [adjustInsts, Option.bind_eq_bind, Option.bind_eq_some_iff] at h
      obtain ⟨inst₁, hget, inst₂, hadjust, h⟩ := h
      intro j hj inst hinst
      -- an instruction that is visited again is still as it was read at its first visit
      by_cases hjk : j = k
      · subst hjk
        rw [hget, Option.some.injEq] at hinst
        exact Option.isSome_iff_exists.mpr ⟨inst₂, hinst ▸ hadjust⟩
      · refine ih h j ((List.mem_cons.mp hj).resolve_left hjk) inst ?_
        rw [List.getElem?_set_ne (Ne.symm hjk), hinst]

theorem adjustInst_hasTable (h : adjustInst T inst = some inst') (htable : inst'.HasTable) :
    inst.HasTable := by
  unfold adjustInst at h
  split at h
  · have hpos : ∀ p i, T p = some i → True := fun _ _ _ => trivial
    obtain ⟨hop, hargs, -⟩ := adjustClosureRecFns_resolved hpos h
    exact (ZInstruction.hasTable_congr hop hargs).mp htable
  · next hclosureRec =>
      split at h
      · simp only [Option.bind_eq_bind, Option.bind_eq_some_iff] at h
        obtain ⟨entries, -, h⟩ := h
        cases h
        exact htable
      · next hswitch => exact ⟨fun hop => absurd hop hclosureRec, fun hop => absurd hop hswitch⟩

theorem adjustInsts_hasTable {ks : List Nat} {insts insts' : List ZInstruction}
    (h : adjustInsts T ks insts = some insts') (htable : ∀ inst ∈ insts', inst.HasTable) :
    ∀ inst ∈ insts, inst.HasTable := by
  induction ks generalizing insts with
  | nil =>
      cases h
      exact htable
  | cons k ks ih =>
      simp only [adjustInsts, Option.bind_eq_bind, Option.bind_eq_some_iff] at h
      obtain ⟨inst₁, hget, inst₂, hadjust, h⟩ := h
      have hset := ih h
      intro inst hinst
      obtain ⟨j, hj⟩ := List.getElem?_of_mem hinst
      by_cases hjk : k = j
      · subst hjk
        obtain ⟨hlt, -⟩ := List.getElem?_eq_some_iff.mp hget
        have hmem : inst₂ ∈ insts.set k inst₂ := List.mem_set hlt inst₂
        rw [hget, Option.some.injEq] at hj
        exact hj ▸ adjustInst_hasTable hadjust (hset inst₂ hmem)
      · refine hset inst (List.mem_of_getElem? (i := j) ?_)
        rw [List.getElem?_set_ne hjk, hj]

/-! ### Whole programs -/

theorem origIdx_recordsFrom {n : Nat} {name : Fin n → Int} {idx : Nat}
    {code : List (SymInstruction n)} {j : Nat}
    (h : (recordsFrom name idx at_ code)[j]? = some inst) :
    inst.origIdx = (at_ + Layout.offset SymInstruction.width code j : Nat) := by
  induction code generalizing idx at_ j with
  | nil => cases h
  | cons i code ih =>
      cases j with
      | zero =>
          cases h
          rw [Layout.offset_zero, Nat.add_zero]
      | succ j =>
          rw [ih h, Layout.offset, Layout.offset, List.take_succ_cons, List.map_cons,
            List.sum_cons, Nat.add_assoc]

theorem hasTable_of_mem_recordsFrom {n : Nat} {name : Fin n → Int} {idx : Nat}
    {code : List (SymInstruction n)} (h : inst ∈ recordsFrom name idx at_ code) :
    inst.HasTable := by
  induction code generalizing idx at_ with
  | nil => cases h
  | cons i code ih =>
      rcases List.mem_cons.mp h with rfl | h
      · cases i with
        | plain op operands hoffset hclosureRec hswitch hlength =>
            exact ⟨fun hop => absurd hop hclosureRec, fun hop => absurd hop hswitch⟩
        | offset op operands k hoffset hlength t =>
            refine ⟨fun hop => ?_, fun hop => ?_⟩ <;> obtain rfl : op = _ := hop <;> cases hoffset
        | closureRec nvars fns hone hmax =>
            exact ⟨fun _ => Nat.cast_le.mpr hone, fun hop => (by cases hop)⟩
        | switch consts blocks hconsts hblocks =>
            refine ⟨fun hop => (by cases hop), fun _ => ?_⟩
            show 0 ≤ SymInstruction.sizes consts blocks
            unfold SymInstruction.sizes
            omega
      · exact ih h

section Loop

variable {ws : List Int}

theorem inStep_of_readLoop (hsize : ws.length < 1073741824)
    (hloop : readLoop .littleEndian ws.length ws.length ⟨ws, 0, fun _ => none, [], []⟩ = some r)
    (htable : ∀ inst ∈ r.instructions, inst.HasTable) : InStep ws.length r := by
  have hstart : InStep ws.length ⟨ws, 0, fun _ => none, [], []⟩ :=
    ⟨⟨0, rfl, (Nat.zero_add _).symm⟩, fun _ hinst => absurd hinst List.not_mem_nil,
      fun _ _ hp => by cases hp⟩
  refine (readLoop_invariant (fun r₁ r₂ h hround hfront => ?_) hstart hloop).1
  exact h.round hsize hround fun inst hinst => htable inst (hfront.subset hinst)

theorem InStep.keyed (h : InStep size r) (hsize : size < 1073741824) :
    Keyed (fun t : Fin r.instructions.length => r.instructions[t].origIdx) r.instPositions := by
  constructor
  · intro p i hp
    obtain ⟨inst, hinst, rfl⟩ := h.keys p i hp
    obtain ⟨t, ht, rfl⟩ := List.mem_iff_getElem.mp hinst
    exact ⟨⟨t, ht⟩, rfl⟩
  · intro t
    obtain ⟨hlow, hhigh⟩ := h.origIdx _ (List.getElem_mem t.isLt)
    exact ⟨hlow, hhigh.trans (Nat.cast_lt.mpr hsize)⟩

theorem exists_readCode {n : Nat} {target : Fin n → Int} (hkeyed : Keyed target r.instPositions)
    (hsize : ws.length < 1073741824) (hws : ∀ w ∈ ws, IsInt32 w)
    (hloop : readLoop .littleEndian ws.length ws.length ⟨ws, 0, fun _ => none, [], []⟩ = some r)
    (htable : ∀ inst ∈ r.instructions, inst.HasTable)
    (hadjust : ∀ inst ∈ r.instructions, inst.hasTargets = true →
      (adjustInst r.instPositions inst).isSome) :
    ∃ code, ReadCode target ws r code ∧ r.tabInst = [] := by
  have hstart : ∃ code, ReadCode target ws ⟨ws, 0, fun _ => none, [], []⟩ code :=
    ⟨[], rfl, rfl, rfl⟩
  have hround : ∀ r₁ r₂, (∃ code, ReadCode target ws r₁ code) →
      readInstruction .littleEndian ws.length r₁ = some r₂ → r₂.instructions <+: r.instructions →
      ∃ code, ReadCode target ws r₂ code := by
    rintro r₁ r₂ ⟨code, h⟩ hround hfront
    obtain ⟨i, hi⟩ := h.round hkeyed hsize hws hround
      (fun inst hinst => htable inst (hfront.subset hinst))
      (fun inst hinst => hadjust inst (hfront.subset hinst))
    exact ⟨code ++ [i], hi⟩
  obtain ⟨⟨code, hread⟩, hend⟩ := readLoop_invariant hround hstart hloop
  refine ⟨code, hread, ?_⟩
  obtain ⟨htab, hpos, -⟩ := hread
  have htotal := congrArg List.length htab
  rw [List.length_append, length_encodeFrom] at htotal
  exact List.eq_nil_of_length_eq_zero (by omega)

/-- The words of a file, when the reading loop ends and all targets are resolved. -/
theorem exists_encode (hsize : ws.length < 1073741824) (hws : ∀ w ∈ ws, IsInt32 w)
    (hloop : readLoop .littleEndian ws.length ws.length ⟨ws, 0, fun _ => none, [], []⟩ = some r)
    (htable : ∀ inst ∈ r.instructions, inst.HasTable)
    (hadjust : ∀ inst ∈ r.instructions, inst.hasTargets = true →
      (adjustInst r.instPositions inst).isSome) :
    ∃ p : SymProgram, p.encode = ws := by
  -- a target can lie behind the instruction that names it, so all keys come before any target
  have hkeyed := (inStep_of_readLoop hsize hloop htable).keyed hsize
  obtain ⟨code, ⟨htab, -, hinsts⟩, hnil⟩ := exists_readCode hkeyed hsize hws hloop htable hadjust
  have hlength : code.length = r.instructions.length :=
    ((congrArg List.length hinsts).trans (length_recordsFrom _ 0 0 code)).symm
  let p : SymProgram := ⟨r.instructions.length, code, hlength⟩
  have hposition : (fun t : Fin p.size => (p.position t : Int)) =
      fun t => r.instructions[t].origIdx := by
    funext t
    have hget : r.instructions[(t : Nat)]? = some r.instructions[t] :=
      List.getElem?_eq_getElem t.isLt
    have horig := origIdx_recordsFrom ((congrArg (·[(t : Nat)]?) hinsts).symm.trans hget)
    rw [Nat.zero_add] at horig
    exact horig.symm
  refine ⟨p, ?_⟩
  rw [SymProgram.encode, hposition, htab, hnil, List.append_nil]

end Loop

/-! ### The decoder -/

/-- The words that are decoded, with tables of the right sizes, are those of exactly one program, in
the byte order of the file. -/
theorem readInstructions_iff_encode {ws : List Int} {insts : List ZInstruction}
    (hsize : 4 * ws.length < 2 ^ 32) (hws : ∀ w ∈ ws, IsInt32 w) :
    (readInstructions host ws (4 * ws.length) = some insts ∧ ∀ inst ∈ insts, inst.HasTable) ↔
      ∃! p : SymProgram, p.encode = ws.map (toBigEndian host) ∧ p.decoded = insts := by
  have hfile := @readInstructions_inFile host ws (4 * ws.length)
  have hlength : (ws.map (toBigEndian host)).length = ws.length := List.length_map _
  constructor
  · rintro ⟨hread, htable⟩
    rw [hfile] at hread
    have hloops := hread
    simp only [readInstructions, Option.bind_eq_bind, Option.bind_eq_some_iff] at hloops
    obtain ⟨r, hloop, hadjust⟩ := hloops
    rw [show 4 * (ws.length : Int) / 4 = (ws.map (toBigEndian host)).length by omega] at hloop
    have hknown : ReadSoFar r :=
      readLoop_readSoFar ⟨fun k inst hk => by simp at hk, fun p i hp => by cases hp⟩ hloop
    have hwords : ∀ w ∈ ws.map (toBigEndian host), IsInt32 w :=
      List.forall_mem_map.mpr fun w hw => (hws w hw).toBigEndian
    obtain ⟨p, hp⟩ := exists_encode (by omega) hwords hloop (adjustInsts_hasTable hadjust htable)
      fun inst hinst htargets => by
        obtain ⟨k, hk⟩ := List.getElem?_of_mem hinst
        exact adjustInsts_isSome hadjust k (hknown.adjust k inst hk htargets) inst hk
    rw [← hlength, ← hp] at hread hsize
    rw [p.readInstructions_words hsize, Option.some.injEq] at hread
    exact ⟨p, ⟨hp, hread⟩, fun q hq => SymProgram.decoded_injective (hq.2.trans hread.symm)⟩
  · rintro ⟨p, ⟨hp, rfl⟩, -⟩
    rw [hfile, ← hlength, ← hp]
    rw [← hlength, ← hp] at hsize
    exact ⟨p.readInstructions_words hsize, fun inst hinst => hasTable_of_mem_recordsFrom hinst⟩

theorem readInstructions_iff_encode_jumpsAndTables :
    readInstructions .bigEndian (jumpsAndTables.encode.map swapEndianness)
          (4 * (jumpsAndTables.encode.map swapEndianness).length) = some jumpsAndTables.decoded ∧
      ∀ inst ∈ jumpsAndTables.decoded, inst.HasTable :=
  (readInstructions_iff_encode (by decide) (by decide)).mpr
    ⟨jumpsAndTables, ⟨by decide, rfl⟩, fun _ hp => SymProgram.decoded_injective hp.2⟩

end CamllVM
