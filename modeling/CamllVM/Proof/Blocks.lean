import CamllVM.Exec
import CamllVM.Proof.Calls
import CamllVM.Proof.DecodeEncode

/-!
# The construction of blocks

`makeBlock` advances the stack pointer in the loop that fills the block. `makeBlock1` to `makeBlock3`
have no loop, and a large block is not allocated in the minor heap, but all of them leave the same
block.
-/

namespace CamllVM

/-- A step leaves in the accumulator a new block with the accumulator and the words `ws` as its
fields, above the words `rest`. -/
def BuildsBlock (rt : Runtime) (inst : ZInstruction) (s : Exec) (tag : Nat) (ws : List Value)
    (rest : StackWords) : Prop :=
  ∃ (m : Machine) (heap : Heap) (new : List (Nat → Nat)),
    s.step rt inst = some { s with machine := m, control := .inside } ∧
    m.moves = new ++ s.machine.moves ∧ (new = [] → heap = s.machine.heap) ∧
    m.heap = heap ++ [⟨tag, (s.machine.accu :: ws).map fun w => some (w.relocate (moveAll new))⟩] ∧
    m.accu = .ptr heap.length 0 ∧ m.stack = rest.relocate (moveAll new) ∧
    m.env = s.machine.env.relocate (moveAll new) ∧ m.extraArgs = s.machine.extraArgs

variable {rt : Runtime} {inst inst' : ZInstruction} {s : Exec} {m m₁ : Machine} {tag : Nat}
  {ws : List Value} {rest : StackWords}

namespace Machine

/-- The loop that fills a new block from the stack. -/
theorem fillFromStack_eq (heap : Heap) (tag : Nat) (fields : List (Option Value)) {i : Nat}
    (hstack : m.stack = ws.map some ++ rest) (hfit : i + ws.length = fields.length) :
    (m.withHeap (heap ++ [⟨tag, fields⟩])).fillFromStack (.ptr heap.length 0) i ws.length =
      some ((m.withStack rest).withHeap (heap ++ [⟨tag, fields.take i ++ ws.map some⟩])) := by
  induction ws generalizing m fields i with
  | nil =>
      obtain rfl : m.stack = rest := hstack
      rw [List.length_nil, Nat.add_zero] at hfit
      rw [hfit, List.take_length, List.map_nil, List.append_nil]
      rfl
  | cons w ws ih =>
      rw [List.length_cons] at hfit
      have hslot : (m.withHeap (heap ++ [⟨tag, fields⟩])).slot 0 = some w := by
        rw [slot, withHeap_stack, hstack]
        rfl
      have hraise : (m.withHeap (heap ++ [⟨tag, fields.set i (some w)⟩])).raiseSp 1 =
          some ((m.withStack (ws.map some ++ rest)).withHeap
            (heap ++ [⟨tag, fields.set i (some w)⟩])) := by
        rw [raiseSp, withHeap_stack, hstack]
        exact if_pos (Nat.le_add_left 1 _)
      rw [List.length_cons, fillFromStack, hslot, Option.bind_eq_bind, Option.bind_some,
        setField_withHeap m heap tag fields w (by omega), Option.bind_eq_bind, Option.bind_some,
        hraise, Option.bind_some,
        ih (m := m.withStack (ws.map some ++ rest)) _ rfl (by rw [List.length_set]; omega),
        WriteLog.take_succ_set _ (by omega),
        List.append_assoc]
      rfl

theorem exists_allocBlock (rt : Runtime) (m : Machine) (wosize tag : Nat) :
    ∃ m₁ new, Collected new m m₁ ∧ m.allocBlock rt wosize tag =
      some (.ptr m₁.heap.length 0,
        m₁.withHeap (m₁.heap ++ [⟨tag, List.replicate wosize none⟩])) := by
  unfold allocBlock
  split
  · obtain ⟨m₁, new, hreserve, hcollected⟩ := exists_reserve rt m
    exact ⟨m₁, new, hcollected, allocSmall_eq hreserve wosize tag⟩
  · exact ⟨m, [], .refl m, rfl⟩

/-- The result is the same in both heaps. -/
theorem makeBlock_eq (rt : Runtime) (tag : Nat) (hstack : m.stack = ws.map some ++ rest) :
    ∃ m₁ new, Collected new m m₁ ∧ m.makeBlock rt tag (ws.length + 1) =
      some { m₁ with
        accu := .ptr m₁.heap.length 0
        stack := rest.relocate (moveAll new)
        heap := m₁.heap ++
          [⟨tag, (m.accu :: ws).map fun w => some (w.relocate (moveAll new))⟩] } := by
  obtain ⟨m₁, new, hcollected, halloc⟩ := exists_allocBlock rt m (ws.length + 1) tag
  refine ⟨m₁, new, hcollected, ?_⟩
  have hstack₁ : m₁.stack = (ws.map (Value.relocate (moveAll new))).map some ++
      rest.relocate (moveAll new) := by
    rw [hcollected.stack, hstack, StackWords.relocate_append, StackWords.relocate_map_some]
  have hfirst := setField_withHeap m₁ m₁.heap tag (List.replicate (ws.length + 1) none) m₁.accu
    (i := 0) (by simp)
  have hfill := fillFromStack_eq m₁.heap tag
    (some m₁.accu :: List.replicate ws.length none) (i := 1) hstack₁ (by simp; omega)
  rw [List.length_map] at hfill
  rw [makeBlock, halloc, Option.bind_eq_bind, Option.bind_some]
  refine Option.bind_eq_some_iff.mpr ⟨_, hfirst, ?_⟩
  refine Option.bind_eq_some_iff.mpr ⟨_, hfill, ?_⟩
  rw [hcollected.accu, List.map_map]
  rfl

/-! ### The unrolled variants -/

theorem makeBlock1_eq (m : Machine) : m.makeBlock1 rt tag = m.makeBlock rt tag 1 := by
  rw [makeBlock1, makeBlock, allocBlock, if_pos (by decide)]
  rfl

theorem makeBlock2_eq (m : Machine) : m.makeBlock2 rt tag = m.makeBlock rt tag 2 := by
  rw [makeBlock2, makeBlock, allocBlock, if_pos (by decide)]
  simp only [fillFromStack, Option.bind_eq_bind, Option.bind_assoc, Option.bind_some]
  rfl

/-- The stack pointer is raised at the end, or between the assignments. -/
theorem raiseSp_setField (m : Machine) (v : Value) (i : Int) :
    (do
      let m ← m.setField v i (← m.slot 1)
      m.raiseSp 2) =
    (do
      let m ← m.raiseSp 1
      let m ← m.setField v i (← m.slot 0)
      m.raiseSp 1) := by
  cases hstack : m.stack with
  | nil => simp [slot, raiseSp, hstack]
  | cons w stack =>
      have hraise : m.raiseSp 1 = some (m.withStack stack) := by
        rw [raiseSp, hstack]
        exact if_pos (Nat.le_add_left 1 _)
      have hslot : m.slot 1 = (m.withStack stack).slot 0 := by
        rw [slot, slot, hstack]
        rfl
      rw [hraise, hslot, Option.bind_eq_bind, Option.bind_eq_bind, Option.bind_some]
      cases (m.withStack stack).slot 0 with
      | none => rfl
      | some u =>
          simp only [Option.bind_some, setField]
          cases hset : m.heap.setField v i u with
          | none => simp [withStack, hset]
          | some heap => simp [withStack, hset, raiseSp, hstack]

theorem makeBlock3_eq (m : Machine) : m.makeBlock3 rt tag = m.makeBlock rt tag 3 := by
  rw [makeBlock3, makeBlock, allocBlock, if_pos (by decide)]
  refine congrArg (Option.bind _) (funext fun x => congrArg (Option.bind _) (funext fun m => ?_))
  have hfill : m.fillFromStack x.1 1 (3 - 1) = (m.slot 0).bind fun v => (m.setField x.1 1 v).bind
      fun m => (m.raiseSp 1).bind fun m => (m.slot 0).bind fun v => (m.setField x.1 2 v).bind
        fun m => m.raiseSp 1 := by
    simp only [fillFromStack, Option.bind_eq_bind, Option.bind_fun_some, Nat.add_one_sub_one]
    rfl
  rw [hfill]
  simp only [Option.bind_eq_bind, Option.bind_assoc]
  refine congrArg (Option.bind _) (funext fun v => congrArg (Option.bind _) (funext fun m => ?_))
  have hraise := congrArg (Option.bind · fun m => some { m with accu := x.1 })
    (raiseSp_setField m x.1 2)
  simp only [Option.bind_eq_bind, Option.bind_assoc] at hraise
  exact hraise

end Machine

/-! ### The instructions -/

/-- The unrolled variants by the size of their blocks. -/
def unrolledMakeBlock : Nat → Option OpCode
  | 1 => some .makeBlock1
  | 2 => some .makeBlock2
  | 3 => some .makeBlock3
  | _ => none

theorem buildsBlock_makeBlock (hop : inst.opNum = .makeBlock)
    (hsize : inst.countArg 0 = some (ws.length + 1)) (htag : inst.countArg 1 = some tag)
    (hstack : s.machine.stack = ws.map some ++ rest) : BuildsBlock rt inst s tag ws rest := by
  obtain ⟨m₁, new, hcollected, hmake⟩ := Machine.makeBlock_eq rt tag hstack
  have hcall : inst.runtimeCalls = some [.makeBlock tag (ws.length + 1)] := by
    simp only [ZInstruction.runtimeCalls, hop, hsize, htag, Option.bind_eq_bind, Option.bind_some]
    rfl
  exact ⟨_, m₁.heap, new, Exec.step_of_run hcall (congrArg RuntimeCall.plain hmake),
    hcollected.moves, hcollected.heap, rfl, rfl, rfl, hcollected.env, hcollected.extraArgs⟩

/-- The two operands trade places between the bytecode and the call. -/
theorem exec_unrolled {n : Nat} (hunrolled : unrolledMakeBlock n = some inst.opNum)
    (htag : inst.countArg 0 = some tag) (hop : inst'.opNum = .makeBlock)
    (hsize' : inst'.countArg 0 = some n) (htag' : inst'.countArg 1 = some tag) :
    s.exec rt inst = s.exec rt inst' := by
  have hcall' : inst'.runtimeCalls = some [.makeBlock tag n] := by
    simp only [ZInstruction.runtimeCalls, hop, hsize', htag', Option.bind_eq_bind, Option.bind_some]
    rfl
  have hsame : ∀ {c}, inst.runtimeCalls = some [c] →
      c.run rt s.machine = RuntimeCall.run rt s.machine (.makeBlock tag n) →
      s.exec rt inst = s.exec rt inst' := by
    intro c hcall hrun
    rw [Exec.exec_of_runtimeCalls hcall, Exec.exec_of_runtimeCalls hcall',
      RuntimeCall.runAll_singleton, RuntimeCall.runAll_singleton, hrun]
  unfold unrolledMakeBlock at hunrolled
  split at hunrolled
  · refine hsame (c := .makeBlock1 tag) ?_ (congrArg RuntimeCall.plain (Machine.makeBlock1_eq _))
    simp only [ZInstruction.runtimeCalls, ← Option.some.inj hunrolled, htag, Option.bind_eq_bind,
      Option.bind_some]
    rfl
  · refine hsame (c := .makeBlock2 tag) ?_ (congrArg RuntimeCall.plain (Machine.makeBlock2_eq _))
    simp only [ZInstruction.runtimeCalls, ← Option.some.inj hunrolled, htag, Option.bind_eq_bind,
      Option.bind_some]
    rfl
  · refine hsame (c := .makeBlock3 tag) ?_ (congrArg RuntimeCall.plain (Machine.makeBlock3_eq _))
    simp only [ZInstruction.runtimeCalls, ← Option.some.inj hunrolled, htag, Option.bind_eq_bind,
      Option.bind_some]
    rfl
  · cases hunrolled

/-- Operands that are no code offsets are read into the record as they stand. -/
theorem exists_decoded_plain {p : SymProgram} (hsize : 4 * p.encode.length < 2 ^ 32)
    {insts : List ZInstruction}
    (hread : readInstructions .littleEndian p.encode (4 * p.encode.length) = some insts)
    {i : Nat} {op : OpCode} {operands : List Int} {h}
    (hi : p.code[i]? = some (.ofPlain op operands h)) :
    ∃ inst, insts[i]? = some inst ∧ inst.opNum = op ∧ inst.args = pad 4 operands := by
  obtain rfl := Option.some.inj ((p.readInstructions_words hsize).symm.trans hread)
  obtain ⟨origIdx, hinst⟩ := getElem?_recordsFrom (fun t => (t : Nat)) 0 0 hi
  exact ⟨_, hinst, rfl, rfl⟩

theorem countArg_pad {operands : List Int} (hargs : inst.args = pad 4 operands) (j : Fin 4) (n : Nat)
    (hj : operands.getD j 0 = n) : inst.countArg j = some n := by
  have harg : inst.arg j = n := by
    rw [ZInstruction.arg, hargs, ← hj]
    exact pad_getElem operands j.isLt
  rw [ZInstruction.countArg, harg, if_pos (Int.natCast_nonneg n), Int.toNat_natCast]

/-- A decoded `MAKEBLOCK` takes the size and the tag of its operands, whatever the size, and
`MAKEBLOCK1` to `MAKEBLOCK3` do the same as `MAKEBLOCK` with their size. -/
theorem makeBlock_agrees {p : SymProgram} (hsize : 4 * p.encode.length < 2 ^ 32)
    {insts : List ZInstruction}
    (hread : readInstructions .littleEndian p.encode (4 * p.encode.length) = some insts) :
    (∀ i n tag : Nat, 1 ≤ n → p.code[i]? = some (.ofPlain .makeBlock [n, tag] (.refl true)) →
      ∃ inst, insts[i]? = some inst ∧ ∀ rt s ws rest, ws.length + 1 = n →
        s.machine.stack = ws.map some ++ rest → BuildsBlock rt inst s tag ws rest) ∧
    (∀ (i j n tag : Nat) op h, unrolledMakeBlock n = some op →
      p.code[i]? = some (.ofPlain op [tag] h) →
      p.code[j]? = some (.ofPlain .makeBlock [n, tag] (.refl true)) →
      ∃ inst inst', insts[i]? = some inst ∧ insts[j]? = some inst' ∧
        ∀ (rt : Runtime) (s : Exec), s.exec rt inst = s.exec rt inst') := by
  constructor
  · intro i n tag hpos hi
    obtain ⟨inst, hinst, hop, hargs⟩ := exists_decoded_plain hsize hread hi
    refine ⟨inst, hinst, fun rt s ws rest hlength hstack => ?_⟩
    exact buildsBlock_makeBlock hop (countArg_pad hargs 0 _ (by rw [hlength]; rfl))
      (countArg_pad hargs 1 tag rfl) hstack
  · intro i j n tag op h hunrolled hi hj
    obtain ⟨inst, hinst, hop, hargs⟩ := exists_decoded_plain hsize hread hi
    obtain ⟨inst', hinst', hop', hargs'⟩ := exists_decoded_plain hsize hread hj
    refine ⟨inst, inst', hinst, hinst', fun rt s => ?_⟩
    exact exec_unrolled (hop ▸ hunrolled) (countArg_pad hargs 0 tag rfl) hop'
      (countArg_pad hargs' 0 n rfl) (countArg_pad hargs' 1 tag rfl)

/-- `MAKEBLOCK` with the size 2 and `MAKEBLOCK2`, both with the tag 5. -/
def twoPairs : SymProgram where
  size := 2
  code := [.ofPlain .makeBlock [2, 5] (.refl true), .ofPlain .makeBlock2 [5] (.refl true)]
  length_code := rfl

theorem makeBlock_agrees_twoPairs :
    ∃ insts, readInstructions .littleEndian twoPairs.encode (4 * twoPairs.encode.length) =
        some insts ∧
      (∃ inst, insts[0]? = some inst ∧ BuildsBlock .idle inst
        (.start { Machine.start [] .unit 100 with stack := [some (.int 1)] }) 5 [.int 1] []) ∧
      ∃ inst inst', insts[1]? = some inst ∧ insts[0]? = some inst' ∧
        ∀ (rt : Runtime) (s : Exec), s.exec rt inst = s.exec rt inst' := by
  have hread := twoPairs.readInstructions_words (by decide)
  have hagrees := @makeBlock_agrees twoPairs (by decide) _ hread
  obtain ⟨inst, hinst, hbuilds⟩ := hagrees.1 0 2 5 (by decide) rfl
  refine ⟨_, hread, ⟨inst, hinst, hbuilds _ _ _ _ rfl rfl⟩, ?_⟩
  exact hagrees.2 1 0 2 5 .makeBlock2 (.refl true) rfl rfl rfl

end CamllVM
