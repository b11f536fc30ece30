import CamllVM.Proof.Origins
import CamllVM.Proof.Prologues

/-!
# Dispatch of `SWITCH`

The operand of `SWITCH` packs the two sizes of its table. The decoder takes the length of the table
from it, and `getSwitchOffset` the number of entries for immediates, behind which those for blocks
begin. The LLVM `switch` has one case for every entry, in the order of the table.
-/

namespace CamllVM

variable {p : SymProgram} {insts prog : List ZInstruction} {firstInst lastInst : Int}
  {M : GenModule} {depth : Nat} {s : GenState} {fn : FnRef} {k : Int} {inst : ZInstruction}

/-- The block in which an LLVM `switch` goes on, whose cases are the numbers from 0 on. -/
def switchTarget (default : BasicBlock) (cases : List BasicBlock) (v : Int) : BasicBlock :=
  if 0 ≤ v then cases.getD v.toNat default else default

/-! ### The emitted `switch` -/

theorem functionCode_at {F : GenFunction} {before after : List Int} {pre post : List ZInstruction}
    (hblocks : F.blocks = before ++ k :: after)
    (hinsts : (F.block k).instructions = pre ++ inst :: post) :
    ∃ c c', functionCode F fn =
      c ++ instCode (((OwnState.start F).afterBlocks before).afterInsts k pre) fn k inst ++ c' := by
  let L := (OwnState.start F).afterBlocks before
  have hblock : (L.graph.block k).instructions = pre ++ inst :: post :=
    (((OwnState.start F).afterBlocks_grown before).instructions k).trans hinsts
  refine ⟨restartCode F fn ++ (blocksCode (.start F) fn before ++
      (initCode L fn k ++ instsCode L fn k pre)),
    instsCode ((L.afterInsts k pre).after k inst) fn k post ++
      (termCode (L.afterBlock k) fn k ++ blocksCode (L.afterBlock k) fn after), ?_⟩
  rw [functionCode, hblocks, blocksCode_append, blocksCode, blockCode, hblock, instsCode_append,
    instsCode]
  simp only [List.append_assoc]
  rfl

/-- The offset and the `switch` stand together in an LLVM block of the block. -/
theorem code_switch (hcode : codeGen M depth .main (.start M) = some s) (hfn : fn ∈ s.generated)
    (hk : k ∈ (M.function fn).blocks) (hinst : inst ∈ ((M.function fn).block k).instructions)
    (hop : inst.opNum = .switch) {next : Int} {nexts : List Int}
    (hentries : inst.switchEntries = next :: nexts) :
    ∃ (b : BasicBlock) (L : OwnState) (c c' : List LlvmInst), b.IsOf fn k ∧
      s.code b = c ++ [.libCall (.getSwitchOffset (inst.arg 0)),
        .switch (L.last fn next) (inst.switchEntries.map (L.last fn))] ++ c' := by
  obtain ⟨howned, -, -, -⟩ := (codeGen_main hcode).1.complete fn hfn List.not_mem_nil
  obtain ⟨before, after, hblocks⟩ := List.append_of_mem hk
  obtain ⟨pre, post, hinsts⟩ := List.append_of_mem hinst
  obtain ⟨c, c', hcodeAt⟩ : ∃ c c', functionCode (M.function fn) fn = _ :=
    functionCode_at hblocks hinsts
  let L := ((OwnState.start (M.function fn)).afterBlocks before).afterInsts k pre
  have hswitch : instCode L fn k inst = placed (L.last fn k)
      [.libCall (.getSwitchOffset (inst.arg 0)),
        .switch (L.last fn next) (inst.switchEntries.map (L.last fn))] := by
    rw [instCode, hop, hentries]
    rfl
  refine ⟨L.last fn k, L, codeAt c (L.last fn k), codeAt c' (L.last fn k), isOf_last L fn k, ?_⟩
  calc s.code (L.last fn k) = codeAt (functionCode (M.function fn) fn) (L.last fn k) := by
        rw [s.code_eq, owner_of_isOf (isOf_last L fn k), howned]
    _ = _ := by rw [hcodeAt, codeAt_append, codeAt_append, hswitch, codeAt_placed, if_pos rfl]

theorem switchTarget_isOf {L : OwnState} {default : BasicBlock} {entries : List Int} {n : Nat}
    {t : Int} (h : entries[n]? = some t) :
    (switchTarget default (entries.map (L.last fn)) n).IsOf fn t := by
  have hcase : (entries.map (L.last fn))[n]? = some (L.last fn t) := by
    rw [List.getElem?_map, h, Option.map_some]
  rw [switchTarget, if_pos (Int.natCast_nonneg n), Int.toNat_natCast, List.getD_eq_getElem?_getD,
    hcase, Option.getD_some]
  exact isOf_last L fn t

/-! ### The dispatched value -/

section Offset

variable {n : Nat} {consts blocks : List (Fin n)} {m : Machine}

theorem sizes_emod (hconsts : consts.length < 2 ^ 16) :
    SymInstruction.sizes consts blocks % 2 ^ 16 = consts.length := by
  rw [SymInstruction.sizes]
  omega

theorem getSwitchOffset_int {j : Nat} (hj : j < 2 ^ 16) (haccu : m.accu = .int j)
    (switchArg : Int) : m.getSwitchOffset switchArg = some (j : Int) := by
  rw [Machine.getSwitchOffset, haccu, if_pos (show (Value.int j).lowBit = true from rfl), Value.longVal, Option.bind_eq_bind,
    Option.bind_some, toInt32_of_small (by omega) (by omega)]
  rfl

theorem getSwitchOffset_block {tag : Nat} (hconsts : consts.length < 2 ^ 16) (htag : tag < 2 ^ 15)
    (haccu : m.heap.tagVal m.accu = some tag) (hblock : m.accu.lowBit = false) :
    m.getSwitchOffset (SymInstruction.sizes consts blocks) =
      some ((consts.length + tag : Nat) : Int) := by
  rw [Machine.getSwitchOffset, hblock, if_neg Bool.false_ne_true, haccu, Option.bind_eq_bind,
    Option.bind_some, sizes_emod hconsts, toInt32_of_small (by omega) (by omega)]
  rfl

theorem lowBit_of_tagVal {heap : Heap} {v : Value} {tag : Nat} (h : heap.tagVal v = some tag) :
    v.lowBit = false := by
  cases v with
  | ptr | atom | code | slot | header => rfl
  | int | raw => cases h

end Offset

/-! ### The whole way -/

/-- The record of a `SWITCH`, in a block of a generated function. -/
theorem switch_of_mem_block (hannotate : annotateNodes p.decoded = some prog)
    (hgenerate : generate prog firstInst lastInst = some M)
    (hcode : codeGen M depth .main (.start M) = some s) (hfn : fn ∈ s.generated)
    (hk : k ∈ (M.function fn).blocks) (hinst : inst ∈ ((M.function fn).block k).instructions)
    {i : Nat} (hidx : inst.idx = i) {consts blocks : List (Fin p.size)}
    {hconsts : consts.length < 2 ^ 16} {hblocks : blocks.length < 2 ^ 15}
    (hswitch : p.code[i]? = some (.switch consts blocks hconsts hblocks)) :
    inst.opNum = .switch ∧ inst.arg 0 = SymInstruction.sizes consts blocks ∧
      inst.switchEntries = (consts ++ blocks).map fun t : Fin p.size => ((t : Nat) : Int) := by
  obtain ⟨origIdx, hrecord⟩ :=
    record_of_mem_block hannotate hgenerate hcode hfn hk hinst hidx hswitch
  refine ⟨congrArg ZInstruction.opNum hrecord, ?_, congrArg ZInstruction.switchEntries hrecord⟩
  have hargs : inst.args = pad 4 [SymInstruction.sizes consts blocks] :=
    congrArg ZInstruction.args hrecord
  rw [ZInstruction.arg, hargs]
  exact pad_getElem _ (by decide)

theorem mem_nextBlocks_of_switch (hannotate : annotateNodes p.decoded = some prog)
    (hgenerate : generate prog firstInst lastInst = some M)
    (hcode : codeGen M depth .main (.start M) = some s) (hfn : fn ∈ s.generated)
    (hk : k ∈ (M.function fn).blocks) (hinst : inst ∈ ((M.function fn).block k).instructions)
    (hop : inst.opNum = .switch) {t : Int} (ht : t ∈ inst.switchEntries) :
    t ∈ ((M.function fn).block k).nextBlocks := by
  obtain ⟨insts, F, first, -, hbuilt, hrounds⟩ := exists_built hannotate hgenerate hcode hfn
  obtain ⟨before, seg, after, -, -, hseg, hnexts⟩ := GenFunction.kept_segment hbuilt hrounds hk
  have hdests : inst.dests = inst.switchEntries := by
    simp [ZInstruction.dests, ZInstruction.isJumpInst, ZInstruction.isPushTrap,
      ZInstruction.isSwitch, hop]
  rw [hnexts, ← hseg]
  exact List.mem_append_left _ (List.mem_flatMap_of_mem hinst (hdests ▸ ht))

/-- The dispatched value selects a case, and the case leads to block `t`. -/
def DispatchesTo (m : Machine) (switchArg : Int) (default : BasicBlock) (cases : List BasicBlock)
    (fn : FnRef) (t : Int) : Prop :=
  ∃ v, m.getSwitchOffset switchArg = some v ∧ (switchTarget default cases v).IsOf fn t

/-- The code of block `k` dispatches over the entries of a table: an immediate goes to its entry and
a block to the one of its tag behind them, and the block has all of them as successors. -/
def DispatchesTable (M : GenModule) (s : GenState) (fn : FnRef) (k : Int) {n : Nat}
    (consts blocks : List (Fin n)) : Prop :=
  ∃ b default cases c c', b.IsOf fn k ∧
    s.code b = c ++ [.libCall (.getSwitchOffset (SymInstruction.sizes consts blocks)),
      .switch default cases] ++ c' ∧
    (∀ (m : Machine) (j : Nat) (t : Fin n), consts[j]? = some t → m.accu = .int j →
      DispatchesTo m (SymInstruction.sizes consts blocks) default cases fn (t : Nat)) ∧
    (∀ (m : Machine) (tag : Nat) (t : Fin n), blocks[tag]? = some t →
      m.heap.tagVal m.accu = some tag →
      DispatchesTo m (SymInstruction.sizes consts blocks) default cases fn (t : Nat)) ∧
    ∀ t ∈ consts ++ blocks, ((t : Nat) : Int) ∈ ((M.function fn).block k).nextBlocks

/-- A `SWITCH` of the program dispatches as its table says in the code that is generated for it. -/
theorem switch_dispatch (hsize : 4 * p.encode.length < 2 ^ 32)
    (hread : readInstructions .littleEndian p.encode (4 * p.encode.length) = some insts)
    (hannotate : annotateNodes insts = some prog)
    (hgenerate : generate prog firstInst lastInst = some M)
    (hcode : codeGen M depth .main (.start M) = some s) (hfn : fn ∈ s.generated)
    (hk : k ∈ (M.function fn).blocks) (hinst : inst ∈ ((M.function fn).block k).instructions)
    {i : Nat} (hidx : inst.idx = i) {consts blocks : List (Fin p.size)}
    {hconsts : consts.length < 2 ^ 16} {hblocks : blocks.length < 2 ^ 15}
    (hswitch : p.code[i]? = some (.switch consts blocks hconsts hblocks))
    (hentries : consts ++ blocks ≠ []) : DispatchesTable M s fn k consts blocks := by
  rw [p.readInstructions_words hsize] at hread
  cases hread
  obtain ⟨hop, harg, htable⟩ := switch_of_mem_block hannotate hgenerate hcode hfn hk hinst hidx hswitch
  obtain ⟨first, rest, hcons⟩ := List.exists_cons_of_ne_nil hentries
  have hhead : inst.switchEntries = ((first : Nat) : Int) :: rest.map fun t : Fin p.size => ((t : Nat) : Int) := by
    rw [htable, hcons, List.map_cons]
  obtain ⟨b, L, c, c', hof, hemitted⟩ := code_switch hcode hfn hk hinst hop hhead
  have hentry : ∀ (n : Nat) (t : Fin p.size), (consts ++ blocks)[n]? = some t →
      inst.switchEntries[n]? = some ((t : Nat) : Int) := by
    intro n t hn
    rw [htable, List.getElem?_map, hn, Option.map_some]
  rw [harg] at hemitted
  refine ⟨b, _, _, c, c', hof, hemitted, fun m n t hn haccu => ?_, fun m tag t htag haccu => ?_,
    fun t ht => ?_⟩
  · obtain ⟨hlt, -⟩ := List.getElem?_eq_some_iff.mp hn
    refine ⟨n, getSwitchOffset_int (hlt.trans hconsts) haccu _, switchTarget_isOf (hentry n t ?_)⟩
    rw [List.getElem?_append_left hlt, hn]
  · obtain ⟨hlt, -⟩ := List.getElem?_eq_some_iff.mp htag
    refine ⟨_, getSwitchOffset_block hconsts (hlt.trans hblocks) haccu (lowBit_of_tagVal haccu),
      switchTarget_isOf (hentry (consts.length + tag) t ?_)⟩
    rw [List.getElem?_append_right (Nat.le_add_right _ _), Nat.add_sub_cancel_left, htag]
  · refine mem_nextBlocks_of_switch hannotate hgenerate hcode hfn hk hinst hop ?_
    rw [htable]
    exact List.mem_map_of_mem ht

/-- A table with a repeated entry, whose first entry is the last block. -/
def switchProgram : SymProgram where
  size := 4
  code :=
    [.ofPlain .const0 [] (.refl true),
     .switch [3, 2, 3] [2] (by decide) (by decide),
     .ofPlain .stop [] (.refl true),
     .ofPlain .stop [] (.refl true)]
  length_code := rfl

def switchProg : List ZInstruction := (annotateNodes switchProgram.decoded).getD []

def switchModule : GenModule :=
  ⟨[], ((GenFunction.new mainFunctionId 0).buildBlocks switchProg).getD (.new mainFunctionId 0)⟩

def switchState : GenState :=
  (codeGen switchModule 1 .main (.start switchModule)).getD (.start switchModule)

theorem generate_switchProg : generate switchProg 0 0 = some switchModule := by
  have hsplit : splitInstructions switchProg = some ⟨[], switchProg⟩ :=
    splitInstructions_main (by decide)
  have hmain : generateFunction (.new mainFunctionId 0) (removeDeadInstructions switchProg) =
      some switchModule.mainFunction := GenFunction.generateFunction_of_finished rfl (by decide)
  have hpruned : switchModule.mainFunction.removeUnusedBlocks = switchModule.mainFunction :=
    GenFunction.removeUnusedBlocks_of_finished (by decide)
  simp only [generate, queueInstructions_all, hsplit, hmain, Option.bind_eq_bind, Option.bind_some,
    List.mapM_nil, Option.pure_def, List.foldl_nil, hpruned]
  rfl

theorem switch_dispatch_switchProgram :
    @DispatchesTable switchModule switchState .main 0 4 [3, 2, 3] [2] :=
  @switch_dispatch switchProgram _ switchProg 0 0 switchModule 1 switchState .main 0
    (switchProg.getD 1 (.blank .switch)) (by decide)
    (switchProgram.readInstructions_words (by decide)) rfl generate_switchProg rfl (by decide)
    (by decide) (by decide) 1 rfl _ _ _ _ rfl (by decide)

end CamllVM
