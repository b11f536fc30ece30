import CamllVM.Proof.BlockCode
import CamllVM.Proof.ExactGraph

/-!
# Where jumps land

A conditional jump leads to the first LLVM block of its targets. `BRANCH`, `SWITCH` and the branch
at the end of a block lead to the one that has been added last so far, so that the landing point
depends on the part of the target that has been generated already.
-/

namespace CamllVM

variable {M : GenModule} {depth : Nat} {s : GenState} {L : OwnState} {fn : FnRef} {k : Int}
  {inst : ZInstruction} {F : GenFunction} {before after : List Int} {pre : List ZInstruction}

/-- The targets of a transfer to another `GenBlock` that is not an exception handler. -/
def LlvmInst.jumpTargets : LlvmInst → List BasicBlock
  | .br target => [target]
  | .condBr .accuIsTrue ifTrue ifFalse => [ifTrue, ifFalse]
  | .condBr (.compare _ _) ifTrue ifFalse => [ifTrue, ifFalse]
  | .switch default cases => default :: cases
  | _ => []

/-- Every jump enters its target at the beginning. -/
def JumpsEnterAtStart (c : List (BasicBlock × LlvmInst)) : Prop :=
  ∀ e ∈ c, ∀ target ∈ e.2.jumpTargets, target.index = 0

theorem jumpsEnterAtStart_append {c c' : List (BasicBlock × LlvmInst)} :
    JumpsEnterAtStart (c ++ c') ↔ JumpsEnterAtStart c ∧ JumpsEnterAtStart c' :=
  List.forall_mem_append

theorem jumpsEnterAtStart_placed {b : BasicBlock} {insts : List LlvmInst} :
    JumpsEnterAtStart (placed b insts) ↔
      ∀ inst ∈ insts, ∀ target ∈ inst.jumpTargets, target.index = 0 := List.forall_mem_map

/-- `target` has one LLVM block. -/
def OwnState.Whole (L : OwnState) (target : Int) : Prop := L.llvmBlocks target ≤ 1

theorem index_last (L : OwnState) (fn : FnRef) (target : Int) :
    (L.last fn target).index = 0 ↔ L.Whole target := by
  rw [OwnState.Whole]
  exact Nat.sub_eq_zero_iff_le

theorem jumpTargets_nestedClosures (inst : ZInstruction) (i n : Nat) :
    ∀ c ∈ nestedClosures inst i n, c.jumpTargets = [] := by
  induction n generalizing i with
  | zero => simp [nestedClosures]
  | succ n ih =>
      rw [nestedClosures]
      split
      · exact List.forall_mem_cons.mpr ⟨rfl, ih (i + 1)⟩
      · simp

theorem jumpTargets_condBrCode (L : OwnState) (fn : FnRef) (k : Int) (cond : BranchCond)
    (brIfTrue : Bool) :
    ∀ c ∈ condBrCode L fn k cond brIfTrue, ∀ target ∈ c.jumpTargets, target.index = 0 := by
  unfold condBrCode
  cases (L.graph.block k).brBlock <;> cases (L.graph.block k).noBrBlock <;> cases brIfTrue <;>
    cases cond <;> simp [LlvmInst.jumpTargets, BasicBlock.index]

theorem jumpsEnterAtStart_instCode : JumpsEnterAtStart (instCode L fn k inst) ↔
    (inst.opNum = .branch → ∀ br, (L.graph.block k).brBlock = some br → L.Whole br) ∧
      (inst.opNum = .switch → ∀ dest ∈ inst.switchEntries, L.Whole dest) := by
  unfold instCode
  cases hop : inst.opNum with
  | branch =>
      cases hbr : (L.graph.block k).brBlock <;>
        simp [JumpsEnterAtStart, LlvmInst.jumpTargets, index_last]
  | switch =>
      cases hentries : inst.switchEntries <;>
        simp [JumpsEnterAtStart, LlvmInst.jumpTargets, index_last]
  | closureRec =>
      simp only [reduceCtorEq, false_implies, and_true, iff_true]
      refine jumpsEnterAtStart_placed.mpr (List.forall_mem_cons.mpr ⟨by simp [LlvmInst.jumpTargets],
        fun c hc target htarget => ?_⟩)
      rw [jumpTargets_nestedClosures _ _ _ c hc] at htarget
      cases htarget
  | branchIf | branchIfNot | beq | bneq | bltInt | bleInt | bgtInt | bgeInt | bultInt | bugeInt =>
      simp only [jumpsEnterAtStart_placed, reduceCtorEq, false_implies, and_true, iff_true]
      exact jumpTargets_condBrCode _ _ _ _ _
  | _ => simp [JumpsEnterAtStart, LlvmInst.jumpTargets, prologue]

/-! ### What has been generated when a jump is -/

/-- No instruction of the list splits the block that it is in. -/
def NoSplit (insts : List ZInstruction) : Prop :=
  ∀ inst ∈ insts, inst.opNum ≠ .pushTrap ∧ inst.opNum ≠ .grab ∧ inst.opNum ≠ .return_

instance (insts : List ZInstruction) : Decidable (NoSplit insts) := by
  unfold NoSplit
  infer_instance

theorem addedBy_eq_zero (insts : List ZInstruction) :
    OwnState.addedBy insts = 0 ↔ NoSplit insts := by
  rw [OwnState.addedBy, List.sum_eq_zero_iff, List.forall_mem_map, NoSplit]
  refine forall₂_congr fun inst _ => ?_
  unfold OwnState.added
  cases inst.opNum <;> simp

namespace GenFunction

/-- When the instructions `pre` of block `k` have been generated, `target` has not been split. -/
def Unsplit (F : GenFunction) (k : Int) (pre : List ZInstruction) (target : Int) : Prop :=
  (target = k → NoSplit pre) ∧
    (target ∈ F.blocks → target < k → NoSplit (F.block target).instructions)

/-- `NextBlocks` of a block at the end of its generation. -/
def endSuccessors (F : GenFunction) (k : Int) : List Int :=
  (F.block k).nextBlocks ++ ((F.block k).instructions.filter (·.isSwitch)).filterMap
    (·.switchEntries.head?)

/-- The targets of `BRANCH`, of `SWITCH` and of falling through have not been split when block `k`
is generated. -/
structure EntersAtStart (F : GenFunction) (k : Int) : Prop where
  branch : ∀ pre inst post, (F.block k).instructions = pre ++ inst :: post →
    inst.opNum = .branch → ∀ br, (F.block k).brBlock = some br → F.Unsplit k pre br
  switch : ∀ pre inst post, (F.block k).instructions = pre ++ inst :: post →
    inst.opNum = .switch → ∀ dest ∈ inst.switchEntries, F.Unsplit k pre dest
  fallThrough : ∀ lastInst, (F.block k).instructions.getLast? = some lastInst →
    (lastInst.isJumpInst || lastInst.isReturn || lastInst.isSwitch) = false →
    ∀ next, (F.endSuccessors k).head? = some next → F.Unsplit k (F.block k).instructions next

end GenFunction

theorem whole_iff (hsorted : F.blocks.Pairwise (· < ·)) (hblocks : F.blocks = before ++ k :: after)
    (pre : List ZInstruction) (target : Int) :
    (((OwnState.start F).afterBlocks before).afterInsts k pre).Whole target ↔
      F.Unsplit k pre target := by
  have hnodup : F.blocks.Nodup := hsorted.imp ne_of_lt
  have hmem : target ∈ before ↔ target ∈ F.blocks ∧ target < k := by
    rw [hblocks] at hsorted ⊢
    obtain ⟨-, hcons, hlt⟩ := List.pairwise_append.mp hsorted
    constructor
    · intro hbefore
      exact ⟨List.mem_append_left _ hbefore, hlt target hbefore k List.mem_cons_self⟩
    · rintro ⟨hall, htarget⟩
      rcases List.mem_append.mp hall with hbefore | hall
      · exact hbefore
      · rcases List.mem_cons.mp hall with rfl | hafter
        · exact absurd htarget (lt_irrefl _)
        · exact absurd ((List.pairwise_cons.mp hcons).1 target hafter) (by omega)
  rw [hblocks] at hnodup
  have hbefore : before.Nodup := (List.nodup_append.mp hnodup).1
  rw [OwnState.Whole, OwnState.afterInsts_llvmBlocks, GenFunction.Unsplit]
  by_cases htarget : target = k
  · subst htarget
    have hnot : target ∉ before := fun h => absurd (hmem.mp h).2 (lt_irrefl _)
    rw [Function.update_self, OwnState.afterBlocks_llvmBlocks _ hbefore, if_neg hnot,
      ← addedBy_eq_zero]
    simp [OwnState.start]
  · rw [Function.update_of_ne htarget, OwnState.afterBlocks_llvmBlocks _ hbefore]
    by_cases hgenerated : target ∈ before
    · obtain ⟨hblock, hlt⟩ := hmem.mp hgenerated
      simp [OwnState.start, htarget, hgenerated, hblock, hlt, ← addedBy_eq_zero]
    · have hnot : target ∈ F.blocks → ¬target < k := fun hblock hlt =>
        hgenerated (hmem.mpr ⟨hblock, hlt⟩)
      simp only [OwnState.start, hgenerated, if_false, htarget, false_implies, true_and, Nat.add_zero,
        le_refl, true_iff]
      exact fun hblock hlt => absurd hlt (hnot hblock)

theorem after_nextBlocks (L : OwnState) (j : Int) (inst : ZInstruction) (k : Int) :
    ((L.after j inst).graph.block k).nextBlocks = (L.graph.block k).nextBlocks ++
      if k = j ∧ inst.isSwitch then inst.switchEntries.head?.toList else [] := by
  unfold OwnState.after
  cases hop : inst.opNum <;> simp [ZInstruction.isSwitch, hop]
  cases inst.switchEntries.head? with
  | none => simp
  | some next =>
      dsimp only [OwnState.setNext]
      rw [GenFunction.setNext_block]
      by_cases hk : k = j <;> simp [hk]

theorem afterInsts_nextBlocks (L : OwnState) (j : Int) (insts : List ZInstruction) (k : Int) :
    ((L.afterInsts j insts).graph.block k).nextBlocks = (L.graph.block k).nextBlocks ++
      if k = j then (insts.filter (·.isSwitch)).filterMap (·.switchEntries.head?) else [] := by
  induction insts generalizing L with
  | nil => simp [OwnState.afterInsts]
  | cons inst insts ih =>
      rw [OwnState.afterInsts, ih, after_nextBlocks]
      by_cases hk : k = j
      · cases hswitch : inst.isSwitch with
        | false => simp [hk, hswitch]
        | true => cases hhead : inst.switchEntries.head? <;> simp [hk, hswitch, hhead]
      · simp [hk]

theorem afterBlocks_nextBlocks (L : OwnState) {ks : List Int} (hk : k ∉ ks) :
    ((L.afterBlocks ks).graph.block k).nextBlocks = (L.graph.block k).nextBlocks := by
  induction ks generalizing L with
  | nil => rfl
  | cons j ks ih =>
      obtain ⟨hne, hk⟩ := not_or.mp (List.mem_cons.not.mp hk)
      rw [OwnState.afterBlocks, ih _ hk, OwnState.afterBlock, afterInsts_nextBlocks, if_neg hne,
        List.append_nil]

/-! ### The jumps of a function -/

theorem jumpsEnterAtStart_instsCode {insts : List ZInstruction} :
    JumpsEnterAtStart (instsCode L fn k insts) ↔ ∀ pre inst post, insts = pre ++ inst :: post →
      JumpsEnterAtStart (instCode (L.afterInsts k pre) fn k inst) := by
  constructor
  · intro h pre inst post hinsts e he
    exact h e (mem_instsCode.mpr ⟨pre, inst, post, hinsts, he⟩)
  · intro h e he
    obtain ⟨pre, inst, post, hinsts, hcode⟩ := mem_instsCode.mp he
    exact h pre inst post hinsts e hcode

theorem jumpsEnterAtStart_blocksCode {ks : List Int} :
    JumpsEnterAtStart (blocksCode L fn ks) ↔ ∀ before k after, ks = before ++ k :: after →
      JumpsEnterAtStart (blockCode (L.afterBlocks before) fn k) := by
  constructor
  · intro h before k after hks e he
    exact h e (mem_blocksCode.mpr ⟨before, k, after, hks, he⟩)
  · intro h e he
    obtain ⟨before, k, after, hks, hcode⟩ := mem_blocksCode.mp he
    exact h before k after hks e hcode

theorem jumpsEnterAtStart_termCode : JumpsEnterAtStart (termCode L fn k) ↔
    ∀ lastInst, (L.graph.block k).instructions.getLast? = some lastInst →
      (lastInst.isJumpInst || lastInst.isReturn || lastInst.isSwitch) = false →
      ∀ next, (L.graph.block k).nextBlocks.head? = some next → L.Whole next := by
  unfold termCode
  cases hlast : (L.graph.block k).instructions.getLast? with
  | none => simp [JumpsEnterAtStart]
  | some lastInst =>
      simp only [Option.some.injEq, forall_eq']
      cases hterm : lastInst.isJumpInst || lastInst.isReturn || lastInst.isSwitch with
      | true => simp [JumpsEnterAtStart]
      | false =>
          cases hnext : (L.graph.block k).nextBlocks.head? <;>
            simp [JumpsEnterAtStart, LlvmInst.jumpTargets, index_last]

theorem jumpsEnterAtStart_blockCode (hsorted : F.blocks.Pairwise (· < ·))
    (hblocks : F.blocks = before ++ k :: after) :
    JumpsEnterAtStart (blockCode ((OwnState.start F).afterBlocks before) fn k) ↔
      F.EntersAtStart k := by
  let L := (OwnState.start F).afterBlocks before
  have hgrown : GrownFrom F L.graph := (OwnState.start F).afterBlocks_grown before
  have hinit : JumpsEnterAtStart (initCode L fn k) := by
    unfold initCode
    split <;> simp [JumpsEnterAtStart, LlvmInst.jumpTargets]
  have hnot : k ∉ before := by
    have hnodup : F.blocks.Nodup := hsorted.imp ne_of_lt
    rw [hblocks] at hnodup
    exact fun hmem => (List.nodup_append.mp hnodup).2.2 k hmem k List.mem_cons_self rfl
  have hnext : ((L.afterBlock k).graph.block k).nextBlocks = F.endSuccessors k := by
    rw [OwnState.afterBlock, afterInsts_nextBlocks, if_pos rfl, hgrown.instructions,
      afterBlocks_nextBlocks _ hnot]
    rfl
  have hwhole := fun pre => whole_iff hsorted hblocks pre
  have hinst : ∀ pre inst, JumpsEnterAtStart (instCode (L.afterInsts k pre) fn k inst) ↔
      (inst.opNum = .branch → ∀ br, (F.block k).brBlock = some br → F.Unsplit k pre br) ∧
        (inst.opNum = .switch → ∀ dest ∈ inst.switchEntries, F.Unsplit k pre dest) := by
    intro pre inst
    rw [jumpsEnterAtStart_instCode, (L.afterInsts_grown k pre).brBlock, hgrown.brBlock]
    simp only [L, hwhole]
  have hterm : JumpsEnterAtStart (termCode (L.afterBlock k) fn k) ↔
      ∀ lastInst, (F.block k).instructions.getLast? = some lastInst →
        (lastInst.isJumpInst || lastInst.isReturn || lastInst.isSwitch) = false →
        ∀ next, (F.endSuccessors k).head? = some next →
          F.Unsplit k (F.block k).instructions next := by
    rw [jumpsEnterAtStart_termCode, hnext, (L.afterBlock_grown k).instructions,
      OwnState.afterBlock, hgrown.instructions]
    simp only [L, hwhole]
  rw [blockCode, jumpsEnterAtStart_append, jumpsEnterAtStart_append, jumpsEnterAtStart_instsCode,
    hterm, hgrown.instructions]
  constructor
  · rintro ⟨⟨-, hinsts⟩, hfall⟩
    exact ⟨fun pre inst post h => ((hinst pre inst).mp (hinsts pre inst post h)).1,
      fun pre inst post h => ((hinst pre inst).mp (hinsts pre inst post h)).2, hfall⟩
  · intro h
    exact ⟨⟨hinit, fun pre inst post hinsts => (hinst pre inst).mpr
      ⟨h.branch pre inst post hinsts, h.switch pre inst post hinsts⟩⟩, h.fallThrough⟩

/-- The jumps of the code of a function enter their targets at the beginning if and only if these
have not been split before the jump is generated. -/
theorem jumpsEnterAtStart_iff (hcode : codeGen M depth .main (.start M) = some s)
    (hfn : fn ∈ s.generated) (hsorted : (M.function fn).blocks.Pairwise (· < ·)) :
    JumpsEnterAtStart (s.owned fn) ↔
      ∀ k ∈ (M.function fn).blocks, (M.function fn).EntersAtStart k := by
  obtain ⟨howned, -, -, -⟩ := (codeGen_main hcode).1.complete fn hfn List.not_mem_nil
  have hrestart : JumpsEnterAtStart (restartCode (M.function fn) fn) := by
    unfold restartCode
    split <;> simp [JumpsEnterAtStart, LlvmInst.jumpTargets]
  rw [howned, functionCode, jumpsEnterAtStart_append, jumpsEnterAtStart_blocksCode]
  constructor
  · rintro ⟨-, hblocks⟩ k hk
    obtain ⟨before, after, hsplit⟩ := List.append_of_mem hk
    exact (jumpsEnterAtStart_blockCode hsorted hsplit).mp (hblocks before k after hsplit)
  · intro h
    refine ⟨hrestart, fun before k after hsplit => ?_⟩
    exact (jumpsEnterAtStart_blockCode hsorted hsplit).mpr
      (h k (hsplit ▸ List.mem_append_right _ List.mem_cons_self))

/-- A loop around a trap. -/
def loopAroundTrap : List ZInstruction :=
  [{ ZInstruction.ofArgs .pushTrap 3 0 with idx := 0, annotation := .blockStart },
    { ZInstruction.blank .popTrap with idx := 1 },
    { ZInstruction.ofArgs .branch 0 0 with idx := 2 },
    { ZInstruction.blank .stop with idx := 3, annotation := .blockStart }]

def loopAroundTrapModule : GenModule :=
  ⟨[], ((GenFunction.new 0 0).buildBlocks loopAroundTrap).getD (.new 0 0)⟩

def loopAroundTrapState : GenState :=
  (codeGen loopAroundTrapModule 1 .main (.start loopAroundTrapModule)).getD
    (.start loopAroundTrapModule)

theorem jumpsEnterAtStart_iff_loopAroundTrap :
    JumpsEnterAtStart (loopAroundTrapState.owned .main) ↔
      ∀ k ∈ (loopAroundTrapModule.function .main).blocks,
        (loopAroundTrapModule.function .main).EntersAtStart k :=
  @jumpsEnterAtStart_iff _ 1 _ _ rfl (by decide) (by decide)

/-- The jump back leads behind the call of `__sigsetjmp`. -/
theorem not_jumpsEnterAtStart_loopAroundTrap :
    generateFunction (.new 0 0) loopAroundTrap = some (loopAroundTrapModule.function .main) ∧
      codeGen loopAroundTrapModule 1 .main (.start loopAroundTrapModule) =
        some loopAroundTrapState ∧
      (.ofBlock .main 0 1, .br (.ofBlock .main 0 1)) ∈ loopAroundTrapState.owned .main ∧
      ¬JumpsEnterAtStart (loopAroundTrapState.owned .main) := by
  have hmem : (.ofBlock .main 0 1, .br (.ofBlock .main 0 1)) ∈ loopAroundTrapState.owned .main := by
    decide +kernel
  refine ⟨GenFunction.generateFunction_of_finished rfl (by decide), rfl, hmem, fun h => ?_⟩
  have hzero := h _ hmem _ (List.mem_singleton_self _)
  cases hzero

end CamllVM
