import CamllVM.Proof.BlockCode
import CamllVM.Proof.ExactGraph

/-!
# Where control goes from the end of a block

The branch at the end of a block leads to the first block of `NextBlocks`. The edges of the
instructions come before the edge to the following block.
-/

namespace CamllVM

variable {M : GenModule} {depth : Nat} {s : GenState} {fn : FnRef} {k : Int}
  {id arity : Int} {insts : List ZInstruction} {f : GenFunction}

namespace GenState

/-- The code of a block ends with a branch to an LLVM block of `next`. -/
def FallsTo (s : GenState) (fn : FnRef) (k next : Int) : Prop :=
  ∃ b i, (ownCode fn k s.log).getLast? = some (b, .br (.ofBlock fn next i))

end GenState

theorem ownCode_generated {before after : List Int}
    (hcode : codeGen M depth .main (.start M) = some s) (hfn : fn ∈ s.generated)
    (hnodup : (M.function fn).blocks.Nodup) (hblocks : (M.function fn).blocks = before ++ k :: after) :
    ownCode fn k s.log =
      ownCode fn k (blockCode ((OwnState.start (M.function fn)).afterBlocks before) fn k) := by
  obtain ⟨howned, -, -, -⟩ := (codeGen_main hcode).1.complete fn hfn List.not_mem_nil
  rw [s.ownCode_log, howned, ownCode_functionCode hnodup hblocks]

theorem head?_of_prefix {α : Type} {l l' : List α} (h : l <+: l') (hne : l ≠ []) :
    l'.head? = l.head? := by
  obtain ⟨l'', rfl⟩ := h
  exact List.head?_append_of_ne_nil l hne

/-- Control goes on in the first block of `NextBlocks`. -/
theorem fallsTo_iff {lastInst : ZInstruction} {next : Int}
    (hcode : codeGen M depth .main (.start M) = some s) (hfn : fn ∈ s.generated)
    (hnodup : (M.function fn).blocks.Nodup) (hk : k ∈ (M.function fn).blocks)
    (hlast : ((M.function fn).block k).instructions.getLast? = some lastInst)
    (hterm : (lastInst.isJumpInst || lastInst.isReturn || lastInst.isSwitch) = false)
    (hne : ((M.function fn).block k).nextBlocks ≠ []) :
    s.FallsTo fn k next ↔ ((M.function fn).block k).nextBlocks.head? = some next := by
  obtain ⟨before, after, hblocks⟩ := List.append_of_mem hk
  let L := (OwnState.start (M.function fn)).afterBlocks before
  have hgrown : GrownFrom (M.function fn) (L.afterBlock k).graph :=
    (OwnState.afterBlocks_grown _ before).trans (L.afterBlock_grown k)
  have hhead : ((L.afterBlock k).graph.block k).nextBlocks.head? =
      ((M.function fn).block k).nextBlocks.head? := head?_of_prefix (hgrown.nextBlocks k) hne
  have hlast' : ((L.afterBlock k).graph.block k).instructions.getLast? = some lastInst := by
    rw [hgrown.instructions, hlast]
  rw [GenState.FallsTo, ownCode_generated hcode hfn hnodup hblocks, ownCode_blockCode, termCode,
    hlast', hhead]
  obtain ⟨n, ns, hnext⟩ := List.exists_cons_of_ne_nil hne
  simp only [hterm, hnext, List.head?_cons, Option.toList_some, List.map_cons, List.map_nil,
    placed_cons, placed_nil, Bool.false_eq_true, if_false, List.getLast?_concat, Option.some.injEq,
    Prod.mk.injEq, LlvmInst.br.injEq]
  constructor
  · rintro ⟨b, i, -, hbr⟩
    exact (BasicBlock.ofBlock.injEq .. ▸ hbr).2.1
  · rintro rfl
    exact ⟨_, _, rfl, rfl⟩

/-! ### The following instruction -/

namespace GenFunction

theorem markFirst_idx (insts : List ZInstruction) :
    (markFirst insts).map ZInstruction.idx = insts.map ZInstruction.idx := by
  cases insts <;> rfl

theorem following_segment {before after : List Segment} {seg : Segment} {pre post : List ZInstruction}
    {inst nextInst : ZInstruction} (hordered : insts.Pairwise (·.idx < ·.idx))
    (hsegments : segmentsOf insts = before ++ seg :: after)
    (hinsts : insts = pre ++ inst :: nextInst :: post) (hinst : inst.idx = seg.lastInst.idx) :
    ∃ t rest, after = t :: rest ∧ t.id = nextInst.idx := by
  have hflat := congrArg (List.map ZInstruction.idx) (segmentsOf_flatMap insts)
  rw [markFirst_idx, hsegments, List.flatMap_append, List.flatMap_cons, seg.insts_eq] at hflat
  have hnodup : (insts.map ZInstruction.idx).Nodup :=
    (List.pairwise_map.mpr hordered).imp ne_of_lt
  have hsplit : insts.map ZInstruction.idx = pre.map ZInstruction.idx ++ seg.lastInst.idx ::
      (nextInst.idx :: post.map ZInstruction.idx) := by rw [hinsts, ← hinst]; simp
  rw [hsplit] at hnodup
  obtain ⟨-, hcons, hdisjoint⟩ := List.nodup_append.mp hnodup
  have hpre : seg.lastInst.idx ∉ pre.map ZInstruction.idx := fun hmem =>
    hdisjoint _ hmem _ List.mem_cons_self rfl
  have hpost := (List.nodup_cons.mp hcons).1
  rw [hsplit, List.append_assoc, List.singleton_append, ← List.append_assoc, List.map_append,
    List.map_cons] at hflat
  have htail := ((List.append_cons_inj_of_notMem hpre hpost).mp hflat.symm).2.2
  cases after with
  | nil => cases htail
  | cons t rest => exact ⟨t, rest, rfl, (List.cons.inj htail).1.symm⟩

/-- A block that is kept has the instructions and the successors of its segment. -/
theorem kept_segment {F : GenFunction} {first : Int} (hbuilt : Built F (segmentsOf insts))
    (hrounds : Rounds F first f) (hk : k ∈ f.blocks) :
    ∃ before seg after, segmentsOf insts = before ++ seg :: after ∧ seg.id = k ∧
      (f.block k).instructions = seg.insts ∧
      (f.block k).nextBlocks = seg.insts.flatMap ZInstruction.dests ++
        if seg.lastInst.fallsThrough then after.head?.toList.map Segment.id else [] := by
  obtain ⟨ks, ks', hblocks⟩ := List.append_of_mem (hrounds.sublist.subset hk)
  obtain ⟨before, seg, after, hsegments, rfl, -⟩ := hbuilt.split hblocks
  rw [hsegments] at hbuilt
  have hkept := hrounds.kept _ hk
  exact ⟨before, seg, after, hsegments, rfl,
    (congrArg GenBlock.instructions hkept).trans hbuilt.instructions,
    (congrArg GenBlock.nextBlocks hkept).trans hbuilt.nextBlocks⟩

theorem fallsThrough_of_not_term {inst : ZInstruction}
    (hterm : (inst.isJumpInst || inst.isReturn || inst.isSwitch) = false) :
    inst.fallsThrough = true := by
  simp only [Bool.or_eq_false_iff] at hterm
  obtain ⟨⟨hjump, hreturn⟩, hswitch⟩ := hterm
  have hbranch : inst.isUncondJump = false := by
    cases hop : inst.opNum <;> simp [ZInstruction.isJumpInst, ZInstruction.isUncondJump, hop] at hjump ⊢
  simp [ZInstruction.fallsThrough, hbranch, hreturn, hswitch]

end GenFunction

open GenFunction

/-- The terminator of a block from whose end control goes on leads to the block of the following
instruction if and only if no instruction of the block names another block first. -/
theorem fallsTo_following_iff {pre post : List ZInstruction} {inst nextInst lastInst : ZInstruction}
    (hcode : codeGen M depth .main (.start M) = some s) (hfn : fn ∈ s.generated)
    (hordered : insts.Pairwise (·.idx < ·.idx))
    (hfunction : generateFunction (.new id arity) insts = some (M.function fn))
    (hk : k ∈ (M.function fn).blocks)
    (hlast : ((M.function fn).block k).instructions.getLast? = some lastInst)
    (hterm : (lastInst.isJumpInst || lastInst.isReturn || lastInst.isSwitch) = false)
    (hinsts : insts = pre ++ inst :: nextInst :: post) (hinst : inst.idx = lastInst.idx) :
    (∃ next ∈ (M.function fn).blocks,
      ((M.function fn).block next).instructions.head?.map ZInstruction.idx = some nextInst.idx ∧
        s.FallsTo fn k next) ↔
      ∀ dest, (((M.function fn).block k).instructions.flatMap ZInstruction.dests).head? = some dest →
        dest = nextInst.idx := by
  obtain ⟨F, first, hbuilt, hrounds⟩ := generateFunction_built hordered hfunction
  have hnodup : (M.function fn).blocks.Nodup := hrounds.consistent.nodup
  have hfirst : ∀ next ∈ (M.function fn).blocks,
      ((M.function fn).block next).instructions.head?.map ZInstruction.idx = some next := by
    intro next hnext
    obtain ⟨-, seg, -, -, rfl, hseg, -⟩ := kept_segment hbuilt hrounds hnext
    rw [hseg]
    rfl
  obtain ⟨before, seg, after, hsegments, rfl, hseg, hnexts⟩ := kept_segment hbuilt hrounds hk
  obtain rfl : seg.lastInst = lastInst := by
    rw [hseg, seg.getLast?_insts] at hlast
    exact Option.some.inj hlast
  obtain ⟨t, rest, rfl, ht⟩ := following_segment hordered hsegments hinsts hinst
  rw [fallsThrough_of_not_term hterm, if_pos rfl, List.head?_cons, Option.toList_some,
    List.map_singleton, ht] at hnexts
  have hne : ((M.function fn).block seg.id).nextBlocks ≠ [] := by
    rw [hnexts]
    exact List.append_ne_nil_of_right_ne_nil _ (List.cons_ne_nil _ _)
  have hgoes : ∀ next, s.FallsTo fn seg.id next ↔
      ((M.function fn).block seg.id).nextBlocks.head? = some next :=
    fun next => fallsTo_iff hcode hfn hnodup hk hlast hterm hne
  have hmem : nextInst.idx ∈ (M.function fn).blocks := by
    refine hrounds.consistent.next_mem seg.id hk _ ?_
    rw [hnexts]
    exact List.mem_append_right _ (List.mem_singleton_self _)
  rw [← hseg] at hnexts
  constructor
  · rintro ⟨next, hnext, hidx, hfalls⟩ dest hdest
    obtain rfl : next = nextInst.idx := by
      rw [hfirst next hnext] at hidx
      exact Option.some.inj hidx
    have hhead := (hgoes _).mp hfalls
    rw [hnexts, List.head?_append, hdest] at hhead
    exact Option.some.inj hhead
  · intro hdests
    refine ⟨nextInst.idx, hmem, hfirst _ hmem, (hgoes _).mpr ?_⟩
    rw [hnexts, List.head?_append]
    cases hdest : (((M.function fn).block seg.id).instructions.flatMap ZInstruction.dests).head? with
    | none => rfl
    | some dest => rw [hdests dest hdest]; rfl

/-- A trap, a loop behind it and the handler. -/
def trapIntoLoop : List ZInstruction :=
  [{ ZInstruction.ofArgs .pushTrap 2 0 with idx := 0 },
    { ZInstruction.ofArgs .branchIf 1 0 with idx := 1, annotation := .blockStart },
    { ZInstruction.blank .stop with idx := 2, annotation := .blockStart }]

def trapIntoLoopModule : GenModule :=
  ⟨[], ((GenFunction.new 0 0).buildBlocks trapIntoLoop).getD (.new 0 0)⟩

def trapIntoLoopState : GenState :=
  (codeGen trapIntoLoopModule 1 .main (.start trapIntoLoopModule)).getD (.start trapIntoLoopModule)

theorem generateFunction_trapIntoLoop : generateFunction (.new 0 0) trapIntoLoop =
    some (trapIntoLoopModule.function .main) := generateFunction_of_finished rfl (by decide)

theorem codeGen_trapIntoLoop : codeGen trapIntoLoopModule 1 .main (.start trapIntoLoopModule) =
    some trapIntoLoopState := rfl

theorem fallsTo_following_iff_trapIntoLoop :
    (∃ next ∈ (trapIntoLoopModule.function .main).blocks,
      ((trapIntoLoopModule.function .main).block next).instructions.head?.map ZInstruction.idx =
        some 1 ∧ trapIntoLoopState.FallsTo .main 0 next) ↔
      ∀ dest, (((trapIntoLoopModule.function .main).block 0).instructions.flatMap
        ZInstruction.dests).head? = some dest → dest = 1 :=
  have hlast : ((trapIntoLoopModule.function .main).block 0).instructions.getLast? =
      some { ZInstruction.ofArgs .pushTrap 2 0 with idx := 0, annotation := .blockStart } := by decide
  have hinsts : trapIntoLoop = [] ++ { ZInstruction.ofArgs .pushTrap 2 0 with idx := 0 } ::
      { ZInstruction.ofArgs .branchIf 1 0 with idx := 1, annotation := .blockStart } ::
      [{ ZInstruction.blank .stop with idx := 2, annotation := .blockStart }] := rfl
  fallsTo_following_iff codeGen_trapIntoLoop (by decide) (by decide) generateFunction_trapIntoLoop
    (by decide) hlast (by decide) hinsts rfl

/-- The block of the trap goes on in the handler. -/
theorem not_fallsTo_following_trapIntoLoop :
    codeGen trapIntoLoopModule 1 .main (.start trapIntoLoopModule) = some trapIntoLoopState ∧
      generateFunction (.new 0 0) trapIntoLoop = some (trapIntoLoopModule.function .main) ∧
      0 ∈ (trapIntoLoopModule.function .main).blocks ∧
      (((trapIntoLoopModule.function .main).block 0).instructions.getLast?.map fun inst =>
        inst.isJumpInst || inst.isReturn || inst.isSwitch) = some false ∧
      ¬∃ next ∈ (trapIntoLoopModule.function .main).blocks,
        ((trapIntoLoopModule.function .main).block next).instructions.head?.map ZInstruction.idx =
          some 1 ∧ trapIntoLoopState.FallsTo .main 0 next := by
  have hcode : (ownCode .main 0 trapIntoLoopState.log).getLast? =
      some (.ofBlock .main 0 1, .br (.ofBlock .main 2 0)) := by decide +kernel
  refine ⟨codeGen_trapIntoLoop, generateFunction_trapIntoLoop, by decide, by decide, ?_⟩
  rintro ⟨next, hnext, hidx, b, i, hfalls⟩
  rw [hcode] at hfalls
  cases hfalls
  revert hidx
  decide

end CamllVM
