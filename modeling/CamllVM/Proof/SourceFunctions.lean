import CamllVM.Lib.Ensures
import CamllVM.Proof.ControlFlow
import CamllVM.Proof.Origins

/-!
# The graph of a function follows the program

A function is made of a list of instructions of the program. If control that goes on behind an
instruction of the list goes on with the next one of the program, and a block starts behind every
jump, then the blocks and edges of its graph are where control goes.
-/

namespace CamllVM

open GenFunction Ensures

variable {prog insts : List ZInstruction} {F : GenFunction} {id arity firstInst lastInst : Int}
  {M : GenModule} {fn : FnRef} {k : Int} {inst inst' : ZInstruction} {pre post : List ZInstruction}

/-- Control runs through the instructions without a gap and not over their end, and a block starts
behind a jump. -/
structure Straight (insts : List ZInstruction) : Prop where
  next : ∀ pre inst inst' post, insts = pre ++ inst :: inst' :: post → inst.fallsThrough = true →
    inst'.idx = inst.idx + 1
  last : ∀ inst, insts.getLast? = some inst → inst.fallsThrough = false
  starts : ∀ pre inst inst' post, insts = pre ++ inst :: inst' :: post →
    (inst.isJumpInst || inst.isSwitch) = true → inst'.IsLeader

/-- The first destination that a block names is the one behind its end, if control goes on there. -/
def GenFunction.FallsRight (F : GenFunction) : Prop :=
  ∀ k ∈ F.blocks, ∀ inst, (F.block k).instructions.getLast? = some inst → inst.endsBlock = false →
    ∀ d, ((F.block k).instructions.flatMap ZInstruction.dests).head? = some d → d = inst.idx + 1

/-! ### Segments -/

theorem markFirst_cons {first : ZInstruction} : markFirst (first :: insts) =
    { first with annotation := .blockStart } :: insts := rfl

theorem Straight.marked (h : Straight insts) : Straight (markFirst insts) := by
  cases insts with
  | nil => exact h
  | cons first rest =>
      refine ⟨fun pre inst inst' post heq hfall => ?_, fun inst hlast => ?_,
        fun pre inst inst' post heq hjump => ?_⟩
      · cases pre with
        | nil =>
            cases heq
            exact h.next [] first inst' post rfl hfall
        | cons a pre =>
            cases heq
            exact h.next (first :: pre) inst inst' post rfl hfall
      · cases rest with
        | nil =>
            cases hlast
            exact h.last first rfl
        | cons b rest =>
            rw [markFirst_cons, List.getLast?_cons_cons] at hlast
            exact h.last inst (by rw [List.getLast?_cons_cons, hlast])
      · cases pre with
        | nil =>
            cases heq
            exact h.starts [] first inst' post rfl hjump
        | cons a pre =>
            cases heq
            exact h.starts (first :: pre) inst inst' post rfl hjump

section

variable {before after : List Segment} {seg : Segment}

theorem markFirst_split (hsegments : segmentsOf insts = before ++ seg :: after) :
    markFirst insts =
      before.flatMap Segment.insts ++ (seg.insts ++ after.flatMap Segment.insts) := by
  rw [← segmentsOf_flatMap, hsegments, List.flatMap_append, List.flatMap_cons]

/-- Only the last instruction of a block is a jump. -/
theorem Straight.jump_last (h : Straight insts) (hsegments : segmentsOf insts = before ++ seg :: after)
    (hinsts : seg.insts = pre ++ inst :: post) (hjump : (inst.isJumpInst || inst.isSwitch) = true) :
    post = [] := by
  cases post with
  | nil => rfl
  | cons inst' post =>
      have hsplit : markFirst insts = (before.flatMap Segment.insts ++ pre) ++
          inst :: inst' :: (post ++ after.flatMap Segment.insts) := by
        rw [markFirst_split hsegments, hinsts]
        simp
      have hleader := h.marked.starts _ inst inst' _ hsplit hjump
      have hbody : inst' ∈ seg.body := by
        cases pre with
        | nil =>
            rw [(List.cons.inj hinsts).2]
            exact List.mem_cons_self
        | cons a pre =>
            rw [(List.cons.inj hinsts).2]
            simp
      have hvalid := segmentsOf_valid insts seg (by rw [hsegments]; simp)
      exact absurd hleader (hvalid.body inst' hbody)

theorem lastInst_of_concat (hinsts : seg.insts = pre ++ [inst]) : seg.lastInst = inst := by
  have hget := seg.getLast?_insts
  rw [hinsts, List.getLast?_concat] at hget
  exact (Option.some.inj hget).symm

theorem Straight.next_inside (h : Straight insts) (hsegments : segmentsOf insts = before ++ seg :: after)
    (hinsts : seg.insts = pre ++ inst :: inst' :: post) (hends : inst.endsBlock = false) :
    inst'.idx = inst.idx + 1 := by
  have hsplit : markFirst insts = (before.flatMap Segment.insts ++ pre) ++
      inst :: inst' :: (post ++ after.flatMap Segment.insts) := by
    rw [markFirst_split hsegments, hinsts]
    simp
  exact h.marked.next _ inst inst' _ hsplit (fallsThrough_of_not_term hends)

/-- Behind a block from whose end control can go on is the block of the next instruction. -/
theorem Straight.next_segment (h : Straight insts) (hsegments : segmentsOf insts = before ++ seg :: after)
    (hfall : seg.lastInst.fallsThrough = true) :
    ∃ t rest, after = t :: rest ∧ t.id = seg.lastInst.idx + 1 := by
  have hsplit := markFirst_split hsegments
  rw [seg.insts_eq] at hsplit
  cases after with
  | nil =>
      have hlast : (markFirst insts).getLast? = some seg.lastInst := by
        rw [hsplit, List.flatMap_nil, List.append_nil, ← List.append_assoc, List.getLast?_concat]
      rw [h.marked.last _ hlast] at hfall
      cases hfall
  | cons t rest =>
      refine ⟨t, rest, rfl, ?_⟩
      have hsplit' : markFirst insts =
          (before.flatMap Segment.insts ++ seg.insts.dropLast) ++
            seg.lastInst :: t.leader :: (t.body ++ rest.flatMap Segment.insts) := by
        rw [hsplit, List.flatMap_cons, Segment.insts]
        simp [Segment.insts]
      exact h.marked.next _ _ _ _ hsplit' hfall

end

/-- An instruction of a part of the program has the place that its number says. -/
theorem PartOf.fetch (hidx : ∀ (i : Nat) inst, prog[i]? = some inst → inst.idx = i)
    (hpart : PartOf prog insts) (hinst : inst ∈ markFirst insts) :
    ∃ inst', Zam.fetch prog inst.idx = some inst' ∧ inst'.unannotated = inst.unannotated := by
  obtain ⟨inst', hinst', hsame⟩ := exists_of_mem_markFirst hinst
  obtain ⟨j, hj⟩ := List.mem_iff_getElem?.mp (hpart.mem inst' hinst')
  have hnumber : inst.idx = j := by
    calc inst.idx = inst.unannotated.idx := rfl
      _ = inst'.unannotated.idx := by rw [hsame]
      _ = j := hidx j inst' hj
  refine ⟨inst', ?_, hsame⟩
  rw [hnumber, Zam.fetch, if_pos (Int.natCast_nonneg j), Int.toNat_natCast, hj]

theorem follows_of_straight (hidx : ∀ (i : Nat) inst, prog[i]? = some inst → inst.idx = i)
    (hpart : PartOf prog insts) (hstraight : Straight insts)
    (hfunction : generateFunction (.new id arity) insts = some F) (hfalls : F.FallsRight) :
    Follows prog F := by
  obtain ⟨F₀, first, hbuilt, hrounds⟩ := generateFunction_built hpart.ordered hfunction
  refine ⟨hrounds.consistent, fun k hk inst hinst => ?_, fun k hk => ?_,
    fun k hk inst hinst d hd => ?_, fun k hk pre inst inst' post heq hends => ?_,
    fun k hk inst hlast hends => ?_, fun k hk inst hinst hjump => ?_,
    fun k hk pre inst post heq hcond => ?_⟩ <;>
  obtain ⟨before, seg, after, hsegments, rfl, hseg, hnexts⟩ := kept_segment hbuilt hrounds hk
  · rw [hseg] at hinst
    refine hpart.fetch hidx ?_
    rw [markFirst_split hsegments]
    simp [hinst]
  · exact ⟨seg.leader, seg.body, hseg, rfl⟩
  · rw [hseg] at hinst
    rw [hnexts]
    exact List.mem_append_left _ (List.mem_flatMap.mpr ⟨inst, hinst, hd⟩)
  · exact hstraight.next_inside hsegments (hseg ▸ heq) hends
  · have hnamed := hfalls _ hk inst hlast hends
    rw [hseg, seg.getLast?_insts] at hlast
    cases hlast
    have hfall := fallsThrough_of_not_term hends
    obtain ⟨t, rest, rfl, ht⟩ := hstraight.next_segment hsegments hfall
    rw [hnexts, if_pos hfall, List.head?_append, List.head?_cons, Option.toList_some,
      List.map_singleton, List.head?_cons, ht]
    rw [hseg] at hnamed
    cases hdests : (seg.insts.flatMap ZInstruction.dests).head? with
    | none => rfl
    | some d => rw [hnamed d hdests, Option.some_or]
  · rw [hseg] at hinst
    obtain ⟨pre, post, heq⟩ := List.append_of_mem hinst
    have hpost := hstraight.jump_last hsegments heq (by rw [hjump, Bool.true_or])
    have hlast : seg.lastInst = inst := lastInst_of_concat (hpost ▸ heq)
    have hbr := (hsegments ▸ hbuilt : Built F₀ (before ++ seg :: after)).brBlock (hlast ▸ hjump)
    rw [hrounds.kept _ hk, hbr, hlast]
  · rw [hseg] at heq
    have hjump : inst.isJumpInst = true := (Bool.and_eq_true_iff.mp hcond).1
    have hpost := hstraight.jump_last hsegments heq (by rw [hjump, Bool.true_or])
    have hlast : seg.lastInst = inst := lastInst_of_concat (hpost ▸ heq)
    have hfall : seg.lastInst.fallsThrough = true := by
      rw [hlast]
      cases hop : inst.opNum <;>
        simp [ZInstruction.isCondJump, ZInstruction.isJumpInst, ZInstruction.fallsThrough,
          ZInstruction.isUncondJump, ZInstruction.isReturn, ZInstruction.isSwitch, hop] at hcond ⊢
    obtain ⟨t, rest, rfl, ht⟩ := hstraight.next_segment hsegments hfall
    have hnoSwitch : pre.filter (·.isSwitch) = [] := by
      refine List.filter_eq_nil_iff.mpr fun a ha hswitch => ?_
      obtain ⟨pre₁, pre₂, rfl⟩ := List.append_of_mem ha
      rw [List.append_assoc, List.cons_append] at heq
      have hnil := hstraight.jump_last hsegments heq (by rw [hswitch, Bool.or_true])
      exact List.append_ne_nil_of_right_ne_nil pre₂ (List.cons_ne_nil _ _) hnil
    have hnoBr := (hsegments ▸ hbuilt : Built F₀ (before ++ seg :: t :: rest)).noBrBlock hfall
    rw [hlast] at ht
    refine ⟨?_, ?_⟩
    · rw [noBrAt, hnoSwitch, hrounds.kept _ hk, hnoBr, ht]
      rfl
    · rw [hnexts, if_pos hfall, ← ht]
      simp

/-! ### The functions of a module -/

/-- The instructions that the functions of a module are made of. -/
def sources (prog : List ZInstruction) (firstInst lastInst : Int) :
    Option (List (List ZInstruction)) := do
  let split ← splitInstructions (← queueInstructions prog firstInst lastInst)
  return removeDeadInstructions split.mainBlockInsts :: split.functions.map FuncInsts.insts

theorem takeFunction_head {m : Int} {body rest : List ZInstruction}
    (h : takeFunction m (inst :: insts) = some (body, rest)) : body.head? = some inst := by
  simp only [takeFunction, Option.bind_eq_bind, Option.bind_eq_some_iff] at h
  obtain ⟨m', -, h⟩ := h
  split at h
  · cases h
    rfl
  · rw [Option.bind_eq_some_iff] at h
    obtain ⟨⟨body', rest'⟩, -, h⟩ := h
    cases h
    rfl

/-- A function is named after its first instruction, which the annotation marks. -/
theorem splitInstructions_head {q : List ZInstruction} {split : SplitInsts}
    (h : splitInstructions q = some split) : ∀ f ∈ split.functions, ∃ inst ∈ q,
      f.insts.head? = some inst ∧ inst.idx = f.id ∧ inst.annotation = .functionStart := by
  induction q using splitInstructions.induct generalizing split with
  | case1 =>
      rw [splitInstructions] at h
      cases h
      exact List.forall_mem_nil _
  | case2 inst insts hstart hinit =>
      rw [splitInstructions, if_pos hstart] at h
      split at h
      · cases h
      · next f rest hsome => rw [hinit] at hsome; cases hsome
  | case3 inst insts hstart f rest hinit ih =>
      rw [splitInstructions, if_pos hstart] at h
      split at h
      · cases h
      · next f' rest' hsome =>
          rw [hinit] at hsome
          cases hsome
          simp only [Option.bind_eq_bind, Option.bind_eq_some_iff] at h
          obtain ⟨split', hsplit, h⟩ := h
          cases h
          have happend := initFunction_append hinit
          refine List.forall_mem_cons.mpr ⟨⟨inst, List.mem_cons_self, ?_⟩, fun g hg => ?_⟩
          · simp only [initFunction, Option.bind_eq_bind, Option.bind_eq_some_iff] at hinit
            obtain ⟨⟨body, rest'⟩, htake, hinit⟩ := hinit
            cases hinit
            exact ⟨takeFunction_head htake, rfl, hstart⟩
          · obtain ⟨inst', hinst', hg'⟩ := ih hsplit g hg
            exact ⟨inst', happend ▸ List.mem_append_right _ hinst', hg'⟩
  | case4 inst insts hstart ih =>
      rw [splitInstructions, if_neg hstart] at h
      simp only [Option.bind_eq_bind, Option.bind_eq_some_iff] at h
      obtain ⟨split', hsplit, h⟩ := h
      have hlater : ∀ f ∈ split'.functions, ∃ i ∈ inst :: insts,
          f.insts.head? = some i ∧ i.idx = f.id ∧ i.annotation = .functionStart := fun f hf => by
        obtain ⟨i, hi, hf⟩ := ih hsplit f hf
        exact ⟨i, List.mem_cons_of_mem inst hi, hf⟩
      split at h <;> cases h <;> exact hlater

/-- The graph of a function keeps the name of the function. -/
def SameId (F F' : GenFunction) : Prop := F'.id = F.id

theorem setNexts_sameId (F : GenFunction) (k : Int) (isBrBlock : Bool) (dests : List Int) :
    Ensures (SameId F) (F.setNexts k isBrBlock dests) := by
  induction dests generalizing F with
  | nil => exact result rfl
  | cons dest dests ih => exact andThen (self _) fun next _ => ih (F.setNext k next isBrBlock)

theorem appendInst_sameId (F : GenFunction) (k : Int) (inst : ZInstruction) :
    Ensures (SameId F) (F.appendInst k inst) := by
  have hswitch : ∀ F₁, SameId F F₁ → Ensures (SameId F)
      (if inst.isSwitch then F₁.setNexts k false inst.switchEntries else some F₁) := fun F₁ h₁ =>
    byCases (fun _ => (setNexts_sameId F₁ k false _).mono fun _ h => h.trans h₁) fun _ => result h₁
  exact byCases (fun _ => andThen (setNexts_sameId _ k true _) hswitch) fun _ =>
    hswitch _ rfl

theorem fallInto_sameId (F : GenFunction) (cBlock : Option Int) (inst : ZInstruction) :
    Ensures (SameId F) (F.fallInto cBlock inst) := by
  unfold fallInto
  split
  · exact result rfl
  · exact andThen (self _) fun _ _ => byCases (fun _ => andThen (self _) fun _ _ => result rfl)
      fun _ => result rfl

theorem connectBlocks_sameId (F : GenFunction) (cBlock : Option Int) (insts : List ZInstruction) :
    Ensures (SameId F) (F.connectBlocks cBlock insts) := by
  induction insts generalizing F cBlock with
  | nil => exact result rfl
  | cons inst insts ih =>
      refine byCases (fun _ => andThen (fallInto_sameId F cBlock inst) fun F₁ h₁ =>
        andThen (self _) fun k _ => andThen (appendInst_sameId F₁ k inst) fun F₂ h₂ =>
          (ih F₂ _).mono fun _ h => h.trans (h₂.trans h₁)) fun _ => ?_
      exact andThen (self _) fun k _ => andThen (appendInst_sameId F k inst) fun F₁ h₁ =>
        (ih F₁ _).mono fun _ h => h.trans h₁

theorem eraseBlocks_id (ks : List Int) (s : GenFunction × Bool) :
    (eraseBlocks ks s).1.id = s.1.id := by
  have hedges : ∀ (k : Int) (nexts : List Int) (s : GenFunction × Bool),
      (removeEdges k nexts s).1.id = s.1.id := by
    intro k nexts
    induction nexts with
    | nil => exact fun _ => rfl
    | cons next nexts ih => exact fun s => ih _
  induction ks generalizing s with
  | nil => rfl
  | cons k ks ih => exact (ih _).trans (hedges k _ s)

theorem removeUnusedBlocks_id (F : GenFunction) : F.removeUnusedBlocks.id = F.id := by
  induction F using removeUnusedBlocks.induct with
  | case1 F F' h ih =>
      rw [removeUnusedBlocks]
      split
      · next F₁ h₁ =>
          cases h.symm.trans h₁
          have hround := eraseBlocks_id F.toRemoveBlocks (F, false)
          rw [h] at hround
          exact ih.trans hround
      · next F₁ h₁ => cases h.symm.trans h₁
  | case2 F F' h =>
      rw [removeUnusedBlocks]
      split
      · next F₁ h₁ => cases h.symm.trans h₁
      · next F₁ h₁ =>
          have hround := eraseBlocks_id F.toRemoveBlocks (F, false)
          rw [h₁] at hround
          exact hround

theorem generateFunction_id (h : generateFunction (.new id arity) insts = some F) : F.id = id := by
  obtain ⟨F₀, hbuild, rfl⟩ := Option.map_eq_some_iff.mp h
  rw [removeUnusedBlocks_id]
  cases insts with
  | nil => cases hbuild
  | cons inst insts =>
      have hmade : ∀ (is : List ZInstruction) (F : GenFunction), (F.makeBlocks is).id = F.id := by
        intro is
        induction is with
        | nil => exact fun _ => rfl
        | cons i is ih =>
            intro F
            rw [makeBlocks, ih]
            split <;> rfl
      exact (connectBlocks_sameId _ _ _ _ hbuild).trans (hmade _ _)

/-- The first block is never removed. -/
theorem generateFunction_head (hordered : (inst :: insts).Pairwise (·.idx < ·.idx))
    (h : generateFunction (.new id arity) (inst :: insts) = some F) :
    F.blocks.head? = some inst.idx := by
  obtain ⟨F₀, hbuild, rfl⟩ := Option.map_eq_some_iff.mp h
  have hbuilt := buildBlocks_built hordered hbuild
  have hfirst : F₀.blocks.head? = some inst.idx := by
    rw [hbuilt.blocks, List.head?_map, segmentsOf_head]
  exact (removeUnusedBlocks_rounds hbuilt.consistent hfirst).head

theorem GenModule.function_of_find (h : M.find id = some F) : M.function (.closure id) = F := by
  show (M.find id).getD _ = F
  rw [h]
  rfl

/-- Where a function of a module comes from. -/
structure Source (prog insts : List ZInstruction) (fn : FnRef) (F : GenFunction) : Prop where
  part : PartOf prog insts
  generated : ∃ id arity, generateFunction (.new id arity) insts = some F
  main : fn = .main → F.id = mainFunctionId
  closure : ∀ id, fn = .closure id → F.id = id ∧ F.blocks.head? = some id ∧
    ∃ inst ∈ prog, inst.idx = id ∧ inst.annotation = .functionStart

theorem exists_source (hidx : ∀ (i : Nat) inst, prog[i]? = some inst → inst.idx = i)
    (hgenerate : generate prog firstInst lastInst = some M)
    {lists : List (List ZInstruction)} (hlists : sources prog firstInst lastInst = some lists)
    (hhas : M.Has fn) : ∃ insts ∈ lists, Source prog insts fn (M.function fn) := by
  simp only [generate, Option.bind_eq_bind, Option.bind_eq_some_iff] at hgenerate
  obtain ⟨q, hq, split, hsplit, functions, hfunctions, main, hmain, h⟩ := hgenerate
  cases h
  simp only [sources, hq, hsplit, Option.bind_eq_bind, Option.bind_some] at hlists
  cases hlists
  have hpart := queueInstructions_part hidx hq
  obtain ⟨hsub, hsubMain⟩ := splitInstructions_sublist hsplit
  cases fn with
  | main =>
      have hinsts : PartOf prog (removeDeadInstructions split.mainBlockInsts) :=
        hpart.sublist ((removeDeadInstructionsFrom_sublist _ _).trans hsubMain)
      have hfunction : (functions.foldl .add ⟨[], main.removeUnusedBlocks⟩ : GenModule).function .main =
          main := by
        obtain ⟨F, first, -, hrounds⟩ := generateFunction_built hinsts.ordered hmain
        calc _ = main.removeUnusedBlocks :=
              mainFunction_foldl_add (M := ⟨[], main.removeUnusedBlocks⟩) functions
          _ = main := removeUnusedBlocks_of_finished hrounds.finished
      rw [hfunction]
      exact ⟨_, List.mem_cons_self, hinsts, ⟨mainFunctionId, 0, hmain⟩,
        fun _ => generateFunction_id hmain, fun id h => by cases h⟩
  | closure id =>
      obtain ⟨F, hF⟩ := Option.isSome_iff_exists.mp hhas
      rcases mem_functions_foldl_add (List.mem_of_find?_eq_some hF) with hmem | hnone
      · obtain ⟨g, hg, hgenerate⟩ := exists_of_mem_mapM hfunctions hmem
        have hfind : F.id = id := by simpa using List.find?_some hF
        have hid : g.id = id := (generateFunction_id hgenerate).symm.trans hfind
        obtain ⟨inst, hinst, hhead, hnumber, hstart⟩ := splitInstructions_head hsplit g hg
        have hinsts := hpart.sublist (hsub g hg)
        rw [GenModule.function_of_find hF]
        refine ⟨g.insts, List.mem_cons_of_mem _ (List.mem_map_of_mem hg), hinsts,
          ⟨g.id, g.arity, hgenerate⟩, fun h => (by cases h), fun id' h => ?_⟩
        cases h
        obtain ⟨insts, hcons⟩ := List.head?_eq_some_iff.mp hhead
        refine ⟨hfind, ?_, inst, hpart.mem inst hinst, hnumber.trans hid, hstart⟩
        rw [← hid, ← hnumber]
        rw [hcons] at hgenerate hinsts
        exact generateFunction_head hinsts.ordered hgenerate
      · cases hnone

end CamllVM
