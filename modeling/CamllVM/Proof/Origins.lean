import CamllVM.Proof.Generation
import CamllVM.Proof.DecodeEncode
import CamllVM.Proof.FunctionSplit
import CamllVM.Proof.DeadInstructions
import CamllVM.Proof.FallThrough

/-!
# Where the instructions of a block come from

Annotation, the split into functions, the removal of dead instructions and the cut into blocks move
records around and change nothing in them but the annotation. So every instruction of a block is
the record of the instruction of the program that has its number.
-/

namespace CamllVM

variable {p : SymProgram} {insts prog q : List ZInstruction} {firstInst lastInst : Int}
  {M : GenModule} {depth : Nat} {s : GenState} {fn : FnRef} {k : Int}

theorem getElem?_of_mapM {α β : Type} {g : α → Option β} {l : List α} {r : List β}
    (h : l.mapM g = some r) (j : Nat) : r[j]? = (l[j]?).bind g := by
  induction l generalizing r j with
  | nil =>
      cases h
      rfl
  | cons a l ih =>
      simp only [List.mapM_cons, Option.bind_eq_bind, Option.bind_eq_some_iff] at h
      obtain ⟨b, hb, bs, hbs, h⟩ := h
      cases h
      cases j with
      | zero => exact hb.symm
      | succ j => exact ih hbs j

theorem exists_of_mem_mapM {α β : Type} {g : α → Option β} {l : List α} {r : List β}
    (h : l.mapM g = some r) {b : β} (hb : b ∈ r) : ∃ a ∈ l, g a = some b := by
  obtain ⟨j, hj⟩ := List.mem_iff_getElem?.mp hb
  rw [getElem?_of_mapM h, Option.bind_eq_some_iff] at hj
  obtain ⟨a, ha, hg⟩ := hj
  exact ⟨a, List.mem_of_getElem? ha, hg⟩

/-! ### The parts of the program -/

/-- Instructions of the program, in its order. -/
structure PartOf (prog insts : List ZInstruction) : Prop where
  mem : ∀ inst ∈ insts, inst ∈ prog
  ordered : insts.Pairwise (·.idx < ·.idx)

theorem PartOf.sublist (h : PartOf prog q) (hsub : insts.Sublist q) : PartOf prog insts :=
  ⟨fun inst hinst => h.mem inst (hsub.subset hinst), h.ordered.sublist hsub⟩

theorem queueInstructions_part (hidx : ∀ (i : Nat) inst, prog[i]? = some inst → inst.idx = i)
    (h : queueInstructions prog firstInst lastInst = some q) : PartOf prog q := by
  have hget : ∀ (j : Nat) inst, q[j]? = some inst →
      0 ≤ firstInst + j ∧ prog[(firstInst + j).toNat]? = some inst := by
    intro j inst hj
    rw [getElem?_of_mapM h, Option.bind_eq_some_iff] at hj
    obtain ⟨i, hi, hj⟩ := hj
    obtain ⟨hlt, rfl⟩ := List.getElem?_eq_some_iff.mp hi
    rw [List.getElem_range] at hj
    split at hj
    · next hlow => exact ⟨hlow, hj⟩
    · cases hj
  refine ⟨fun inst hinst => ?_, List.pairwise_iff_getElem.mpr fun i j hi hj hij => ?_⟩
  · obtain ⟨j, hj⟩ := List.mem_iff_getElem?.mp hinst
    exact List.mem_of_getElem? (hget j inst hj).2
  · obtain ⟨hlow, hati⟩ := hget i _ (List.getElem?_eq_getElem hi)
    obtain ⟨-, hatj⟩ := hget j _ (List.getElem?_eq_getElem hj)
    have hidxi := hidx _ _ hati
    have hidxj := hidx _ _ hatj
    omega

theorem takeFunction_append {m : Int} {body rest : List ZInstruction}
    (h : takeFunction m insts = some (body, rest)) : body ++ rest = insts := by
  induction insts generalizing m body with
  | nil => cases h
  | cons inst insts ih =>
      simp only [takeFunction, Option.bind_eq_bind, Option.bind_eq_some_iff] at h
      obtain ⟨m', -, h⟩ := h
      split at h
      · cases h
        rfl
      · rw [Option.bind_eq_some_iff] at h
        obtain ⟨⟨body', rest'⟩, htake, h⟩ := h
        cases h
        exact congrArg (inst :: ·) (ih htake)

theorem initFunction_append {f : FuncInsts} {rest : List ZInstruction}
    (h : initFunction insts = some (f, rest)) : f.insts ++ rest = insts := by
  cases insts with
  | nil => cases h
  | cons inst insts =>
      simp only [initFunction, Option.bind_eq_bind, Option.bind_eq_some_iff] at h
      obtain ⟨⟨body, rest'⟩, htake, h⟩ := h
      cases h
      exact takeFunction_append htake

theorem splitInstructions_sublist {split : SplitInsts} (h : splitInstructions q = some split) :
    (∀ f ∈ split.functions, f.insts.Sublist q) ∧ split.mainBlockInsts.Sublist q := by
  induction q using splitInstructions.induct generalizing split with
  | case1 =>
      rw [splitInstructions] at h
      cases h
      exact ⟨List.forall_mem_nil _, List.Sublist.refl _⟩
  | case2 inst insts hstart hinit =>
      rw [splitInstructions, if_pos hstart] at h
      split at h
      · cases h
      · next f rest hsome => rw [hinit] at hsome; cases hsome
  | case3 inst insts hstart f rest hinit ih =>
      rw [splitInstructions, if_pos hstart] at h
      split at h
      · cases h
      · next f' rest' hsome =>
          rw [hinit] at hsome
          cases hsome
          simp only [Option.bind_eq_bind, Option.bind_eq_some_iff] at h
          obtain ⟨split', hsplit, h⟩ := h
          cases h
          obtain ⟨hfunctions, hmain⟩ := ih hsplit
          have hrest : rest.Sublist (inst :: insts) := by
            rw [← initFunction_append hinit]
            exact List.sublist_append_right _ _
          refine ⟨List.forall_mem_cons.mpr ⟨?_, fun g hg => (hfunctions g hg).trans hrest⟩,
            hmain.trans hrest⟩
          rw [← initFunction_append hinit]
          exact List.sublist_append_left _ _
  | case4 inst insts hstart ih =>
      rw [splitInstructions, if_neg hstart] at h
      simp only [Option.bind_eq_bind, Option.bind_eq_some_iff] at h
      obtain ⟨split', hsplit, h⟩ := h
      obtain ⟨hfunctions, hmain⟩ := ih hsplit
      split at h <;> cases h
      · exact ⟨fun g hg => (hfunctions g hg).cons inst, hmain.cons_cons inst⟩
      · exact ⟨fun g hg => (hfunctions g hg).cons inst, hmain.cons inst⟩

theorem splitInstructions_main
    (h : ∀ inst ∈ q, inst.annotation ≠ .functionStart ∧ inst.opNum ≠ .restart) :
    splitInstructions q = some ⟨[], q⟩ := by
  induction q with
  | nil => rw [splitInstructions]
  | cons inst insts ih =>
      obtain ⟨⟨hstart, hop⟩, hrest⟩ := List.forall_mem_cons.mp h
      rw [splitInstructions_cons_main hstart (ih hrest), if_pos (bne_iff_ne.mpr hop)]

/-! ### The functions of a module -/

theorem mem_functions_foldl_add {fs : List GenFunction} {f : GenFunction}
    (h : f ∈ (fs.foldl .add M).functions) : f ∈ fs ∨ f ∈ M.functions := by
  induction fs generalizing M with
  | nil => exact .inr h
  | cons g fs ih =>
      rcases ih h with hmem | hadd
      · exact .inl (List.mem_cons_of_mem g hmem)
      · rcases List.mem_cons.mp hadd with rfl | hmem
        · exact .inl List.mem_cons_self
        · exact .inr (List.mem_of_mem_filter hmem)

theorem mainFunction_foldl_add (fs : List GenFunction) :
    (fs.foldl .add M).mainFunction = M.mainFunction := by
  induction fs generalizing M with
  | nil => rfl
  | cons f fs ih => exact ih

/-- Every function of a module is made from a part of the program. -/
theorem exists_part_of_generate (hidx : ∀ (i : Nat) inst, prog[i]? = some inst → inst.idx = i)
    (h : generate prog firstInst lastInst = some M) (hhas : M.Has fn) :
    ∃ id arity insts, PartOf prog insts ∧
      generateFunction (.new id arity) insts = some (M.function fn) := by
  simp only [generate, Option.bind_eq_bind, Option.bind_eq_some_iff] at h
  obtain ⟨q, hq, split, hsplit, functions, hfunctions, main, hmain, h⟩ := h
  cases h
  have hpart := queueInstructions_part hidx hq
  obtain ⟨hsub, hsubMain⟩ := splitInstructions_sublist hsplit
  cases fn with
  | main =>
      have hinsts : PartOf prog (removeDeadInstructions split.mainBlockInsts) :=
        hpart.sublist ((removeDeadInstructionsFrom_sublist _ _).trans hsubMain)
      refine ⟨mainFunctionId, 0, _, hinsts, ?_⟩
      obtain ⟨F, first, -, hrounds⟩ := GenFunction.generateFunction_built hinsts.ordered hmain
      calc generateFunction (.new mainFunctionId 0) (removeDeadInstructions split.mainBlockInsts)
          = some main := hmain
        _ = some main.removeUnusedBlocks := by
            rw [GenFunction.removeUnusedBlocks_of_finished hrounds.finished]
        _ = _ := congrArg some
            (mainFunction_foldl_add (M := ⟨[], main.removeUnusedBlocks⟩) functions).symm
  | closure id =>
      obtain ⟨f, hf⟩ := Option.isSome_iff_exists.mp hhas
      rcases mem_functions_foldl_add (List.mem_of_find?_eq_some hf) with hmem | hnone
      · obtain ⟨g, hg, hgenerate⟩ := exists_of_mem_mapM hfunctions hmem
        exact ⟨g.id, g.arity, g.insts, hpart.sublist (hsub g hg),
          hgenerate.trans (congrArg (fun o : Option GenFunction => some (o.getD (.new id 1))) hf.symm)⟩
      · cases hnone

/-! ### The instructions of a block -/

theorem annotateNodes_unannotated (h : annotateNodes insts = some prog) :
    prog.map ZInstruction.unannotated = insts.map ZInstruction.unannotated := by
  unfold annotateNodes at h
  split at h
  · exact (foldlM_annotate h).1
  · cases h

theorem exists_of_mem_markFirst {inst : ZInstruction} (h : inst ∈ markFirst insts) :
    ∃ i ∈ insts, i.unannotated = inst.unannotated := by
  cases insts with
  | nil => cases h
  | cons first insts =>
      rcases List.mem_cons.mp h with rfl | h
      · exact ⟨first, List.mem_cons_self, rfl⟩
      · exact ⟨inst, List.mem_cons_of_mem first h, rfl⟩

theorem has_of_mem_generated (hcode : codeGen M depth .main (.start M) = some s)
    (hfn : fn ∈ s.generated) : M.Has fn := by
  obtain ⟨hprogress, hreaches⟩ := codeGen_main hcode
  cases (hreaches fn).mp hfn with
  | refl => trivial
  | tail hreach hrefers =>
      exact ((hprogress.complete _ ((hreaches _).mpr hreach) List.not_mem_nil).refs _ hrefers).1

/-- A function that is generated is a pruned graph of a part of the program. -/
theorem exists_built (hannotate : annotateNodes p.decoded = some prog)
    (hgenerate : generate prog firstInst lastInst = some M)
    (hcode : codeGen M depth .main (.start M) = some s) (hfn : fn ∈ s.generated) :
    ∃ insts F first, PartOf prog insts ∧ GenFunction.Built F (segmentsOf insts) ∧
      GenFunction.Rounds F first (M.function fn) := by
  obtain ⟨hidx, -⟩ := annotateNodes_spec p.decoded_decoded hannotate
  obtain ⟨id, arity, insts, hpart, hfunction⟩ :=
    exists_part_of_generate hidx hgenerate (has_of_mem_generated hcode hfn)
  obtain ⟨F, first, hbuilt, hrounds⟩ := GenFunction.generateFunction_built hpart.ordered hfunction
  exact ⟨insts, F, first, hpart, hbuilt, hrounds⟩

/-- An instruction of the program, from one with its number in a block of a generated function. -/
theorem record_of_mem_block (hannotate : annotateNodes p.decoded = some prog)
    (hgenerate : generate prog firstInst lastInst = some M)
    (hcode : codeGen M depth .main (.start M) = some s) (hfn : fn ∈ s.generated)
    (hk : k ∈ (M.function fn).blocks) {inst : ZInstruction}
    (hinst : inst ∈ ((M.function fn).block k).instructions) {i : Nat} (hidx : inst.idx = i)
    {x : SymInstruction p.size} (hx : p.code[i]? = some x) :
    ∃ origIdx : Nat, inst.unannotated =
      { x.record (fun t => (t : Nat)) with idx := i, origIdx := origIdx }.unannotated := by
  obtain ⟨insts, F, first, hpart, hbuilt, hrounds⟩ := exists_built hannotate hgenerate hcode hfn
  obtain ⟨before, seg, after, hsegments, -, hseg, -⟩ :=
    GenFunction.kept_segment hbuilt hrounds hk
  have hmarked : inst ∈ markFirst insts := by
    rw [← segmentsOf_flatMap, hsegments]
    refine List.mem_flatMap_of_mem (List.mem_append_right _ List.mem_cons_self) ?_
    rwa [← hseg]
  obtain ⟨inst₁, hinst₁, hsame₁⟩ := exists_of_mem_markFirst hmarked
  obtain ⟨j, hj⟩ := List.mem_iff_getElem?.mp (hpart.mem inst₁ hinst₁)
  have hnumber : inst₁.idx = j := (annotateNodes_spec p.decoded_decoded hannotate).1 j inst₁ hj
  have hji : j = i := by
    have hidx₁ : (j : Int) = i := by
      calc (j : Int) = inst₁.unannotated.idx := hnumber.symm
        _ = inst.unannotated.idx := by rw [hsame₁]
        _ = i := hidx
    exact_mod_cast hidx₁
  subst hji
  obtain ⟨origIdx, hrecord⟩ := getElem?_recordsFrom (fun t => (t : Nat)) 0 0 hx
  refine ⟨origIdx, ?_⟩
  have hat := congrArg (fun l : List ZInstruction => l[j]?) (annotateNodes_unannotated hannotate)
  have hdecoded : p.decoded[j]? = _ := hrecord
  simp only [List.getElem?_map, hj, hdecoded, Option.map_some, Option.some.injEq] at hat
  rw [← hsame₁, hat, Nat.zero_add]

end CamllVM
