import CamllVM.Proof.ProgramSimulation
import CamllVM.Proof.Acceptance

/-!
# From the bytes of a program to runs of its LLVM code

The passes one after the other: reading, annotation, the split into functions, the graphs and code
generation. Where they place the code of a program right, the LLVM code does what the bytecode does.
-/

namespace CamllVM

open Simulation

variable {insts prog : List ZInstruction} {firstInst lastInst : Int} {M : GenModule} {S : GenState}
  {depth : Nat} {rt : Runtime} {m : Machine} {pc : Int}

theorem sources_of_generate (h : generate prog firstInst lastInst = some M) :
    ∃ lists, sources prog firstInst lastInst = some lists := by
  simp only [generate, Option.bind_eq_bind, Option.bind_eq_some_iff] at h
  obtain ⟨q, hq, split, hsplit, -⟩ := h
  exact ⟨_, by simp only [sources, hq, hsplit, Option.bind_eq_bind, Option.bind_some]; rfl⟩

/-- The code that is generated follows the program. -/
theorem compiled_of_accepted (hidx : ∀ (i : Nat) inst, prog[i]? = some inst → inst.idx = i)
    (hgenerate : generate prog firstInst lastInst = some M)
    (hcode : codeGen M depth .main (.start M) = some S)
    (h : Accepted prog firstInst lastInst M S) : Compiled prog M S := by
  obtain ⟨hprogress, hreached⟩ := codeGen_main hcode
  have hcomplete : ∀ fn ∈ S.generated, Complete M fn S := fun fn hfn =>
    hprogress.complete fn hfn List.not_mem_nil
  obtain ⟨lists, hlists⟩ := sources_of_generate hgenerate
  have hsource : ∀ fn ∈ S.generated, ∃ insts ∈ lists, Source prog insts fn (M.function fn) :=
    fun fn hfn => exists_source hidx hgenerate hlists (has_of_mem_generated hcode hfn)
  have hfollows : ∀ fn ∈ S.generated, Follows prog (M.function fn) := by
    intro fn hfn
    obtain ⟨insts, hinsts, hsource⟩ := hsource fn hfn
    obtain ⟨id, arity, hfunction⟩ := hsource.generated
    exact follows_of_straight hidx hsource.part (h.straight lists hlists insts hinsts) hfunction
      (h.falls fn hfn)
  refine ⟨(hreached .main).mpr .refl, fun fn hfn => ?_, hfollows, fun fn hfn => ?_,
    fun fn hfn g hg => ((hcomplete fn hfn).refs g hg).2, fun id hid => ?_⟩
  · exact ⟨(hfollows fn hfn).consistent.sorted, (hcomplete fn hfn).owned, (hcomplete fn hfn).body,
      (hcomplete fn hfn).generates⟩
  · exact ⟨h.starts fn hfn, h.traps fn hfn⟩
  · obtain ⟨insts, -, hsource⟩ := hsource _ hid
    obtain ⟨hname, hhead, inst, hinst, hnumber, hstart⟩ := hsource.closure id rfl
    have hne : id ≠ mainFunctionId := by
      rintro rfl
      obtain ⟨j, hj⟩ := List.mem_iff_getElem?.mp hinst
      have hj0 : (j : Int) = 0 := (hidx j inst hj).symm.trans hnumber
      obtain rfl : j = 0 := by exact_mod_cast hj0
      exact h.first inst hj hstart
    exact ⟨hne, by rwa [hname], hhead⟩

/-! ### The start of the program -/

/-- The machine when the main function comes to its first instruction: `init` is called in a first
block that no other block goes to. -/
def GenFunction.entered (F : GenFunction) (pc : Int) (m : Machine) : Machine :=
  if F.id = mainFunctionId ∧ (F.block pc).previousBlocks = [] then m.init else m

theorem exists_start (hC : Compiled prog M S) (hpc : (M.function .main).blocks.head? = some pc)
    (m : Machine) : ∃ n n', Native.start S m = some n ∧ Reaches (Native.step S rt) n n' ∧
      Belongs M S (.start ((M.function .main).entered pc m) pc) n' := by
  let F := M.function .main
  have h := hC.generated _ hC.main
  obtain ⟨ks, hblocks⟩ := List.head?_eq_some_iff.mp hpc
  have hk : pc ∈ F.blocks := hblocks ▸ List.mem_cons_self
  obtain ⟨inst, post, hinsts, rfl⟩ := (hC.follows _ hC.main).leader pc hk
  let p : Place F inst := ⟨[], inst.idx, ks, [], post, hblocks, hinsts⟩
  obtain ⟨rest, hcode, hlocated⟩ := h.first_code p rfl
  have hnamed : F.namedBefore inst.idx = 0 := by
    rw [GenFunction.namedBefore, filter_lt_of_sorted h.sorted (show _ = [] ++ _ :: _ from hblocks)]
    rfl
  have hlast : p.start.last .main p.k = .ofBlock .main inst.idx 0 := by
    rw [OwnState.last, p.start_llvmBlocks h.sorted]
  have hinit : codeAt (initCode p.start .main p.k) (.ofBlock .main inst.idx 0) =
      if F.id = mainFunctionId ∧ (F.block inst.idx).previousBlocks = [] then [.libCall .init]
      else [] := by
    rw [initCode, codeAt_placed, if_pos hlast]
    rfl
  have hcode' : S.code (.ofBlock .main inst.idx 0) =
      codeAt (initCode p.start .main p.k) (.ofBlock .main inst.idx 0) ++ rest := by
    rw [hnamed] at hcode
    exact hcode
  rw [hinit] at hcode'
  let n : Native := ⟨m, .void, ⟨.main, S.code (.ofBlock .main inst.idx 0)⟩, [], fun _ => none⟩
  have hstart : Native.start S m = some n := by
    simp only [Native.start, GenState.entryFrame, h.body_head hblocks, Option.bind_eq_bind,
      Option.bind_some]
    rfl
  have hbelongs : ∀ m r, Belongs M S (.start m inst.idx) ((n.returned m r).withRest rest) := by
    intro m r
    refine ⟨rfl, ⟨?_, hC.main, .at hlocated⟩, .nil, fun i buf hbuf => ?_⟩
    · exact (if_pos rfl).symm
    · cases hbuf
  refine ⟨n, (n.returned (F.entered inst.idx m) .void).withRest rest, hstart, ?_, hbelongs _ _⟩
  conv => lhs; rw [← n.withRest_self hcode']
  unfold GenFunction.entered
  split
  · exact Native.reaches_cons (Native.execInst_libCall rfl) .refl
  · exact .refl

/-! ### Whole programs -/

/-- A function is applied inside a handler. -/
def applyIdentity : SymProgram where
  size := 11
  code :=
    [.ofOffset .branch [] 3 (.refl true),
     .ofPlain .acc0 [] (.refl true),
     .ofPlain .return_ [1] (.refl true),
     .ofOffset .pushTrap [] 10 (.refl true),
     .ofPlain .const1 [] (.refl true),
     .ofPlain .push [] (.refl true),
     .ofOffset .closure [0] 1 (.refl true),
     .ofPlain .apply1 [] (.refl true),
     .ofPlain .popTrap [] (.refl true),
     .ofPlain .stop [] (.refl true),
     .ofPlain .stop [] (.refl true)]
  length_code := rfl

def applyIdentityProg : List ZInstruction := (annotateNodes applyIdentity.decoded).getD []

def applyIdentityFunction : List ZInstruction := (applyIdentityProg.drop 1).take 2

def applyIdentityMain : List ZInstruction := applyIdentityProg.take 1 ++ applyIdentityProg.drop 3

def applyIdentityModule : GenModule :=
  ⟨[((GenFunction.new 1 1).buildBlocks applyIdentityFunction).getD (.new 1 1)],
    ((GenFunction.new mainFunctionId 0).buildBlocks applyIdentityMain).getD (.new mainFunctionId 0)⟩

def applyIdentityState : GenState :=
  (codeGen applyIdentityModule 2 .main (.start applyIdentityModule)).getD (.start applyIdentityModule)

theorem splitInstructions_applyIdentity : splitInstructions applyIdentityProg =
    some ⟨[⟨1, 1, applyIdentityFunction⟩], applyIdentityMain⟩ := by
  have hrest : splitInstructions (applyIdentityProg.drop 3) = some ⟨[], applyIdentityProg.drop 3⟩ :=
    splitInstructions_main (by decide)
  have hprog : applyIdentityProg =
      applyIdentityProg[0] :: applyIdentityProg[1] :: applyIdentityProg.drop 2 := rfl
  have hfunction : splitInstructions (applyIdentityProg[1] :: applyIdentityProg.drop 2) =
      some ⟨[⟨1, 1, applyIdentityFunction⟩], applyIdentityProg.drop 3⟩ :=
    splitInstructions_cons_function (by decide) rfl hrest
  rw [hprog, splitInstructions_cons_main (by decide) hfunction]
  rfl

theorem generate_applyIdentity : generate applyIdentityProg 0 0 = some applyIdentityModule := by
  have hmain : generateFunction (.new mainFunctionId 0) (removeDeadInstructions applyIdentityMain) =
      some applyIdentityModule.mainFunction :=
    GenFunction.generateFunction_of_finished rfl (by decide)
  have hfunction : generateFunction (.new 1 1) applyIdentityFunction =
      some (applyIdentityModule.function (.closure 1)) :=
    GenFunction.generateFunction_of_finished rfl (by decide)
  have hpruned : applyIdentityModule.mainFunction.removeUnusedBlocks =
      applyIdentityModule.mainFunction :=
    GenFunction.removeUnusedBlocks_of_finished (by decide)
  simp only [generate, queueInstructions_all, splitInstructions_applyIdentity, hmain, hfunction,
    Option.bind_eq_bind, Option.bind_some, List.mapM_cons, List.mapM_nil, Option.pure_def,
    List.foldl_cons, List.foldl_nil, hpruned]
  rfl

theorem accepted_applyIdentity :
    Accepted applyIdentityProg 0 0 applyIdentityModule applyIdentityState := by
  have hsources : sources applyIdentityProg 0 0 =
      some [applyIdentityMain, applyIdentityFunction] := by
    simp only [sources, queueInstructions_all, splitInstructions_applyIdentity, Option.bind_eq_bind,
      Option.bind_some]
    rfl
  rw [accepted_iff, hsources]
  decide

def applyIdentityStart : Zam :=
  .start ((applyIdentityModule.function .main).entered 0 (.start [] .unit 100)) 0

end CamllVM
