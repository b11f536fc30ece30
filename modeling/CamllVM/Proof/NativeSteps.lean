import CamllVM.Proof.ControlFlow
import CamllVM.Proof.Steps

/-!
# Steps of the LLVM code

What the instructions of the LLVM code do to a state whose frame has them in front, and which of them
stand in front when control is before an instruction of the bytecode.
-/

namespace CamllVM

open Simulation

variable {S : GenState} {rt : Runtime} {n n' : Native} {rest cs : List LlvmInst} {b : BasicBlock}
  {m m' : Machine} {r : Register}

namespace Native

/-- The frame has other instructions left. -/
def withRest (n : Native) (rest : List LlvmInst) : Native :=
  { n with frame := { n.frame with rest := rest } }

/-- A library function has returned. -/
def returned (n : Native) (m : Machine) (r : Register) : Native :=
  { n with machine := m, register := r }

@[simp]
theorem withRest_withRest (rest' : List LlvmInst) :
    (n.withRest rest).withRest rest' = n.withRest rest' := rfl

@[simp]
theorem withRest_machine : (n.withRest rest).machine = n.machine := rfl

@[simp]
theorem withRest_register : (n.withRest rest).register = n.register := rfl

@[simp]
theorem withRest_callers : (n.withRest rest).callers = n.callers := rfl

@[simp]
theorem withRest_jmpBufs : (n.withRest rest).jmpBufs = n.jmpBufs := rfl

@[simp]
theorem withRest_fn : (n.withRest rest).frame.fn = n.frame.fn := rfl

@[simp]
theorem withRest_rest : (n.withRest rest).frame.rest = rest := rfl

theorem withRest_self (h : n.frame.rest = rest) : n.withRest rest = n := by
  subst h
  rfl

/-- One instruction, and what comes behind it. -/
theorem advances_cons {inst : LlvmInst} {n₁ : Native}
    (hinst : (n.withRest rest).execInst S rt inst = some (.running n₁))
    (h : Reaches (step S rt) n₁ n') : Advances (step S rt) (n.withRest (inst :: rest)) n' :=
  Relation.TransGen.head' hinst h

theorem reaches_cons {inst : LlvmInst} {n₁ : Native}
    (hinst : (n.withRest rest).execInst S rt inst = some (.running n₁))
    (h : Reaches (step S rt) n₁ n') : Reaches (step S rt) (n.withRest (inst :: rest)) n' :=
  (advances_cons hinst h).reaches

theorem finishes_cons {inst : LlvmInst}
    (hinst : (n.withRest rest).execInst S rt inst = some .finished) :
    Finishes (step S rt) (n.withRest (inst :: rest)) := ⟨_, .refl, hinst⟩

/-! ### Single instructions -/

theorem execInst_libCall {c : LibCall} (hrun : c.run rt n.machine = some (.next (m, r))) :
    n.execInst S rt (.libCall c) = some (.running (n.returned m r)) := by
  cases c with
  | sigsetjmp => cases hrun
  | _ =>
      simp only [execInst, hrun, Option.bind_eq_bind, Option.bind_some]
      rfl

theorem execInst_libCall_jump {c : LibCall} {j : Jump} (hrun : c.run rt n.machine = some (.jump j)) :
    n.execInst S rt (.libCall c) = n.settle (.jump j : Outcome Unit) fun _ => n := by
  cases c with
  | sigsetjmp => cases hrun
  | _ =>
      simp only [execInst, hrun, Option.bind_eq_bind, Option.bind_some]
      cases j <;> rfl

theorem execInst_handlerCall {c : LibCall} (hrun : c.run rt n.machine = some (.next (m, r))) :
    n.execInst S rt (.handlerCall c) = some (.running (n.returned m r)) := by
  simp only [execInst, hrun, Option.bind_eq_bind, Option.bind_some]
  rfl

theorem execInst_instCalls {inst : ZInstruction} {calls : List RuntimeCall} {o : Outcome Machine}
    (hcalls : inst.runtimeCalls = some calls) (hrun : RuntimeCall.runAll rt calls n.machine = some o) :
    n.execInst S rt (.instCalls inst) = n.settle o fun m => { n with machine := m } := by
  simp only [execInst, hcalls, hrun, Option.bind_eq_bind, Option.bind_some]

theorem goTo_eq (hb : b ∈ S.body n.frame.fn) :
    n.goTo S b = some (.running (n.withRest (S.code b))) := if_pos hb

theorem execInst_br (hb : b ∈ S.body n.frame.fn) :
    n.execInst S rt (.br b) = some (.running (n.withRest (S.code b))) := goTo_eq hb

theorem execInst_condBr {cond : BranchCond} (bit : Bool) {ifTrue ifFalse : BasicBlock}
    (htest : n.test cond = some bit)
    (hb : (if bit = true then ifTrue else ifFalse) ∈ S.body n.frame.fn) :
    n.execInst S rt (.condBr cond ifTrue ifFalse) =
      some (.running (n.withRest (S.code (if bit = true then ifTrue else ifFalse)))) := by
  simp only [execInst, htest, Option.bind_eq_bind, Option.bind_some]
  exact goTo_eq hb

theorem test_eq {cond : BranchCond} {bit : Bool} (h : cond.test n.machine = some bit) :
    n.test cond = some bit := by
  cases cond with
  | accuIsTrue => exact h
  | compare op k => exact h
  | _ => cases h

/-- Library functions that do the same as the calls of an instruction. -/
def SameCall (rt : Runtime) (c : LibCall) (call : RuntimeCall) : Prop :=
  ∀ m, ∃ o : Option Machine, c.run rt m = LibCall.plain o ∧ call.run rt m = RuntimeCall.plain o

theorem reaches_libCalls {calls : List RuntimeCall} {lib : List LibCall} {o : Outcome Machine}
    (hsame : List.Forall₂ (SameCall rt) lib calls) (rest : List LlvmInst)
    (hrun : RuntimeCall.runAll rt calls n.machine = some o) :
    ∃ m r, o = .next m ∧
      Reaches (step S rt) (n.withRest (lib.map .libCall ++ rest)) ((n.returned m r).withRest rest) := by
  induction hsame generalizing n with
  | nil =>
      cases hrun
      exact ⟨n.machine, n.register, rfl, .refl⟩
  | @cons c call lib calls hc _ ih =>
      obtain ⟨om, hlib, hcall⟩ := hc n.machine
      rw [RuntimeCall.runAll, hcall] at hrun
      cases om with
      | none => cases hrun
      | some m₁ =>
          obtain ⟨m, r, rfl, hreach⟩ := ih (n := n.returned m₁ .void) hrun
          exact ⟨m, r, rfl, reaches_cons (execInst_libCall hlib) hreach⟩

end Native

/-! ### The instructions in front -/

variable {L : OwnState} {fn : FnRef} {k : Int} {inst : ZInstruction} {post : List ZInstruction}

theorem after_last_of_added (h : OwnState.added inst = 0) :
    (L.after k inst).last fn k = L.last fn k := by
  rw [OwnState.last, OwnState.after_llvmBlocks, Function.update_self, h]
  rfl

/-- The code of an instruction that adds no LLVM block comes first. -/
theorem restFrom_cons (hcode : instCode L fn k inst = placed (L.last fn k) cs)
    (hadded : OwnState.added inst = 0) :
    restFrom L fn k (inst :: post) = cs ++ restFrom (L.after k inst) fn k post := by
  rw [restFrom, codeFrom_cons, codeAt_append, hcode, codeAt_placed, if_pos rfl, restFrom,
    after_last_of_added hadded]

theorem restFrom_append {c : List (BasicBlock × LlvmInst)}
    (hcode : instCode L fn k inst = placed (L.last fn k) cs ++ c) :
    ∃ late, restFrom L fn k (inst :: post) = cs ++ late := by
  refine ⟨codeAt c (L.last fn k) ++ codeAt (codeFrom (L.after k inst) fn k post) (L.last fn k), ?_⟩
  rw [restFrom, codeFrom_cons, codeAt_append, hcode, codeAt_append, codeAt_placed, if_pos rfl,
    List.append_assoc]

theorem last_addBlock (L : OwnState) (fn : FnRef) (k : Int) :
    (L.addBlock k).last fn k = .ofBlock fn k (L.llvmBlocks k) := by
  rw [OwnState.last, addBlock_llvmBlocks_self, Nat.add_sub_cancel]

theorem last_ne {i : Nat} (h : L.llvmBlocks k - 1 ≠ i) : L.last fn k ≠ .ofBlock fn k i :=
  fun heq => h (BasicBlock.ofBlock.inj heq).2.2

section

variable {F : GenFunction} (h : GeneratedFrom S fn F) (p : Place F inst) {i : Nat}

include h

/-- The block in which the code of a trap goes on. -/
theorem code_pushTrap (hop : inst.opNum = .pushTrap) (hself : inst.arg 0 ≠ p.k)
    (hi : p.state.llvmBlocks p.k = i) :
    .ofBlock fn p.k i ∈ S.body fn ∧ ∃ late,
      S.code (.ofBlock fn p.k i) = .libCall .pushTrap :: (p.nextRest fn ++ late) := by
  have hpos := p.state_llvmBlocks_pos h.sorted
  have hnext : p.next = p.state.addBlock p.k := by rw [Place.next, OwnState.after, hop]
  have hlast : (p.state.addBlock p.k).last fn p.k = .ofBlock fn p.k i := by rw [last_addBlock, hi]
  have hhandler : (p.state.addBlock p.k).last fn (inst.arg 0) ≠ .ofBlock fn p.k i := fun heq =>
    hself (BasicBlock.ofBlock.inj heq).2.1
  obtain ⟨late, hcode⟩ := h.added_code p hi.le
  refine ⟨h.added_mem_body p ?_, late, ?_⟩
  · rw [hnext, addBlock_llvmBlocks_self, hi]
    exact Nat.lt_succ_self i
  · rw [hcode, Place.nextRest, restFrom, hnext, hlast]
    simp only [instCode, hop, codeAt_append, codeAt_placed, if_pos hlast, if_neg hhandler,
      if_neg (last_ne (show p.state.llvmBlocks p.k - 1 ≠ i by omega)), List.nil_append]
    rfl

/-- The two blocks behind a test. The code goes on in the second one. -/
theorem code_tested (hadded : OwnState.added inst = 2) {first second third : List LlvmInst}
    (hi : p.state.llvmBlocks p.k = i)
    (hcode : instCode p.state fn p.k inst = placed (p.state.last fn p.k) first ++
      placed ((p.state.addBlock p.k).last fn p.k) second ++
      placed (((p.state.addBlock p.k).addBlock p.k).last fn p.k) third) :
    (.ofBlock fn p.k i ∈ S.body fn ∧ ∃ late, S.code (.ofBlock fn p.k i) = second ++ late) ∧
      .ofBlock fn p.k (i + 1) ∈ S.body fn ∧
        ∃ late, S.code (.ofBlock fn p.k (i + 1)) = third ++ (p.nextRest fn ++ late) := by
  have hpos := p.state_llvmBlocks_pos h.sorted
  have hcount : p.next.llvmBlocks p.k = i + 2 := by
    rw [Place.next, OwnState.after_llvmBlocks, Function.update_self, hadded, hi]
  have hone : (p.state.addBlock p.k).last fn p.k = .ofBlock fn p.k i := by rw [last_addBlock, hi]
  have htwo : ((p.state.addBlock p.k).addBlock p.k).last fn p.k = .ofBlock fn p.k (i + 1) := by
    rw [last_addBlock, addBlock_llvmBlocks_self, hi]
  have hlast : p.next.last fn p.k = .ofBlock fn p.k (i + 1) := by
    rw [OwnState.last, hcount]
    rfl
  have hne : BasicBlock.ofBlock fn p.k i ≠ .ofBlock fn p.k (i + 1) := fun heq =>
    absurd (BasicBlock.ofBlock.inj heq).2.2 (Nat.succ_ne_self i).symm
  have hbefore : ∀ j, i ≤ j → p.state.last fn p.k ≠ .ofBlock fn p.k j := fun j hj =>
    last_ne (by omega)
  obtain ⟨late, hfirst⟩ := h.added_code p hi.le
  obtain ⟨late', hsecond⟩ := h.added_code p (hi.le.trans (Nat.le_succ i))
  refine ⟨⟨h.added_mem_body p (by omega), ?_⟩, h.added_mem_body p (by omega), late', ?_⟩
  · refine ⟨codeAt (codeFrom p.next fn p.k p.post) (.ofBlock fn p.k i) ++ late, ?_⟩
    rw [hfirst, hcode]
    simp only [codeAt_append, codeAt_placed, hone, htwo, if_true, if_neg hne.symm,
      if_neg (hbefore i le_rfl), List.nil_append, List.append_nil]
  · rw [hsecond, hcode, Place.nextRest, restFrom, hlast]
    simp only [codeAt_append, codeAt_placed, hone, htwo, if_true, if_neg hne,
      if_neg (hbefore (i + 1) (Nat.le_succ i)), List.nil_append]

end

end CamllVM
