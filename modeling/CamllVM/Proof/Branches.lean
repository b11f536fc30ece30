import CamllVM.CodeGen
import CamllVM.Proof.Arithmetic

/-!
# Conditional branches

The test of a conditional branch is made on words. A comparison that is part of the branch has the
operand of the instruction on the left and the accumulator on the right.
-/

namespace CamllVM

open TaggedWord

/-- The comparison of two words by LLVM. -/
def compareWords (op : OpCode) (a b : BitVec 64) : Bool :=
  match op with
  | .bltInt => a.slt b
  | .bleInt => a.sle b
  | .bgtInt => b.slt a
  | .bgeInt => b.sle a
  | .bultInt => a.ult b
  | .bugeInt => b.ule a
  | _ => false

/-- The bit that a conditional branch tests, if it is not the result of a call. -/
def BranchCond.test (m : Machine) : BranchCond → Option Bool
  | accuIsTrue => some (!m.accu.sameWord (.bool false))
  | compare .beq k => some ((Value.int k).sameWord m.accu)
  | compare .bneq k => some (!(Value.int k).sameWord m.accu)
  | compare op k => do
      let a ← (Value.int k).toWord
      let b ← m.accu.toWord
      return compareWords op a b
  | _ => none

/-- The instruction that makes the comparison of a branch. -/
def OpCode.comparison : OpCode → Option OpCode
  | beq => some .eq
  | bneq => some .neq
  | bltInt => some .ltInt
  | bleInt => some .leInt
  | bgtInt => some .gtInt
  | bgeInt => some .geInt
  | bultInt => some .ultInt
  | bugeInt => some .ugeInt
  | _ => none

/-- The relation of the language. The last two are on integers extended to 64 bits. -/
def OpCode.relates (op : OpCode) (k n : Int) : Bool :=
  match op with
  | beq => k = n
  | bneq => k ≠ n
  | bltInt => k < n
  | bleInt => k ≤ n
  | bgtInt => k > n
  | bgeInt => k ≥ n
  | bultInt => k % 2 ^ 64 < n % 2 ^ 64
  | bugeInt => k % 2 ^ 64 ≥ n % 2 ^ 64
  | _ => false

variable {rt : Runtime} {inst : ZInstruction} {s s' : Exec} {m : Machine} {k n : Int}
  {op op' : OpCode} {rest : StackWords}

def IsInt32 (x : Int) : Prop := -2 ^ 31 ≤ x ∧ x < 2 ^ 31

theorem IsInt32.isInt63 (h : IsInt32 k) : IsInt63 k := by
  obtain ⟨hlow, hhigh⟩ := h
  constructor <;> norm_num at hlow hhigh ⊢ <;> omega

theorem IsInt63.bmod_self (h : IsInt63 k) : k.bmod (2 ^ (64 - 1)) = k :=
  TaggedWord.bmod_self (by decide) h.1 h.2

theorem sameWord_int (hk : IsInt63 k) (hn : IsInt63 n) :
    (Value.int k).sameWord (.int n) = decide (k = n) := by
  have hword : (Value.int k).sameWord (.int n) = (tag 64 k == tag 64 n) := rfl
  rw [hword, Bool.eq_iff_iff, beq_iff_eq, tag_inj (by decide), hk.bmod_self, hn.bmod_self,
    decide_eq_true_iff]

theorem sameWord_bool (b : Bool) : (!(Value.bool b).sameWord (.bool false)) = b := by
  cases b <;> rfl

theorem compareWords_tag (hop : op.comparison.isSome) (hk : IsInt63 k) (hn : IsInt63 n)
    (heq : op ≠ .beq) (hneq : op ≠ .bneq) :
    compareWords op (tag 64 k) (tag 64 n) = op.relates k n := by
  have hslt : ∀ {x y}, IsInt63 x → IsInt63 y → (tag 64 x).slt (tag 64 y) = decide (x < y) :=
    fun hx hy => by rw [tag_slt (by decide), hx.bmod_self, hy.bmod_self]
  have hsle : ∀ {x y}, IsInt63 x → IsInt63 y → (tag 64 x).sle (tag 64 y) = decide (x ≤ y) :=
    fun hx hy => by rw [tag_sle (by decide), hx.bmod_self, hy.bmod_self]
  have hult : ∀ {x y}, IsInt63 x → IsInt63 y →
      (tag 64 x).ult (tag 64 y) = decide (x % 2 ^ 64 < y % 2 ^ 64) :=
    fun hx hy => tag_ult (by decide) hx hy
  cases op with
  | beq => exact absurd rfl heq
  | bneq => exact absurd rfl hneq
  | bltInt => exact hslt hk hn
  | bleInt => exact hsle hk hn
  | bgtInt => exact hslt hn hk
  | bgeInt => exact hsle hn hk
  | bultInt => exact hult hk hn
  | bugeInt =>
      have hlt := hult hk hn
      show (tag 64 n).ule (tag 64 k) = decide (k % 2 ^ 64 ≥ n % 2 ^ 64)
      rw [BitVec.ule_eq_not_ult, hlt, ← decide_not]
      exact decide_eq_decide.mpr Int.not_lt
  | _ => cases hop

theorem test_compare (hop : op.comparison.isSome) (hk : IsInt63 k) (hn : IsInt63 n)
    (haccu : m.accu = .int n) :
    (BranchCond.compare op k).test m = some (op.relates k n) := by
  have hwords : op ≠ .beq → op ≠ .bneq →
      (BranchCond.compare op k).test m = some (compareWords op (tag 64 k) (tag 64 n)) := by
    intro heq hneq
    simp only [BranchCond.test, haccu]
    rfl
  by_cases heq : op = .beq
  · subst heq
    rw [BranchCond.test, haccu, sameWord_int hk hn]
    rfl
  · by_cases hneq : op = .bneq
    · subst hneq
      rw [BranchCond.test, haccu, sameWord_int hk hn, ← decide_not]
      rfl
    · rw [hwords heq hneq, compareWords_tag hop hk hn heq hneq]

/-! ### The comparison as an instruction of its own -/

theorem Exec.step_pushConstInt (hop : inst.opNum = .pushConstInt) :
    s.step rt inst = some { s with
      machine := { s.machine.pushWord s.machine.accu with accu := .int (inst.arg 0) }
      control := .inside } := by
  simp only [step, exec, ZInstruction.runtimeCalls, hop]
  rfl

theorem Exec.step_comparison (hcomp : op.comparison = some inst.opNum) (hk : IsInt63 k)
    (hn : IsInt63 n) (haccu : s.machine.accu = .int k)
    (hstack : s.machine.stack = some (.int n) :: rest) :
    s.step rt inst = some { s with
      machine := { s.machine with accu := .bool (op.relates k n), stack := rest }
      control := .inside } := by
  have htop : s.machine.slot 0 = some (.int n) := by
    rw [Machine.slot, hstack]
    rfl
  have hpop : s.machine.raiseSp 1 = some { s.machine with stack := rest } := by
    rw [Machine.raiseSp, hstack]
    exact if_pos (Nat.le_add_left 1 rest.length)
  have hword : ∀ {f : BitVec 64 → BitVec 64 → Option Value}, op.comparison.isSome →
      op ≠ .beq → op ≠ .bneq →
      f (tag 64 k) (tag 64 n) = some (.bool (compareWords op (tag 64 k) (tag 64 n))) →
      RuntimeCall.plain (s.machine.wordOp f) = some (.next
        { s.machine with accu := .bool (op.relates k n), stack := rest }) := by
    intro f hsome heq hneq hf
    rw [← compareWords_tag hsome hk hn heq hneq]
    exact congrArg RuntimeCall.plain (Machine.wordOp_int haccu hstack hf)
  have hsome : op.comparison.isSome := by rw [hcomp]; rfl
  cases op with
  | beq =>
      have hop : inst.opNum = .eq := (Option.some.inj hcomp).symm
      refine step_of_run (c := .cmpEq) (by simp only [ZInstruction.runtimeCalls, hop]) ?_
      simp only [RuntimeCall.run, Machine.cmpEq, htop, hpop, haccu, sameWord_int hk hn,
        Option.bind_eq_bind, Option.bind_some]
      rfl
  | bneq =>
      have hop : inst.opNum = .neq := (Option.some.inj hcomp).symm
      refine step_of_run (c := .cmpNeq) (by simp only [ZInstruction.runtimeCalls, hop]) ?_
      simp only [RuntimeCall.run, Machine.cmpNeq, htop, hpop, haccu, sameWord_int hk hn,
        Option.bind_eq_bind, Option.bind_some, ← decide_not]
      rfl
  | bltInt =>
      have hop : inst.opNum = .ltInt := (Option.some.inj hcomp).symm
      exact step_of_run (c := .ltInt) (by simp only [ZInstruction.runtimeCalls, hop])
        (hword hsome (by decide) (by decide) rfl)
  | bleInt =>
      have hop : inst.opNum = .leInt := (Option.some.inj hcomp).symm
      exact step_of_run (c := .leInt) (by simp only [ZInstruction.runtimeCalls, hop])
        (hword hsome (by decide) (by decide) rfl)
  | bgtInt =>
      have hop : inst.opNum = .gtInt := (Option.some.inj hcomp).symm
      exact step_of_run (c := .gtInt) (by simp only [ZInstruction.runtimeCalls, hop])
        (hword hsome (by decide) (by decide) rfl)
  | bgeInt =>
      have hop : inst.opNum = .geInt := (Option.some.inj hcomp).symm
      exact step_of_run (c := .geInt) (by simp only [ZInstruction.runtimeCalls, hop])
        (hword hsome (by decide) (by decide) rfl)
  | bultInt =>
      have hop : inst.opNum = .ultInt := (Option.some.inj hcomp).symm
      exact step_of_run (c := .ultInt) (by simp only [ZInstruction.runtimeCalls, hop])
        (hword hsome (by decide) (by decide) rfl)
  | bugeInt =>
      have hop : inst.opNum = .ugeInt := (Option.some.inj hcomp).symm
      exact step_of_run (c := .ugeInt) (by simp only [ZInstruction.runtimeCalls, hop])
        (hword hsome (by decide) (by decide) rfl)
  | _ => cases hsome

/-- The branch with a comparison is generated with the comparison as its condition, and its test has
the outcome of the relation, as has the test of `BRANCHIF` behind `PUSHCONSTINT` and the comparison.
These leave nothing else behind. -/
theorem fused_branch_agrees {push compare branchIf : ZInstruction} (hk : IsInt32 (inst.arg 0))
    (hn : IsInt63 n) (haccu : s.machine.accu = .int n) (hpush : push.opNum = .pushConstInt)
    (harg : push.arg 0 = inst.arg 0) (hcompare : inst.opNum.comparison = some compare.opNum)
    (hbranchIf : branchIf.opNum = .branchIf) :
    (∀ M gen fn b g, genCodeForInst M gen fn b inst g =
        genCondBr fn b (.compare inst.opNum (inst.arg 0)) true g ∧
      genCodeForInst M gen fn b branchIf g = genCondBr fn b .accuIsTrue true g) ∧
    (BranchCond.compare inst.opNum (inst.arg 0)).test s.machine =
      some (inst.opNum.relates (inst.arg 0) n) ∧
    ∃ s₁ s₂, s.step rt push = some s₁ ∧ s₁.step rt compare = some s₂ ∧
      s₂ = { s with
        machine := { s.machine with accu := .bool (inst.opNum.relates (inst.arg 0) n) }
        control := .inside } ∧
      BranchCond.accuIsTrue.test s₂.machine = some (inst.opNum.relates (inst.arg 0) n) := by
  have hsome : inst.opNum.comparison.isSome := by rw [hcompare]; rfl
  refine ⟨fun M gen fn b g => ⟨?_, ?_⟩, test_compare hsome hk.isInt63 hn haccu, _, _,
    Exec.step_pushConstInt hpush, Exec.step_comparison hcompare hk.isInt63 hn ?_ ?_, rfl, ?_⟩
  · unfold OpCode.comparison at hsome
    split at hsome
    all_goals first
      | next hop => simp only [genCodeForInst, hop]
      | cases hsome
  · simp only [genCodeForInst, hbranchIf]
  · rw [harg]
  · rw [← haccu]
    rfl
  · exact congrArg some (sameWord_bool _)

/-- `BULTINT -1` with the integer 5 in the accumulator. -/
theorem fused_branch_agrees_minusOne :
    (BranchCond.compare .bultInt (-1)).test { Machine.start [] .unit 100 with accu := .int 5 } =
      some (OpCode.relates .bultInt (-1) 5) :=
  (@fused_branch_agrees .idle (.ofArgs .bultInt (-1) 0)
    (.start { Machine.start [] .unit 100 with accu := .int 5 }) 5 (.ofArgs .pushConstInt (-1) 0)
    (.blank .ultInt) (.blank .branchIf) ⟨by decide, by decide⟩ ⟨by decide, by decide⟩ rfl rfl rfl rfl
    rfl).2.1

end CamllVM
