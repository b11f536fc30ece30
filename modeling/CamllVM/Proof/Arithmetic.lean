import CamllVM.Exec
import CamllVM.Lib.TaggedWord

/-!
# The arithmetic of tagged integers

The integers of the language have 63 bits. The instructions work on their words, in which the lowest
bit is the tag, and compute modulo `2 ^ 63`.
-/

namespace CamllVM

open TaggedWord

def IsInt63 (x : Int) : Prop := -2 ^ 62 ≤ x ∧ x < 2 ^ 62

/-- The integer of the language that an integer is reduced to. -/
def reduce63 (x : Int) : Int := x.bmod (2 ^ 63)

/-- The result of an operation on the accumulator and the top of the stack. The logical shift works
on the unsigned value of 63 bits. -/
def binaryInt : OpCode → Option (Int → Int → Int)
  | .addInt => some fun a b => a + b
  | .subInt => some fun a b => a - b
  | .mulInt => some fun a b => a * b
  | .andInt => some Int.land
  | .orInt => some Int.lor
  | .xorInt => some Int.xor
  | .lslInt => some fun a b => a * 2 ^ b.toNat
  | .lsrInt => some fun a b => a % 2 ^ 63 / 2 ^ b.toNat
  | .asrInt => some fun a b => a / 2 ^ b.toNat
  | _ => none

def isShift (op : OpCode) : Bool := op == .lslInt || op == .lsrInt || op == .asrInt

/-- An instruction leaves `Val(x)`, reduced, in the accumulator and the words `rest` on the stack. -/
structure Computes (rt : Runtime) (inst : ZInstruction) (s : Exec) (x : Int) (rest : StackWords) :
    Prop where
  step : s.step rt inst = some { s with
    machine := { s.machine with accu := .int (reduce63 x), stack := rest }, control := .inside }
  word : (Value.int (reduce63 x)).toWord = some (BitVec.ofInt 64 (2 * x + 1))
  odd : (Value.int (reduce63 x)).lowBit = true

variable {rt : Runtime} {inst : ZInstruction} {s : Exec} {m m' : Machine} {a b x : Int}
  {rest : StackWords} {c : RuntimeCall}

theorem ofWord_tag (x : Int) : Value.ofWord (tag 64 x) = .int (reduce63 x) := by
  have hodd : (tag 64 x).getLsbD 0 = true := by
    rw [tag, getLsbD_ofInt _ 0 (by decide), two_mul_add_one, Int.testBit_bit_zero]
  rw [Value.ofWord, if_pos hodd]
  exact congrArg Value.int (untag_tag x (by decide))

theorem toWord_reduce63 (x : Int) :
    (Value.int (reduce63 x)).toWord = some (BitVec.ofInt 64 (2 * x + 1)) :=
  congrArg some (tag_bmod x (by decide))

theorem Computes.of_run (hcall : inst.runtimeCalls = some [c])
    (hrun : c.run rt s.machine =
      some (.next { s.machine with accu := .ofWord (tag 64 x), stack := rest })) :
    Computes rt inst s x rest := by
  rw [ofWord_tag] at hrun
  exact ⟨Exec.step_of_run hcall hrun, toWord_reduce63 x, rfl⟩

theorem Machine.wordOp_int {f : BitVec 64 → BitVec 64 → Option Value} {v : Value}
    (haccu : m.accu = .int a) (hstack : m.stack = some (.int b) :: rest)
    (hf : f (tag 64 a) (tag 64 b) = some v) :
    m.wordOp f = some { m with accu := v, stack := rest } := by
  have htop : m.slot 0 = some (.int b) := by
    rw [slot, hstack]
    rfl
  have hpop : m.raiseSp 1 = some { m with stack := rest } := by
    rw [raiseSp, hstack]
    exact if_pos (Nat.le_add_left 1 rest.length)
  have ha : m.accu.toWord = some (tag 64 a) := by
    rw [haccu]
    rfl
  have hb : (Value.int b).toWord = some (tag 64 b) := rfl
  simp only [wordOp, ha, htop, hb, hf, hpop, Option.bind_eq_bind, Option.bind_some]
  rfl

theorem Machine.shiftOp_int {f : BitVec 64 → Nat → BitVec 64} (haccu : m.accu = .int a)
    (hstack : m.stack = some (.int b) :: rest) (hlow : 0 ≤ b) (hhigh : b ≤ 62)
    (hf : f (tag 64 a - 1) b.toNat = tag 64 x) :
    m.shiftOp f = some { m with accu := .ofWord (tag 64 x), stack := rest } := by
  have hlong : (longOfWord (tag 64 b)).toInt = b := by
    refine (untag_tag b (by decide)).trans ?_
    exact Int.bmod_eq_of_le (by norm_num; omega) (by norm_num; omega)
  have hcount : (longOfWord (tag 64 b)).toNat = b.toNat := by
    have hsigned := BitVec.toInt_eq_toNat_cond (longOfWord (tag 64 b))
    rw [hlong] at hsigned
    have hword := (longOfWord (tag 64 b)).isLt
    split at hsigned <;> omega
  refine wordOp_int haccu hstack ?_
  rw [if_pos (by omega), hcount, hf]

theorem computes_binary {f : Int → Int → Int} (ha : IsInt63 a) (haccu : s.machine.accu = .int a)
    (hf : binaryInt inst.opNum = some f) (hshift : isShift inst.opNum → 0 ≤ b ∧ b ≤ 62)
    (hstack : s.machine.stack = some (.int b) :: rest) : Computes rt inst s (f a b) rest := by
  have hself : a.bmod (2 ^ 63) = a := by
    obtain ⟨hlow, hhigh⟩ := ha
    exact Int.bmod_eq_of_le (by norm_num at hlow ⊢; omega) (by norm_num at hhigh ⊢; omega)
  have hword : ∀ {g : BitVec 64 → BitVec 64 → Option Value} {x : Int},
      g (tag 64 a) (tag 64 b) = some (.ofWord (tag 64 x)) →
      RuntimeCall.plain (s.machine.wordOp g) =
        some (.next { s.machine with accu := .ofWord (tag 64 x), stack := rest }) :=
    fun hg => congrArg RuntimeCall.plain (Machine.wordOp_int haccu hstack hg)
  have hshifted : ∀ {g : BitVec 64 → Nat → BitVec 64} {x : Int}, isShift inst.opNum = true →
      g (tag 64 a - 1) b.toNat = tag 64 x →
      RuntimeCall.plain (s.machine.shiftOp g) =
        some (.next { s.machine with accu := .ofWord (tag 64 x), stack := rest }) :=
    fun hop hg => congrArg RuntimeCall.plain
      (Machine.shiftOp_int haccu hstack (hshift hop).1 (hshift hop).2 hg)
  unfold binaryInt at hf
  split at hf
  · next hop =>
      cases hf
      refine Computes.of_run (c := .addInt) ?_ (hword ?_)
      · simp only [ZInstruction.runtimeCalls, hop]
      · rw [tag_add]
  · next hop =>
      cases hf
      refine Computes.of_run (c := .subInt) ?_ (hword ?_)
      · simp only [ZInstruction.runtimeCalls, hop]
      · rw [tag_sub]
  · next hop =>
      cases hf
      refine Computes.of_run (c := .mulInt) ?_ (hword ?_)
      · simp only [ZInstruction.runtimeCalls, hop]
      · rw [Machine.wordOfLong, Machine.longOfWord, Machine.longOfWord, tag_mul _ _ (by decide)]
  · next hop =>
      cases hf
      refine Computes.of_run (c := .andInt) ?_ (hword ?_)
      · simp only [ZInstruction.runtimeCalls, hop]
      · rw [tag_and]
  · next hop =>
      cases hf
      refine Computes.of_run (c := .orInt) ?_ (hword ?_)
      · simp only [ZInstruction.runtimeCalls, hop]
      · rw [tag_or]
  · next hop =>
      cases hf
      refine Computes.of_run (c := .xorInt) ?_ (hword ?_)
      · simp only [ZInstruction.runtimeCalls, hop]
      · rw [tag_xor]
  · next hop =>
      cases hf
      refine Computes.of_run (c := .lslInt) ?_ (hshifted (by rw [hop]; rfl) ?_)
      · simp only [ZInstruction.runtimeCalls, hop]
      · exact tag_shiftLeft a b.toNat
  · next hop =>
      cases hf
      refine Computes.of_run (c := .lsrInt) ?_ (hshifted (by rw [hop]; rfl) ?_)
      · simp only [ZInstruction.runtimeCalls, hop]
      · exact tag_ushiftRight a (by decide) b.toNat
  · next hop =>
      cases hf
      refine Computes.of_run (c := .asrInt) ?_ (hshifted (by rw [hop]; rfl) ?_)
      · simp only [ZInstruction.runtimeCalls, hop]
      · exact (tag_sshiftRight a (by decide) b.toNat).trans (by rw [hself])
  · cases hf

theorem computes_neg (haccu : s.machine.accu = .int a) (hop : inst.opNum = .negInt) :
    Computes rt inst s (-a) s.machine.stack := by
  refine Computes.of_run (c := .negInt) ?_ ?_
  · simp only [ZInstruction.runtimeCalls, hop]
  · have hword : s.machine.accu.toWord = some (tag 64 a) := by
      rw [haccu]
      rfl
    rw [RuntimeCall.run, Machine.negInt, hword, ← tag_neg]
    rfl

/-- The operand is shifted in 32 bits at code generation. -/
theorem computes_offset (haccu : s.machine.accu = .int a) (hop : inst.opNum = .offsetInt)
    (hlow : -2 ^ 30 ≤ inst.arg 0) (hhigh : inst.arg 0 < 2 ^ 30) :
    Computes rt inst s (a + inst.arg 0) s.machine.stack := by
  have hoperand : toInt32 (2 * inst.arg 0) = 2 * inst.arg 0 :=
    toInt32_of_small (by omega) (by omega)
  refine Computes.of_run (c := .offsetInt (2 * inst.arg 0)) ?_ ?_
  · simp only [ZInstruction.runtimeCalls, hop, hoperand]
  · have hword : s.machine.accu.toWord = some (tag 64 a) := by
      rw [haccu]
      rfl
    rw [RuntimeCall.run, Machine.offsetInt, hword, ← tag_offset]
    rfl

/-- The instructions on tagged integers compute the arithmetic of the language: the result is reduced
to 63 bits and tagged, a binary operation pops one word and the others none. -/
theorem tagged_arithmetic (ha : IsInt63 a) (haccu : s.machine.accu = .int a) :
    (∀ f b rest, binaryInt inst.opNum = some f → IsInt63 b →
      (isShift inst.opNum → 0 ≤ b ∧ b ≤ 62) → s.machine.stack = some (.int b) :: rest →
      Computes rt inst s (f a b) rest) ∧
    (inst.opNum = .negInt → Computes rt inst s (-a) s.machine.stack) ∧
    (inst.opNum = .offsetInt → -2 ^ 30 ≤ inst.arg 0 → inst.arg 0 < 2 ^ 30 →
      Computes rt inst s (a + inst.arg 0) s.machine.stack) :=
  ⟨fun _ _ _ hf _ hshift hstack => computes_binary ha haccu hf hshift hstack,
    computes_neg haccu, computes_offset haccu⟩

def minusThree : Exec :=
  .start { Machine.start [] .unit 100 with accu := .int (-3), stack := [some (.int 1)] }

theorem tagged_arithmetic_minusThree :
    Computes .idle (.blank .lsrInt) minusThree (2 ^ 62 - 2) [] ∧
      Computes .idle (.blank .negInt) minusThree 3 [some (.int 1)] ∧
      Computes .idle (.ofArgs .offsetInt (-2 ^ 30) 0) minusThree (-2 ^ 30 - 3)
        [some (.int 1)] := by
  have ha : IsInt63 (-3) := ⟨by norm_num, by norm_num⟩
  have hone : IsInt63 1 := ⟨by norm_num, by norm_num⟩
  refine ⟨?_, ?_, ?_⟩
  · exact (@tagged_arithmetic .idle (.blank .lsrInt) minusThree (-3) ha rfl).1 _ 1 [] rfl hone
      (fun _ => by decide) rfl
  · exact (@tagged_arithmetic .idle (.blank .negInt) minusThree (-3) ha rfl).2.1 rfl
  · exact (@tagged_arithmetic .idle (.ofArgs .offsetInt (-2 ^ 30) 0) minusThree (-3) ha rfl).2.2
      rfl (by decide) (by decide)

end CamllVM
