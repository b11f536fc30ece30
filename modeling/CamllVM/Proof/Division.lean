import CamllVM.Proof.Arithmetic

/-!
# Division

The quotient is truncated and the remainder has the sign of the dividend. The functions of the
library divide without a test of the divisor.
-/

namespace CamllVM

open TaggedWord

/-- `q` and `r` are the results of the division of `a` by `b`. -/
structure Division (a b q r : Int) : Prop where
  quotient : q = reduce63 (a.tdiv b)
  value : reduce63 (b * q + r) = a
  lt : |r| < |b|
  sign : r = 0 ∨ r.sign = a.sign

/-- `DIVINT` or `MODINT` with `a` in the accumulator and `b` above the words `rest` leaves the
quotient or the remainder, and if `b` is zero raises the exception `divisionByZero`. -/
def DividesTotally (rt : Runtime) (divisionByZero : Value) (inst : ZInstruction) (s : Exec)
    (a b : Int) (rest : StackWords) : Prop :=
  if b ≠ 0 then
    ∃ q r, Division a b q r ∧ Computes rt inst s (if inst.opNum = .divInt then q else r) rest
  else
    ∃ t, s.settle (.jump ({ s.machine with stack := rest }.throwException divisionByZero)) s.goOn =
      some t ∧ s.exec rt inst = some t

variable {rt : Runtime} {inst : ZInstruction} {s : Exec} {a b : Int} {rest : StackWords}

theorem IsInt63.reduce (h : IsInt63 a) : reduce63 a = a := by
  obtain ⟨hlow, hhigh⟩ := h
  exact Int.bmod_eq_of_le (by norm_num at hlow ⊢; omega) (by norm_num at hhigh ⊢; omega)

theorem reduce63_reduce63 (x : Int) : reduce63 (reduce63 x) = reduce63 x := Int.bmod_bmod

theorem division_tdiv_tmod (ha : IsInt63 a) (hb : b ≠ 0) :
    Division a b (reduce63 (a.tdiv b)) (a.tmod b) := by
  refine ⟨rfl, ?_, ?_, ?_⟩
  · have hmul : reduce63 (b * reduce63 (a.tdiv b) + a.tmod b) =
        reduce63 (b * a.tdiv b + a.tmod b) := by
      rw [reduce63, reduce63, reduce63, ← Int.bmod_add_bmod, Int.mul_bmod_bmod, Int.bmod_add_bmod]
    rw [hmul, Int.mul_tdiv_add_tmod, ha.reduce]
  · rw [Int.abs_eq_natAbs, Int.abs_eq_natAbs, Int.natAbs_tmod]
    exact_mod_cast Nat.mod_lt _ (Int.natAbs_pos.mpr hb)
  · rcases eq_or_ne (a.tmod b) 0 with hzero | hne
    · exact .inl hzero
    · refine .inr ?_
      rw [Int.sign_tmod, if_neg]
      rwa [Int.dvd_iff_tmod_eq_zero]

theorem longOfWord_eq_zero_iff (hb : IsInt63 b) : Machine.longOfWord (tag 64 b) = 0 ↔ b = 0 := by
  have hlong : (Machine.longOfWord (tag 64 b)).toInt = b :=
    (untag_tag b (by decide)).trans hb.reduce
  constructor
  · intro hzero
    rw [hzero] at hlong
    exact hlong.symm
  · rintro rfl
    exact BitVec.eq_of_toInt_eq hlong

theorem computes_division (ha : IsInt63 a) (hb : IsInt63 b) (hne : b ≠ 0)
    (hop : inst.opNum = .divInt ∨ inst.opNum = .modInt) (haccu : s.machine.accu = .int a)
    (hstack : s.machine.stack = some (.int b) :: rest) :
    Computes rt inst s (if inst.opNum = .divInt then a.tdiv b else a.tmod b) rest := by
  have hlong := (longOfWord_eq_zero_iff hb).not.mpr hne
  have hself : ∀ {x : Int}, IsInt63 x → x.bmod (2 ^ (64 - 1)) = x := fun hx => hx.reduce
  rcases hop with hop | hop
  · rw [if_pos hop]
    refine Computes.of_run (c := .divInt) ?_ (congrArg RuntimeCall.plain
      (Machine.wordOp_int haccu hstack ?_))
    · simp only [ZInstruction.runtimeCalls, hop]
    · rw [if_neg hlong, Machine.wordOfLong, Machine.longOfWord, Machine.longOfWord,
        tag_tdiv _ _ (by decide), hself ha, hself hb]
  · rw [if_neg (by rw [hop]; decide)]
    refine Computes.of_run (c := .modInt) ?_ (congrArg RuntimeCall.plain
      (Machine.wordOp_int haccu hstack ?_))
    · simp only [ZInstruction.runtimeCalls, hop]
    · rw [if_neg hlong, Machine.wordOfLong, Machine.longOfWord, Machine.longOfWord,
        tag_tmod _ _ (by decide), hself ha, hself hb]

theorem exec_division_zero (hop : inst.opNum = .divInt ∨ inst.opNum = .modInt)
    (haccu : s.machine.accu = .int a) (hstack : s.machine.stack = some (.int 0) :: rest) :
    s.exec rt inst = none := by
  have ha : s.machine.accu.toWord = some (tag 64 a) := by
    rw [haccu]
    rfl
  have htop : s.machine.slot 0 = some (.int 0) := by
    rw [Machine.slot, hstack]
    rfl
  have hb : (Value.int 0).toWord = some (tag 64 0) := rfl
  have hlong : Machine.longOfWord (tag 64 0) = 0 := by decide
  rcases hop with hop | hop
  · simp only [Exec.exec, ZInstruction.runtimeCalls, hop, Option.bind_eq_bind, Option.bind_some,
      RuntimeCall.runAll_singleton, RuntimeCall.run, Machine.divInt, Machine.wordOp, ha, htop, hb,
      hlong, if_true, Option.bind_none]
    rfl
  · simp only [Exec.exec, ZInstruction.runtimeCalls, hop, Option.bind_eq_bind, Option.bind_some,
      RuntimeCall.runAll_singleton, RuntimeCall.run, Machine.modInt, Machine.wordOp, ha, htop, hb,
      hlong, if_true, Option.bind_none]
    rfl

/-- The division of the library is that of the language exactly for a divisor that is not zero. -/
theorem dividesTotally_iff (divisionByZero : Value) (ha : IsInt63 a) (hb : IsInt63 b)
    (hop : inst.opNum = .divInt ∨ inst.opNum = .modInt) (haccu : s.machine.accu = .int a)
    (hstack : s.machine.stack = some (.int b) :: rest) :
    DividesTotally rt divisionByZero inst s a b rest ↔ b ≠ 0 := by
  unfold DividesTotally
  by_cases hzero : b = 0
  · subst hzero
    rw [if_neg (not_not.mpr rfl), exec_division_zero hop haccu hstack]
    refine iff_of_false ?_ (not_not.mpr rfl)
    rintro ⟨t, -, ht⟩
    cases ht
  · rw [if_pos hzero]
    refine iff_of_true ⟨_, _, division_tdiv_tmod ha hzero, ?_⟩ hzero
    have hcomputes : Computes rt inst s _ rest := computes_division ha hb hzero hop haccu hstack
    split
    · next hdiv =>
        rw [if_pos hdiv] at hcomputes
        exact ⟨by rw [reduce63_reduce63]; exact hcomputes.step,
          by rw [reduce63_reduce63, ← toWord_reduce63 (reduce63 (a.tdiv b)), reduce63_reduce63],
          hcomputes.odd⟩
    · next hmod =>
        rwa [if_neg hmod] at hcomputes

def leastByMinusOne : Exec :=
  .start { Machine.start [] .unit 100 with
    accu := .int (-2 ^ 62), stack := [some (.int (-1))] }

theorem dividesTotally_iff_leastByMinusOne :
    DividesTotally .idle .unit (.blank .divInt) leastByMinusOne (-2 ^ 62) (-1) [] ↔ (-1 : Int) ≠ 0 :=
  dividesTotally_iff .unit ⟨by decide, by decide⟩ ⟨by decide, by decide⟩ (.inl rfl) rfl rfl

def sevenByZero : Exec :=
  .start { Machine.start [] .unit 100 with accu := .int 7, stack := [some (.int 0)] }

/-- Nothing is raised: the machine divides by zero. -/
theorem not_dividesTotally_sevenByZero :
    sevenByZero.exec .idle (.blank .divInt) = none ∧
      ∀ divisionByZero, ¬DividesTotally .idle divisionByZero (.blank .divInt) sevenByZero 7 0 [] := by
  have hexec : sevenByZero.exec .idle (.blank .divInt) = none := rfl
  refine ⟨hexec, fun divisionByZero h => ?_⟩
  obtain ⟨t, -, ht⟩ : ∃ t, _ ∧ sevenByZero.exec .idle (.blank .divInt) = some t := by
    unfold DividesTotally at h
    rwa [if_neg (not_not.mpr rfl)] at h
  cases hexec.symm.trans ht

end CamllVM
