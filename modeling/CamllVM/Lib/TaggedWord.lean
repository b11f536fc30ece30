import Mathlib

/-!
# Integers with a tag bit

An integer is kept in a word of `w` bits above a lowest bit that is one, so that `w - 1` bits are left
for it. An operation on the integers becomes an operation on the words with a correction for the tag.
All of these hold for every integer: the word only knows it modulo `2 ^ (w - 1)`.
-/

namespace TaggedWord

def tag (w : Nat) (x : Int) : BitVec w := BitVec.ofInt w (2 * x + 1)

def untag {w : Nat} (v : BitVec w) : Int := (v.sshiftRight 1).toInt

variable {w : Nat} (x y : Int)

/-! ### Words of integers -/

theorem ofInt_bmod : BitVec.ofInt w (x.bmod (2 ^ w)) = BitVec.ofInt w x := by
  apply BitVec.eq_of_toInt_eq
  rw [BitVec.toInt_ofInt, BitVec.toInt_ofInt, Int.bmod_bmod]

theorem two_mul_bmod (hw : 2 ≤ w) : (2 * x).bmod (2 ^ w) = 2 * x.bmod (2 ^ (w - 1)) := by
  obtain ⟨n, rfl⟩ : ∃ n, w = n + 2 := ⟨w - 2, by omega⟩
  have heven : 2 ∣ 2 ^ (n + 1) := ⟨2 ^ n, by rw [Nat.pow_succ, Nat.mul_comm]⟩
  have hmul := Int.mod_bmod_mul_of_pos (a := 2) x (2 ^ (n + 1)) (by decide) heven
  rwa [← Nat.pow_succ'] at hmul

theorem toInt_tag (hw : 2 ≤ w) : (tag w x).toInt = 2 * x.bmod (2 ^ (w - 1)) + 1 := by
  have hpow : (2 ^ w : Nat) = 2 * 2 ^ (w - 1) := by
    rw [← Nat.pow_succ', show (w - 1).succ = w by omega]
  have hhalf : (2 ^ (w - 1) : Nat) = 2 * 2 ^ (w - 2) := by
    rw [← Nat.pow_succ', show (w - 2).succ = w - 1 by omega]
  have hbounds := And.intro (Int.le_bmod (x := x) (m := 2 ^ (w - 1)) (Nat.two_pow_pos _))
    (Int.bmod_lt (x := x) (m := 2 ^ (w - 1)) (Nat.two_pow_pos _))
  have hword : tag w x = BitVec.ofInt w (2 * x.bmod (2 ^ (w - 1)) + 1) := by
    rw [tag, ← two_mul_bmod x hw, BitVec.ofInt_add, BitVec.ofInt_add, ofInt_bmod]
  rw [hword, BitVec.toInt_ofInt]
  apply Int.bmod_eq_of_le <;> omega

theorem untag_tag (hw : 2 ≤ w) : untag (tag w x) = x.bmod (2 ^ (w - 1)) := by
  rw [untag, BitVec.toInt_sshiftRight, toInt_tag x hw, Int.shiftRight_eq_div_pow]
  omega

/-- Words do not tell integers apart that are equal modulo `2 ^ (w - 1)`. -/
theorem tag_bmod (hw : 2 ≤ w) : tag w (x.bmod (2 ^ (w - 1))) = tag w x := by
  apply BitVec.eq_of_toInt_eq
  rw [toInt_tag _ hw, toInt_tag _ hw, Int.bmod_bmod]

/-! ### Addition, subtraction and multiplication -/

theorem tag_add : tag w x + tag w y - 1 = tag w (x + y) := by
  have hone : (1 : BitVec w) = BitVec.ofInt w 1 := by simp
  rw [BitVec.sub_eq_add_neg, hone, ← BitVec.ofInt_neg, tag, tag, ← BitVec.ofInt_add,
    ← BitVec.ofInt_add, tag]
  congr 1
  ring

theorem tag_sub : tag w x - tag w y + 1 = tag w (x - y) := by
  have hone : (1 : BitVec w) = BitVec.ofInt w 1 := by simp
  rw [BitVec.sub_eq_add_neg, hone, tag, tag, ← BitVec.ofInt_neg, ← BitVec.ofInt_add,
    ← BitVec.ofInt_add, tag]
  congr 1
  ring

theorem tag_neg : 2 - tag w x = tag w (-x) := by
  have htwo : (2 : BitVec w) = BitVec.ofInt w 2 := by simp
  rw [BitVec.sub_eq_add_neg, htwo, tag, ← BitVec.ofInt_neg, ← BitVec.ofInt_add, tag]
  congr 1
  ring

theorem tag_offset : tag w x + BitVec.ofInt w (2 * y) = tag w (x + y) := by
  rw [tag, ← BitVec.ofInt_add, tag]
  congr 1
  ring

theorem ofInt_shiftLeft (n : Nat) : BitVec.ofInt w x <<< n = BitVec.ofInt w (x * 2 ^ n) := by
  have htwo : BitVec.twoPow w n = BitVec.ofInt w ((2 ^ n : Nat) : Int) := by
    apply BitVec.eq_of_toNat_eq
    rw [BitVec.ofInt_natCast, BitVec.toNat_twoPow, BitVec.toNat_ofNat]
  rw [BitVec.shiftLeft_eq_mul_twoPow, htwo, ← BitVec.ofInt_mul]
  norm_cast

theorem shiftLeft_one_add_one : BitVec.ofInt w x <<< 1 + 1 = tag w x := by
  have hone : (1 : BitVec w) = BitVec.ofInt w 1 := by simp
  rw [ofInt_shiftLeft, hone, ← BitVec.ofInt_add, tag, pow_one, mul_comm]

theorem sshiftRight_tag (hw : 2 ≤ w) :
    (tag w x).sshiftRight 1 = BitVec.ofInt w (x.bmod (2 ^ (w - 1))) := by
  rw [← untag_tag x hw, untag, BitVec.ofInt_toInt]

theorem tag_mul (hw : 2 ≤ w) :
    ((tag w x).sshiftRight 1 * (tag w y).sshiftRight 1) <<< 1 + 1 = tag w (x * y) := by
  rw [sshiftRight_tag x hw, sshiftRight_tag y hw, ← BitVec.ofInt_mul, shiftLeft_one_add_one,
    ← tag_bmod _ hw, ← Int.mul_bmod, tag_bmod _ hw]

/-! ### Division -/

theorem sdiv_eq_ofInt (a b : BitVec w) : a.sdiv b = BitVec.ofInt w (a.toInt.tdiv b.toInt) := by
  apply BitVec.eq_of_toInt_eq
  rw [BitVec.toInt_sdiv, BitVec.toInt_ofInt]

theorem srem_eq_ofInt (a b : BitVec w) : a.srem b = BitVec.ofInt w (a.toInt.tmod b.toInt) := by
  rw [← BitVec.toInt_srem, BitVec.ofInt_toInt]

/-- The quotient is that of the integers in the words. The quotient of the least integer by `-1` is
reduced. -/
theorem tag_tdiv (hw : 2 ≤ w) :
    ((tag w x).sshiftRight 1).sdiv ((tag w y).sshiftRight 1) <<< 1 + 1 =
      tag w ((x.bmod (2 ^ (w - 1))).tdiv (y.bmod (2 ^ (w - 1)))) := by
  rw [sdiv_eq_ofInt, shiftLeft_one_add_one]
  exact congrArg (tag w) (congrArg₂ Int.tdiv (untag_tag x hw) (untag_tag y hw))

theorem tag_tmod (hw : 2 ≤ w) :
    ((tag w x).sshiftRight 1).srem ((tag w y).sshiftRight 1) <<< 1 + 1 =
      tag w ((x.bmod (2 ^ (w - 1))).tmod (y.bmod (2 ^ (w - 1)))) := by
  rw [srem_eq_ofInt, shiftLeft_one_add_one]
  exact congrArg (tag w) (congrArg₂ Int.tmod (untag_tag x hw) (untag_tag y hw))

/-! ### Bitwise operations -/

theorem getLsbD_ofInt (i : Nat) (hi : i < w) : (BitVec.ofInt w x).getLsbD i = x.testBit i := by
  cases x with
  | ofNat n =>
      rw [Int.ofNat_eq_natCast, BitVec.ofInt_natCast, BitVec.getLsbD_ofNat, decide_eq_true hi,
        Bool.true_and]
      rfl
  | negSucc n =>
      rw [BitVec.ofInt_negSucc_eq_not_ofNat, BitVec.getLsbD_not, BitVec.getLsbD_ofNat,
        decide_eq_true hi, Bool.true_and, Bool.true_and]
      rfl

theorem two_mul_add_one : 2 * x + 1 = Int.bit true x := (Int.bit_val true x).symm

theorem tag_and : tag w x &&& tag w y = tag w (Int.land x y) := by
  apply BitVec.eq_of_getLsbD_eq
  intro i hi
  rw [BitVec.getLsbD_and, tag, tag, tag, getLsbD_ofInt _ i hi, getLsbD_ofInt _ i hi,
    getLsbD_ofInt _ i hi, ← Int.testBit_land, two_mul_add_one, two_mul_add_one, Int.land_bit,
    two_mul_add_one]
  rfl

theorem tag_or : tag w x ||| tag w y = tag w (Int.lor x y) := by
  apply BitVec.eq_of_getLsbD_eq
  intro i hi
  rw [BitVec.getLsbD_or, tag, tag, tag, getLsbD_ofInt _ i hi, getLsbD_ofInt _ i hi,
    getLsbD_ofInt _ i hi, ← Int.testBit_lor, two_mul_add_one, two_mul_add_one, Int.lor_bit,
    two_mul_add_one]
  rfl

theorem ofInt_or_one : BitVec.ofInt w x ||| 1 = tag w (x / 2) := by
  apply BitVec.eq_of_getLsbD_eq
  intro i hi
  have hone : (1 : BitVec w) = BitVec.ofInt w (Int.bit true 0) := by simp [Int.bit]
  rw [hone, BitVec.getLsbD_or, tag, getLsbD_ofInt _ i hi, getLsbD_ofInt _ i hi,
    getLsbD_ofInt _ i hi, two_mul_add_one, ← Int.bit_decomp x, ← Int.div2_val]
  cases i with
  | zero => simp
  | succ i =>
      have hzero : Int.testBit 0 i = false := Nat.zero_testBit i
      simp [hzero]

theorem tag_xor : (tag w x ^^^ tag w y) ||| 1 = tag w (Int.xor x y) := by
  have hxor : tag w x ^^^ tag w y = BitVec.ofInt w (2 * Int.xor x y) := by
    apply BitVec.eq_of_getLsbD_eq
    intro i hi
    rw [BitVec.getLsbD_xor, tag, tag, getLsbD_ofInt _ i hi, getLsbD_ofInt _ i hi,
      getLsbD_ofInt _ i hi, two_mul_add_one, two_mul_add_one, ← Int.testBit_lxor, Int.lxor_bit,
      Int.bit_val]
    simp
  rw [hxor, ofInt_or_one, Int.mul_ediv_cancel_left _ (by decide)]

/-! ### Shifts -/

theorem tag_sub_one : tag w x - 1 = BitVec.ofInt w (2 * x) := by
  rw [tag, BitVec.ofInt_add]
  simp

theorem tag_shiftLeft (n : Nat) : (tag w x - 1) <<< n + 1 = tag w (x * 2 ^ n) := by
  have hone : (1 : BitVec w) = BitVec.ofInt w 1 := by simp
  rw [tag_sub_one, ofInt_shiftLeft, hone, ← BitVec.ofInt_add, tag, mul_assoc]

theorem half_shifted (n : Nat) : 2 * x / 2 ^ n / 2 = x / 2 ^ n := by
  rw [Int.ediv_ediv_of_nonneg (by positivity), mul_comm (2 ^ n),
    Int.mul_ediv_mul_of_pos _ _ (by decide)]

/-- A logical shift sees the unsigned integer. -/
theorem tag_ushiftRight (hw : 2 ≤ w) (n : Nat) :
    (tag w x - 1) >>> n ||| 1 = tag w (x % 2 ^ (w - 1) / 2 ^ n) := by
  have hpow : (2 ^ w : Int) = 2 * 2 ^ (w - 1) := by
    rw [← pow_succ', show w - 1 + 1 = w by omega]
  have hshift : (tag w x - 1) >>> n = BitVec.ofInt w (2 * (x % 2 ^ (w - 1)) / 2 ^ n) := by
    have hnat : ((2 * x % 2 ^ w).toNat : Int) = 2 * (x % 2 ^ (w - 1)) := by
      rw [Int.toNat_of_nonneg (Int.emod_nonneg _ (by positivity)), hpow,
        Int.mul_emod_mul_of_pos _ _ (by decide)]
    rw [← BitVec.setWidth_eq ((tag w x - 1) >>> n), ← BitVec.ofNat_toNat,
      BitVec.toNat_ushiftRight, tag_sub_one, BitVec.toNat_ofInt, Nat.shiftRight_eq_div_pow, ← BitVec.ofInt_natCast, ← hnat]
    norm_cast
  rw [hshift, ofInt_or_one, half_shifted]

theorem tag_sshiftRight (hw : 2 ≤ w) (n : Nat) :
    (tag w x - 1).sshiftRight n ||| 1 = tag w (x.bmod (2 ^ (w - 1)) / 2 ^ n) := by
  have hshift : (tag w x - 1).sshiftRight n =
      BitVec.ofInt w (2 * x.bmod (2 ^ (w - 1)) / 2 ^ n) := by
    rw [← BitVec.ofInt_toInt (x := (tag w x - 1).sshiftRight n), BitVec.toInt_sshiftRight,
      tag_sub_one, BitVec.toInt_ofInt, two_mul_bmod x hw, Int.shiftRight_eq_div_pow]
    norm_cast
  rw [hshift, ofInt_or_one, half_shifted]

/-! ### Comparisons -/

variable {x y}

theorem bmod_self (hw : 2 ≤ w) (hlow : -2 ^ (w - 2) ≤ x) (hhigh : x < 2 ^ (w - 2)) :
    x.bmod (2 ^ (w - 1)) = x := by
  obtain ⟨n, rfl⟩ : ∃ n, w = n + 2 := ⟨w - 2, by omega⟩
  have hpow : (2 ^ (n + 1) : Nat) = 2 * 2 ^ n := pow_succ' 2 n
  rw [Nat.add_sub_cancel] at hlow hhigh
  rw [show n + 2 - 1 = n + 1 by omega]
  have hcast : ((2 ^ n : Nat) : Int) = 2 ^ n := by norm_cast
  apply Int.bmod_eq_of_le <;> omega

theorem tag_slt (hw : 2 ≤ w) :
    (tag w x).slt (tag w y) = decide (x.bmod (2 ^ (w - 1)) < y.bmod (2 ^ (w - 1))) := by
  rw [BitVec.slt_eq_decide, toInt_tag x hw, toInt_tag y hw]
  apply decide_eq_decide.mpr
  omega

theorem tag_sle (hw : 2 ≤ w) :
    (tag w x).sle (tag w y) = decide (x.bmod (2 ^ (w - 1)) ≤ y.bmod (2 ^ (w - 1))) := by
  rw [BitVec.sle_eq_decide, toInt_tag x hw, toInt_tag y hw]
  apply decide_eq_decide.mpr
  omega

theorem tag_inj (hw : 2 ≤ w) :
    tag w x = tag w y ↔ x.bmod (2 ^ (w - 1)) = y.bmod (2 ^ (w - 1)) := by
  rw [← BitVec.toInt_inj, toInt_tag x hw, toInt_tag y hw]
  omega

theorem emod_of_abs_lt {m : Int} (hlow : -m ≤ x) (hhigh : x < m) :
    x % m = if 0 ≤ x then x else x + m := by
  split
  · next hpos => exact Int.emod_eq_of_lt hpos hhigh
  · next hneg =>
      rw [← Int.add_emod_right]
      exact Int.emod_eq_of_lt (by omega) (by omega)

theorem toNat_tag (hw : 2 ≤ w) (hlow : -2 ^ (w - 2) ≤ x) (hhigh : x < 2 ^ (w - 2)) :
    ((tag w x).toNat : Int) = x + x % 2 ^ w + 1 := by
  obtain ⟨n, rfl⟩ : ∃ n, w = n + 2 := ⟨w - 2, by omega⟩
  have hpow : (2 ^ (n + 2) : Int) = 4 * 2 ^ n := by ring
  have hpos : (0 : Int) < 2 ^ n := by positivity
  rw [Nat.add_sub_cancel] at hlow hhigh
  rw [tag, BitVec.toNat_ofInt, Int.toNat_of_nonneg (Int.emod_nonneg _ (by positivity))]
  push_cast
  rw [hpow, emod_of_abs_lt (by omega) (by omega), emod_of_abs_lt (by omega) (by omega)]
  split <;> split <;> omega

theorem tag_ult (hw : 2 ≤ w) (hx : -2 ^ (w - 2) ≤ x ∧ x < 2 ^ (w - 2))
    (hy : -2 ^ (w - 2) ≤ y ∧ y < 2 ^ (w - 2)) :
    (tag w x).ult (tag w y) = decide (x % 2 ^ w < y % 2 ^ w) := by
  have hpos : (0 : Int) < 2 ^ (w - 2) := by positivity
  have hpow : (2 ^ w : Int) = 4 * 2 ^ (w - 2) := by
    obtain ⟨n, rfl⟩ : ∃ n, w = n + 2 := ⟨w - 2, by omega⟩
    rw [Nat.add_sub_cancel]
    ring
  have hxn := toNat_tag hw hx.1 hx.2
  have hyn := toNat_tag hw hy.1 hy.2
  rw [BitVec.ult_eq_decide]
  apply decide_eq_decide.mpr
  rw [hpow, emod_of_abs_lt (by omega) (by omega)] at hxn hyn ⊢
  rw [emod_of_abs_lt (x := y) (by omega) (by omega)]
  split at hxn <;> split at hyn <;> omega

end TaggedWord
