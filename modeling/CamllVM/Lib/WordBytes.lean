import Mathlib

/-!
# Bytes of words

A byte of a word of `w` bits is named by the position of its lowest bit. Writing a byte changes no
byte that has no bit in common with it.
-/

namespace WordBytes

variable {w : Nat}

/-- The byte at bit `s`. -/
def byte (v : BitVec w) (s : Nat) : BitVec w := (v >>> s) &&& 255

/-- The word with the lowest byte of `c` at bit `s`. -/
def setByte (v : BitVec w) (s : Nat) (c : BitVec w) : BitVec w :=
  (v &&& ~~~((255 : BitVec w) <<< s)) ||| ((c &&& 255) <<< s)

theorem getLsbD_mask (i : Nat) : (255 : BitVec w).getLsbD i = (decide (i < w) && decide (i < 8)) := by
  show (BitVec.ofNat w (2 ^ 8 - 1)).getLsbD i = _
  rw [BitVec.getLsbD_ofNat, Nat.testBit_two_pow_sub_one]

theorem getLsbD_byte (v : BitVec w) (s i : Nat) :
    (byte v s).getLsbD i = (v.getLsbD (s + i) && (decide (i < w) && decide (i < 8))) := by
  rw [byte, BitVec.getLsbD_and, BitVec.getLsbD_ushiftRight, getLsbD_mask]

theorem getLsbD_setByte_of_mem (v c : BitVec w) {s i : Nat} (hs : s ≤ i) (hi : i < s + 8)
    (hw : i < w) : (setByte v s c).getLsbD i = c.getLsbD (i - s) := by
  have hlow : ¬i < s := by omega
  have hbyte : i - s < 8 := by omega
  have hword : i - s < w := by omega
  rw [setByte, BitVec.getLsbD_or, BitVec.getLsbD_and, BitVec.getLsbD_not, BitVec.getLsbD_shiftLeft,
    BitVec.getLsbD_shiftLeft, BitVec.getLsbD_and, getLsbD_mask]
  simp [hw, hlow, hbyte, hword]

theorem getLsbD_setByte_of_not_mem (v c : BitVec w) {s i : Nat} (hi : i < s ∨ s + 8 ≤ i) :
    (setByte v s c).getLsbD i = v.getLsbD i := by
  by_cases hw : i < w
  · rw [setByte, BitVec.getLsbD_or, BitVec.getLsbD_and, BitVec.getLsbD_not,
      BitVec.getLsbD_shiftLeft, BitVec.getLsbD_shiftLeft, BitVec.getLsbD_and, getLsbD_mask]
    rcases hi with hlow | hhigh
    · simp [hw, hlow]
    · have hbyte : ¬i - s < 8 := by omega
      simp [hw, hbyte]
  · rw [BitVec.getLsbD_of_ge _ _ (by omega), BitVec.getLsbD_of_ge _ _ (by omega)]

theorem byte_setByte_self (v c : BitVec w) {s : Nat} (hs : s + 8 ≤ w) :
    byte (setByte v s c) s = c &&& 255 := by
  apply BitVec.eq_of_getLsbD_eq
  intro i hw
  rw [getLsbD_byte, BitVec.getLsbD_and, getLsbD_mask]
  by_cases hi : i < 8
  · rw [getLsbD_setByte_of_mem v c (by omega) (by omega) (by omega), Nat.add_sub_cancel_left]
  · rw [decide_eq_false hi, Bool.and_false, Bool.and_false, Bool.and_false]

theorem byte_setByte_of_disjoint (v c : BitVec w) {s t : Nat} (h : t + 8 ≤ s ∨ s + 8 ≤ t) :
    byte (setByte v s c) t = byte v t := by
  apply BitVec.eq_of_getLsbD_eq
  intro i hw
  rw [getLsbD_byte, getLsbD_byte]
  by_cases hi : i < 8
  · rw [getLsbD_setByte_of_not_mem v c (by omega)]
  · rw [decide_eq_false hi, Bool.and_false, Bool.and_false, Bool.and_false]

theorem toNat_ofInt_and (c : Int) (hw : 8 ≤ w) :
    ((BitVec.ofInt w c &&& 255).toNat : Int) = c % 256 := by
  have hmask : (255 : BitVec w).toNat = 2 ^ 8 - 1 := by
    show 255 % 2 ^ w = 2 ^ 8 - 1
    exact Nat.mod_eq_of_lt (lt_of_lt_of_le (by decide) (Nat.pow_le_pow_right (by decide) hw))
  have hdvd : (256 : Int) ∣ 2 ^ w := by
    have hpow : (256 : Int) = 2 ^ 8 := by norm_num
    rw [hpow]
    exact pow_dvd_pow 2 hw
  rw [BitVec.toNat_and, hmask, Nat.and_two_pow_sub_one_eq_mod, BitVec.toNat_ofInt]
  push_cast
  rw [Int.toNat_of_nonneg (Int.emod_nonneg _ (by positivity))]
  exact Int.emod_emod_of_dvd c hdvd

end WordBytes
